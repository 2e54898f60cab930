import ScopedEffects.Proofs.Traffic.Requests

/-! How programs come out. Besides the answers to its requests, a program can see the clock, the
shared state and the signals, and of two programs side by side either can be first. The outcomes here
are those under any schedule; running a program alone, from one end to the other, gives one of them.
-/

namespace ScopedEffects

variable {H : Host}

namespace Program

/-- A program can come out so when its requests are answered by `ans`. -/
inductive Yields (ans : Scope → Key → Except (Failure H) (AnyInstance H)) :
    Program H → Except Panic (Exit H) → Prop
  | done {e} : Yields ans (.done e) (.ok e)
  | panic {p} : Yields ans (.panic p) (.error p)
  | act {u next o} (now s) (h : Yields ans (next now s) o) : Yields ans (.act u next) o
  | fire {g next o} (h : Yields ans next o) : Yields ans (.fire g next) o
  | isFired {g next o} (b) (h : Yields ans (next b) o) : Yields ans (.isFired g next) o
  | record {e next o} (h : Yields ans next o) : Yields ans (.record e next) o
  | sleep {d next o} (h : Yields ans next o) : Yields ans (.sleep d next) o
  | awaitSignal {g next o} (h : Yields ans next o) : Yields ans (.awaitSignal g next) o
  | get {via key next o} (h : Yields ans (next (ans via.scope key)) o) :
      Yields ans (.get via key next) o
  | both {l r next a b o} (hl : Yields ans l (.ok a)) (hr : Yields ans r (.ok b))
      (h : Yields ans (next a b) o) : Yields ans (.both l r next) o
  | panicLeft {l r next p} (h : Yields ans l (.error p)) : Yields ans (.both l r next) (.error p)
  | panicRight {l r next p} (h : Yields ans r (.error p)) : Yields ans (.both l r next) (.error p)
  | winLeft {l r next a o} (hl : Yields ans l a) (h : Yields ans (Task.winner next false a) o) :
      Yields ans (.first l r next) o
  | winRight {l r next a o} (hr : Yields ans r a) (h : Yields ans (Task.winner next true a) o) :
      Yields ans (.first l r next) o

/-- The outcome is settled by the answers to the requests alone. -/
def Determinate (p : Program H) : Prop :=
  ∀ ans o o', p.Yields ans o → p.Yields ans o' → o = o'

/-- Goes on after a program that was run alone. A panic goes through. -/
def onSettled (go : Exit H → Store H → Option (Except Panic (Exit H) × Store H)) :
    Except Panic (Exit H) × Store H → Option (Except Panic (Exit H) × Store H)
  | (.ok e, s) => go e s
  | (.error p, s) => some (.error p, s)

/-- Runs a program alone. Its requests are answered at once, time passes while it sleeps, and the
signals it waits for fire. Of two programs side by side the left one runs first. -/
def eval (answer : Access → Key → Store H → Option (Except (Failure H) (AnyInstance H) × Store H)) :
    Store H → Program H → Option (Except Panic (Exit H) × Store H)
  | s, .done e => some (.ok e, s)
  | s, .panic p => some (.error p, s)
  | s, .act update next => (next s.now s.user).eval answer { s with user := update s.now s.user }
  | s, .fire g next => next.eval answer (s.fire g)
  | s, .isFired g next => (next (s.isFired g)).eval answer s
  | s, .record e next => next.eval answer (s.record e)
  | s, .sleep d next => next.eval answer { s with now := s.now + d.ticks }
  | s, .awaitSignal g next => next.eval answer (s.fire g)
  | s, .get via key next => (answer via key s).bind fun x => (next x.1).eval answer x.2
  | s, .both l r next => (l.eval answer s).bind <| onSettled fun a s =>
      (r.eval answer s).bind <| onSettled fun b s => (next a b).eval answer s
  | s, .first l _ next => (l.eval answer s).bind <| onSettled fun e s =>
      (next false e).eval answer s

end Program

namespace Store

variable {α β : Type} {s : Store H} {a : α} {b : β}

/-- With enough fuel the answer is `a`, and the contexts stay those of `s`. -/
def Answers (s : Store H) (run : ℕ → Option (α × Store H)) (a : α) : Prop :=
  ∃ n s', s.SameContexts s' ∧ ∀ m, n ≤ m → run m = some (a, s')

theorem Answers.pure {s' : Store H} (h : s.SameContexts s') (a : α) :
    s.Answers (fun _ => some (a, s')) a := ⟨0, s', h, fun _ _ => rfl⟩

/-- What comes after an answer goes on from one and the same store, however much fuel there is. -/
theorem Answers.bind {run : ℕ → Option (α × Store H)} (h : s.Answers run a) :
    ∃ s₁, s.SameContexts s₁ ∧ ∀ {next : ℕ → α × Store H → Option (β × Store H)} {b : β},
      s.Answers (fun m => next m (a, s₁)) b → s.Answers (fun m => (run m).bind (next m)) b := by
  obtain ⟨n, s₁, same, first⟩ := h
  refine ⟨s₁, same, fun ⟨k, s₂, same', second⟩ => ⟨max n k, s₂, same', fun m hm => ?_⟩⟩
  have first := first m ((le_max_left n k).trans hm)
  have second := second m ((le_max_right n k).trans hm)
  simp only [first, Option.bind_some, second]

theorem Answers.unique {run : ℕ → Option (α × Store H)} {a' : α} (h : s.Answers run a)
    (h' : s.Answers run a') : a = a' := by
  obtain ⟨n, s₁, -, hn⟩ := h
  obtain ⟨k, s₂, -, hk⟩ := h'
  have same := (hn (max n k) (le_max_left n k)).symm.trans (hk (max n k) (le_max_right n k))
  exact congrArg Prod.fst (Option.some.inj same)

end Store

namespace Program

variable {ok : Access → Key → Prop} {ans : Scope → Key → Except (Failure H) (AnyInstance H)}
  {answer : ℕ → Access → Key → Store H → Option (Except (Failure H) (AnyInstance H) × Store H)}
  {s s' : Store H}

/-- A program whose requests are answered comes to an end, and that end is one of its outcomes. -/
theorem exists_eval {p : Program H} (hp : p.Requests ok)
    (h : ∀ via key s', ok via key → s.SameContexts s' →
      s.Answers (fun m => answer m via key s') (ans via.scope key))
    (hs : s.SameContexts s') :
    ∃ o, p.Yields ans o ∧ s.Answers (fun m => p.eval (answer m) s') o := by
  induction p generalizing s' with
  | done e => exact ⟨_, .done, .pure hs _⟩
  | panic p => exact ⟨_, .panic, .pure hs _⟩
  | act update next ih =>
    have same : s.SameContexts { s' with user := update s'.now s'.user } := ⟨hs.1, hs.2⟩
    obtain ⟨o, yields, run⟩ := ih s'.now s'.user (hp _ _) same
    exact ⟨o, .act _ _ yields, run⟩
  | fire g next ih =>
    obtain ⟨o, yields, run⟩ := ih hp (hs.trans (s'.sameContexts_fire g))
    exact ⟨o, .fire yields, run⟩
  | isFired g next ih =>
    obtain ⟨o, yields, run⟩ := ih (s'.isFired g) (hp _) hs
    exact ⟨o, .isFired _ yields, run⟩
  | record e next ih =>
    obtain ⟨o, yields, run⟩ := ih hp (hs.trans (s'.sameContexts_record e))
    exact ⟨o, .record yields, run⟩
  | sleep d next ih =>
    obtain ⟨o, yields, run⟩ := ih hp (hs.trans (s'.sameContexts_now (s'.now + d.ticks)))
    exact ⟨o, .sleep yields, run⟩
  | awaitSignal g next ih =>
    obtain ⟨o, yields, run⟩ := ih hp (hs.trans (s'.sameContexts_fire g))
    exact ⟨o, .awaitSignal yields, run⟩
  | get via key next ih =>
    obtain ⟨s₁, same, go⟩ := (h via key s' hp.1 hs).bind
    obtain ⟨o, yields, run⟩ := ih _ (hp.2 _) same
    refine ⟨o, .get yields, ?_⟩
    simp only [eval]
    exact go run
  | both l r next ihl ihr ih =>
    obtain ⟨hl, hr, hn⟩ := hp
    obtain ⟨a, left, run⟩ := ihl hl hs
    obtain ⟨s₁, same, go⟩ := run.bind
    cases a with
    | error p =>
      refine ⟨_, .panicLeft left, ?_⟩
      simp only [eval]
      exact go (.pure same _)
    | ok a =>
      obtain ⟨b, right, run⟩ := ihr hr same
      obtain ⟨s₂, same, go'⟩ := run.bind
      cases b with
      | error p =>
        refine ⟨_, .panicRight right, ?_⟩
        simp only [eval]
        exact go (go' (.pure same _))
      | ok b =>
        obtain ⟨o, yields, run⟩ := ih a b (hn a b) same
        refine ⟨o, .both left right yields, ?_⟩
        simp only [eval]
        exact go (go' run)
  | first l r next ihl _ ih =>
    obtain ⟨hl, -, hn⟩ := hp
    obtain ⟨a, left, run⟩ := ihl hl hs
    obtain ⟨s₁, same, go⟩ := run.bind
    cases a with
    | error p =>
      refine ⟨_, .winLeft left .panic, ?_⟩
      simp only [eval]
      exact go (.pure same _)
    | ok e =>
      obtain ⟨o, yields, run⟩ := ih false e (hn false e) same
      refine ⟨o, .winLeft left yields, ?_⟩
      simp only [eval]
      exact go run

end Program

/-- A request finds what `ans` says: one that waits is one for the key in the context that serves it,
and one that is refused has this failure for an answer. -/
def Deed.Faithful (ans : Scope → Key → Except (Failure H) (AnyInstance H)) : Deed H → Prop
  | .begun via key w _ => ans via.scope key = ans w.scope w.key
  | .refused via key f => ans via.scope key = .error f
  | .answered w o => ans w.scope w.key = o
  | _ => True

/-! Tasks -/

namespace Task

variable {s s' : Store H} {ans : Scope → Key → Except (Failure H) (AnyInstance H)}
  {t t' : Task H} {d : Deed H} {o : Except Panic (Exit H)}

/-- What the task has still to do. -/
def rest : Task H → Program H
  | .run p => p
  | .sleeping _ next | .watching _ next => next
  | .waiting w next => .get (.context w.scope) w.key next
  | .both l r _ next => .both l.rest r.rest next
  | .first l r _ next => .first l.rest r.rest next

theorem rest_yields_of_outcome? (h : t.outcome? = some o) : t.rest.Yields ans o := by
  unfold outcome? at h
  split at h
  · cases h; exact .done
  · cases h; exact .panic
  · cases h

theorem rest_yields_of_exit? {a : Exit H} (h : t.exit? = some a) : t.rest.Yields ans (.ok a) := by
  unfold exit? at h
  split at h
  · rename_i ho
    cases h
    exact rest_yields_of_outcome? ho
  · cases h

theorem rest_yields_of_panic? {p : Panic} (h : t.panic? = some p) :
    t.rest.Yields ans (.error p) := by
  unfold panic? at h
  split at h
  · rename_i ho
    cases h
    exact rest_yields_of_outcome? ho
  · cases h

theorem Quiet.yields (h : Quiet s t s' t') (ho : t'.rest.Yields ans o) : t.rest.Yields ans o := by
  cases h with
  | act => exact .act _ _ ho
  | fire => exact .fire ho
  | isFired => exact .isFired _ ho
  | record => exact .record ho
  | sleep => exact .sleep ho
  | watch => exact .awaitSignal ho
  | gather hl hr => exact .both (rest_yields_of_exit? hl) (rest_yields_of_exit? hr) ho
  | _ => exact ho

/-- Whatever a task does, it comes out as it could have come out before. -/
theorem Acts.yields (h : Acts s t d s' t') (hd : d.Faithful ans) (ho : t'.rest.Yields ans o) :
    t.rest.Yields ans o := by
  induction h generalizing o with
  | quiet h => exact h.yields ho
  | @begin via key next w s' h =>
    have hd : ans via.scope key = ans w.scope w.key := hd
    cases ho with
    | get ho => exact .get (hd ▸ ho)
  | @refuse via key next f s' h =>
    have hd : ans via.scope key = .error f := hd
    exact .get (hd ▸ ho)
  | @answer w next o' h =>
    have hd : ans w.scope w.key = o' := hd
    exact .get (hd ▸ ho)
  | panicLeft h =>
    cases ho
    exact .panicLeft (rest_yields_of_panic? h)
  | panicRight h =>
    cases ho
    exact .panicRight (rest_yields_of_panic? h)
  | winLeft h => exact .winLeft (rest_yields_of_outcome? h) ho
  | winRight h => exact .winRight (rest_yields_of_outcome? h) ho
  | bothLeft _ ih =>
    cases ho with
    | both hl hr ho => exact .both (ih hd hl) hr ho
    | panicLeft hl => exact .panicLeft (ih hd hl)
    | panicRight hr => exact .panicRight hr
  | bothRight _ ih =>
    cases ho with
    | both hl hr ho => exact .both hl (ih hd hr) ho
    | panicLeft hl => exact .panicLeft hl
    | panicRight hr => exact .panicRight (ih hd hr)
  | firstLeft _ ih =>
    cases ho with
    | winLeft hl ho => exact .winLeft (ih hd hl) ho
    | winRight hr ho => exact .winRight hr ho
  | firstRight _ ih =>
    cases ho with
    | winLeft hl ho => exact .winLeft hl ho
    | winRight hr ho => exact .winRight (ih hd hr) ho

end Task

end ScopedEffects
