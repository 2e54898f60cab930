import ScopedEffects.Proofs.Execution.Keeping
import ScopedEffects.Proofs.Execution.Operations

/-! Rules for user code. A program that keeps to the rules settles, panics, requests, fires signals
and changes the state of user code only as they allow, provided that its requests are answered as
they say. Factories that keep to the rules answer requests as they say, so tasks that keep to them
go on doing so, whoever drives them. -/

namespace ScopedEffects

variable {H : Host}

structure Rules (H : Host) where
  /-- How user code may fail, and how it may see others fail. -/
  failure : Failure H → Prop
  /-- The instances that may be made for a key. -/
  made : Key → AnyInstance H → Prop
  /-- What is true of the state that user code shares. -/
  state : H.State → Prop
  /-- The signals that user code may fire. -/
  fires : Signal → Prop
  unbound : ∀ key, failure (.tokenNotProvided key)
  circular : ∀ cycle, failure (.circularDependency cycle)

namespace Rules

def Answered (R : Rules H) (key : Key) : Except (Failure H) (AnyInstance H) → Prop
  | .ok i => R.made key i
  | .error f => R.failure f

def Settles (R : Rules H) (V : Value H → Prop) : Exit H → Prop
  | .ok v => V v
  | .error f => R.failure f

/-- A panic is allowed as the failure that it becomes. -/
def Panics (R : Rules H) (p : Panic) : Prop := R.failure (.ofPanic p)

/-- What user code has done between two stores. -/
structure Allows (R : Rules H) (s s' : Store H) : Prop where
  state : R.state s.user → R.state s'.user
  kept : s.fired ⊆ s'.fired
  fired : ∀ g ∈ s'.fired, g ∈ s.fired ∨ R.fires g

namespace Allows

variable {R : Rules H} {s s' s'' : Store H}

theorem refl (s : Store H) : R.Allows s s := ⟨id, List.Subset.refl _, fun _ hg => .inl hg⟩

theorem trans (h : R.Allows s s') (h' : R.Allows s' s'') : R.Allows s s'' := by
  refine ⟨fun hx => h'.state (h.state hx), List.Subset.trans h.kept h'.kept, fun g hg => ?_⟩
  rcases h'.fired g hg with hg | new
  · exact h.fired g hg
  · exact .inr new

end Allows

theorem allows_of_sameRest {R : Rules H} {s s' : Store H} (h : s.SameRest s') : R.Allows s s' := by
  refine ⟨fun hx => ?_, h.atOnce.fired, fun g hg => .inl ?_⟩
  · rw [h.user]
    exact hx
  · rw [← h.fired]
    exact hg

end Rules

variable {R : Rules H}

/-! Code and programs -/

def Code.Follows {α : Type} (R : Rules H) (P : α → Prop) (c : Code H α) : Prop :=
  ∀ now x, R.state x → R.state (c now x).state ∧ (∀ g ∈ (c now x).fired, R.fires g) ∧
    match (c now x).answer with
    | .ok a => P a
    | .error p => R.Panics p

theorem Code.follows_pure {α : Type} {P : α → Prop} {a : α} (h : P a) :
    (Code.pure a).Follows R P := fun _ _ hx => ⟨hx, fun _ hg => absurd hg List.not_mem_nil, h⟩

def Program.Follows (R : Rules H) (ok : Scope → Prop) :
    (Exit H → Prop) → Program H → Prop
  | E, .done e => E e
  | _, .panic p => R.Panics p
  | E, .act update next => ∀ now x, R.state x →
      R.state (update now x) ∧ (next now x).Follows R ok E
  | E, .fire g next => R.fires g ∧ next.Follows R ok E
  | E, .isFired _ next => ∀ b, (next b).Follows R ok E
  | E, .record _ next => next.Follows R ok E
  | E, .sleep _ next => next.Follows R ok E
  | E, .awaitSignal _ next => next.Follows R ok E
  | E, .get via key next => ok via.scope ∧ ∀ a, R.Answered key a → (next a).Follows R ok E
  | E, .both l r next => ∃ A B, l.Follows R ok A ∧ r.Follows R ok B ∧
      ∀ a b, A a → B b → (next a b).Follows R ok E
  | E, .first l r next => ∃ A B, l.Follows R ok A ∧ r.Follows R ok B ∧
      (∀ a, A a → (next false a).Follows R ok E) ∧ ∀ b, B b → (next true b).Follows R ok E

def Scope.None (_ : Scope) : Prop := False

/-- The requests of the task are served by contexts over the base `b`. -/
def Task.Follows (R : Rules H) (b : Nat) (ok : Scope → Prop) : (Exit H → Prop) → Task H → Prop
  | E, .run p => p.Follows R ok E
  | E, .sleeping _ next => next.Follows R ok E
  | E, .watching _ next => next.Follows R ok E
  | E, .waiting w next =>
    w.scope.base = b ∧ ∀ a, R.Answered w.key a → (next a).Follows R ok E
  | E, .both l r _ next => ∃ A B, l.Follows R b ok A ∧ r.Follows R b ok B ∧
      ∀ a b, A a → B b → (next a b).Follows R ok E
  | E, .first l r _ next => ∃ A B, l.Follows R b ok A ∧ r.Follows R b ok B ∧
      (∀ a, A a → (next false a).Follows R ok E) ∧ ∀ b, B b → (next true b).Follows R ok E

section Mono

variable {ok ok' : Scope → Prop} {E E' : Exit H → Prop}

theorem Program.Follows.mono (hok : ∀ c, ok c → ok' c) (hE : ∀ e, E e → E' e)
    {p : Program H} (h : p.Follows R ok E) : p.Follows R ok' E' := by
  induction p generalizing E E' with
  | done e => exact hE e h
  | panic => exact h
  | act _ _ ih => exact fun now x hx => ⟨(h now x hx).1, ih now x hE (h now x hx).2⟩
  | fire _ _ ih => exact ⟨h.1, ih hE h.2⟩
  | isFired _ _ ih => exact fun b => ih b hE (h b)
  | record _ _ ih | sleep _ _ ih | awaitSignal _ _ ih => exact ih hE h
  | get via key _ ih => exact ⟨hok _ h.1, fun a ha => ih a hE (h.2 a ha)⟩
  | both _ _ _ ihl ihr ihn =>
    obtain ⟨A, B, hl, hr, hn⟩ := h
    refine ⟨A, B, ihl (fun _ => id) hl, ihr (fun _ => id) hr, fun a b ha hb => ?_⟩
    exact ihn a b hE (hn a b ha hb)
  | first _ _ _ ihl ihr ihn =>
    obtain ⟨A, B, hl, hr, hn, hn'⟩ := h
    exact ⟨A, B, ihl (fun _ => id) hl, ihr (fun _ => id) hr, fun a ha => ihn false a hE (hn a ha),
      fun b hb => ihn true b hE (hn' b hb)⟩

theorem Task.Follows.mono (hok : ∀ c, ok c → ok' c) (hE : ∀ e, E e → E' e)
    {b : Nat} {t : Task H} (h : t.Follows R b ok E) : t.Follows R b ok' E' := by
  induction t generalizing E E' with
  | run | sleeping | watching => exact Program.Follows.mono hok hE h
  | waiting => exact ⟨h.1, fun a ha => (h.2 a ha).mono hok hE⟩
  | both _ _ _ _ ihl ihr =>
    obtain ⟨A, B, hl, hr, hn⟩ := h
    refine ⟨A, B, ihl (fun _ => id) hl, ihr (fun _ => id) hr, fun a b ha hb => ?_⟩
    exact (hn a b ha hb).mono hok hE
  | first _ _ _ _ ihl ihr =>
    obtain ⟨A, B, hl, hr, hn, hn'⟩ := h
    exact ⟨A, B, ihl (fun _ => id) hl, ihr (fun _ => id) hr, fun a ha => (hn a ha).mono hok hE,
      fun b hb => (hn' b hb).mono hok hE⟩

end Mono

/-! Tasks -/

namespace Task

variable {b : Nat} {ok : Scope → Prop} {E : Exit H → Prop} {s s' : Store H} {t t' : Task H}
  {d : Deed H}

/-- How a task may have ended. -/
def Ends (R : Rules H) (E : Exit H → Prop) : Except Panic (Exit H) → Prop
  | .ok e => E e
  | .error p => R.Panics p

theorem Follows.ends (h : t.Follows R b ok E) {o : Except Panic (Exit H)}
    (ho : t.outcome? = some o) : Ends R E o := by
  cases t with
  | run p =>
    cases p <;> cases ho
    · exact h
    · exact h
  | _ => cases ho

theorem Follows.exit (h : t.Follows R b ok E) {e : Exit H} (he : t.exit? = some e) : E e := by
  unfold exit? at he
  split at he
  · rename_i o ho
    cases he
    exact h.ends ho
  · cases he

theorem Follows.panic (h : t.Follows R b ok E) {p : Panic} (hp : t.panic? = some p) :
    R.Panics p := by
  unfold panic? at hp
  split at hp
  · rename_i o ho
    cases hp
    exact h.ends ho
  · cases hp

theorem Follows.base_of_wait (h : t.Follows R b ok E) {w : Wait} (hw : w ∈ t.waits) :
    w.scope.base = b := by
  induction t generalizing E with
  | waiting =>
    rw [waits_waiting, List.mem_singleton] at hw
    rw [hw]
    exact h.1
  | both _ _ _ _ ihl ihr =>
    obtain ⟨A, B, left, right, -⟩ := h
    exact (List.mem_append.1 hw).elim (ihl left) (ihr right)
  | first _ _ _ _ ihl ihr =>
    obtain ⟨A, B, left, right, -⟩ := h
    exact (List.mem_append.1 hw).elim (ihl left) (ihr right)
  | run | sleeping | watching => cases hw

theorem Quiet.follows (h : Quiet s t s' t') (ht : t.Follows R b ok E) (hx : R.state s.user) :
    t'.Follows R b ok E ∧ R.Allows s s' := by
  have same : R.Allows s s := .refl s
  cases h with
  | act =>
    obtain ⟨state, next⟩ := ht s.now s.user hx
    exact ⟨next, fun _ => state, List.Subset.refl _, fun _ hg => .inl hg⟩
  | @fire g next =>
    refine ⟨ht.2, fun hx => ?_, (s.atOnce_fire g).fired, fun f hf => ?_⟩
    · unfold Store.fire
      split <;> exact hx
    · rcases Store.mem_fired_fire hf with old | rfl
      · exact .inl old
      · exact .inr ht.1
  | isFired => exact ⟨ht _, same⟩
  | record => exact ⟨ht, id, List.Subset.refl _, fun _ hg => .inl hg⟩
  | splitBoth | splitFirst => exact ⟨ht, same⟩
  | gather hl hr =>
    obtain ⟨A, B, left, right, next⟩ := ht
    exact ⟨next _ _ (left.exit hl) (right.exit hr), same⟩
  | sleep | watch | wake | notice | idle => exact ⟨ht, same⟩

theorem follows_winner {next : Bool → Exit H → Program H} {A : Exit H → Prop} {side : Bool}
    {o : Except Panic (Exit H)} (ho : Ends R A o)
    (h : ∀ a, A a → (next side a).Follows R ok E) : (winner next side o).Follows R ok E := by
  cases o with
  | ok e => exact h e ho
  | error p => exact ho

/-- A task that keeps to the rules goes on doing so, if its requests are answered, or refused, as
they say. -/
theorem Acts.follows (h : Acts s t d s' t') (ht : t.Follows R b ok E) (hx : R.state s.user)
    (base : ∀ c, ok c → c.base = b)
    (answers : ∀ w o, w.scope.base = b → s.answer? w = some o → R.Answered w.key o)
    (refusals : ∀ via key f, ok via.scope → s.Refused via key f → R.failure f) :
    t'.Follows R b ok E ∧ R.Allows s s' := by
  induction h generalizing E with
  | quiet h => exact h.follows ht hx
  | @begin via key _ w _ h =>
    have rest := s.sameRest_request via key
    rw [h] at rest
    have admitted := Store.request_waiting h
    have served : w.scope.base = via.scope.base := (Store.servingAt_found admitted.serving).1
    refine ⟨⟨served.trans (base _ ht.1), fun a ha => ht.2 a ?_⟩, Rules.allows_of_sameRest rest⟩
    rwa [admitted.key_eq] at ha
  | @refuse via key _ _ _ h =>
    have rest := s.sameRest_request via key
    rw [h] at rest
    refine ⟨ht.2 _ ?_, Rules.allows_of_sameRest rest⟩
    exact refusals via key _ ht.1 (Store.request_refused h).2
  | @answer w _ _ h =>
    exact ⟨ht.2 _ (answers w _ ht.1 h), Rules.allows_of_sameRest (s.sameRest_finishWait w)⟩
  | @panicLeft _ r _ _ _ h =>
    obtain ⟨A, B, left, right, next⟩ := ht
    exact ⟨left.panic h, Rules.allows_of_sameRest (s.sameRest_finishWaits r.waits)⟩
  | @panicRight l _ _ _ _ h =>
    obtain ⟨A, B, left, right, next⟩ := ht
    exact ⟨right.panic h, Rules.allows_of_sameRest (s.sameRest_finishWaits l.waits)⟩
  | @winLeft _ r _ _ _ h =>
    obtain ⟨A, B, left, right, next, next'⟩ := ht
    exact ⟨follows_winner (left.ends h) next,
      Rules.allows_of_sameRest (s.sameRest_finishWaits r.waits)⟩
  | @winRight l _ _ _ _ h =>
    obtain ⟨A, B, left, right, next, next'⟩ := ht
    exact ⟨follows_winner (right.ends h) next',
      Rules.allows_of_sameRest (s.sameRest_finishWaits l.waits)⟩
  | bothLeft _ ih =>
    obtain ⟨A, B, left, right, next⟩ := ht
    obtain ⟨left', allows⟩ := ih left
    exact ⟨⟨A, B, left', right, next⟩, allows⟩
  | bothRight _ ih =>
    obtain ⟨A, B, left, right, next⟩ := ht
    obtain ⟨right', allows⟩ := ih right
    exact ⟨⟨A, B, left, right', next⟩, allows⟩
  | firstLeft _ ih =>
    obtain ⟨A, B, left, right, next, next'⟩ := ht
    obtain ⟨left', allows⟩ := ih left
    exact ⟨⟨A, B, left', right, next, next'⟩, allows⟩
  | firstRight _ ih =>
    obtain ⟨A, B, left, right, next, next'⟩ := ht
    obtain ⟨right', allows⟩ := ih right
    exact ⟨⟨A, B, left, right', next, next'⟩, allows⟩

end Task

end ScopedEffects
