import ScopedEffects.Proofs.Execution.Aborting
import ScopedEffects.Proofs.Execution.Rest

/-! Executions that heed a signal. Outside finalizers all that they do is done under the signal or one
that descends from it: programs and services, the pauses of retries, the branches of combinators. What
tracers do is done under no signal, but takes no time. Spans are the exception, since they wait for
their tracer under no signal either. Whatever moves, this stays so. -/

namespace ScopedEffects

variable {H : Host} {s s' : Store H}

/-! What heeds a signal -/

/-- No source in the node, or in what its closures build, takes the signal into its own hands. Spans
are there only if `spans` says so. -/
inductive Node.Heeding (spans : Prop) : Node H → Prop
  | intro {n} (source : ∀ code, n ≠ .cancellable code)
      (span : ∀ u name attributes, n = .span u name attributes → spans)
      (parts : ∀ m, n.Part m → m.Heeding spans) : Heeding spans n

/-- A program that goes through without waiting for anything. -/
def Program.Immediate : Program H → Prop
  | .done _ | .panic _ => True
  | .act _ next => ∀ now u, (next now u).Immediate
  | .fire _ next | .record _ next => next.Immediate
  | .isFired _ next => ∀ b, (next b).Immediate
  | _ => False

/-- Tracers do nothing that takes time, apart from awaiting the body of their span. -/
structure Tracing.Immediate (H : Host) [Tracing H] : Prop where
  before : ∀ (t : H.Tracer) name attributes, (Tracing.before t name attributes).Immediate
  after : ∀ (t : H.Tracer) name exit, (Tracing.after t name exit).Immediate

def Frame.Heeding (spans : Prop) (f : Frame H) : Prop :=
  (∀ n, f.Enters n → n.Heeding spans) ∧ ∀ u name attributes, f = .acquire u name attributes → spans

theorem Node.Heeding.frame {spans : Prop} {n : Node H} {f : Frame H} (h : n.Heeding spans)
    (hf : f.Of n) : f.Heeding spans := by
  cases h with
  | intro _ span parts =>
    refine ⟨fun m hm => parts m (.frame hf hm), ?_⟩
    rintro u name attributes rfl
    cases hf
    exact span u name attributes rfl

theorem Frame.Heeding.becomes {spans : Prop} {f f' : Frame H} (h : f.Heeding spans)
    (hb : f.Becomes f') : f'.Heeding spans := by
  refine ⟨fun n hn => h.1 n (hb.enters hn), ?_⟩
  rintro u name attributes rfl
  cases hb

namespace Tracing.Immediate

variable [Tracing H]

theorem choice_before (h : Tracing.Immediate H) (t : TracerChoice H) (name : String)
    (attributes : List (String × String)) : (t.before name attributes).Immediate := by
  cases t with
  | standard => trivial
  | custom t => exact h.before t name attributes

theorem choice_after (h : Tracing.Immediate H) (t : TracerChoice H) (name : String)
    (exit : Exit H) : (t.after name exit).Immediate := by
  cases t with
  | standard => trivial
  | custom t => exact h.after t name exit

end Tracing.Immediate

def Crew.Heeding (spans : Prop) : Crew H → Prop
  | .all _ _ pending _ _ => ∀ p ∈ pending, p.2.Heeding spans
  | _ => True

/-- The execution is one of the branches. -/
def Branches.Has (x : Execution H) : Branches H → Prop
  | .nil => False
  | .cons _ e rest => x = e ∨ rest.Has x

theorem Crew.Heeding.absorb {spans : Prop} {c : Crew H} (h : c.Heeding spans) (i : Nat)
    (exit : Exit H) (s : Store H) : (c.absorb i exit s).1.Heeding spans := by
  cases c with
  | all => cases exit <;> exact h
  | any child errors won =>
    cases won with
    | some => trivial
    | none => cases exit <;> trivial
  | race child won => cases won <;> trivial

namespace Branches

variable {b : Branches H} {i : Nat} {x e : Execution H}

theorem has_of_erase (h : (b.erase i).Has x) : b.Has x := by
  induction b with
  | nil => exact h
  | cons j f rest ih =>
    unfold erase at h
    split at h
    · exact .inr h
    · exact h.imp_right ih

theorem has_of_push (h : (b.push i e).Has x) : x = e ∨ b.Has x := by
  induction b with
  | nil => exact h
  | cons j f rest ih =>
    rcases h with rfl | h
    · exact .inr (.inl rfl)
    · exact (ih h).imp_right .inr

theorem has_of_set (h : (b.set i e).Has x) : x = e ∨ b.Has x := by
  induction b with
  | nil => exact h.elim
  | cons j f rest ih =>
    unfold set at h
    split at h
    · exact h.imp_right .inr
    · rcases h with rfl | h
      · exact .inr (.inl rfl)
      · exact (ih h).imp_right .inr

theorem has_of_find? (h : b.find? i = some x) : b.Has x := by
  induction b with
  | nil => cases h
  | cons j f rest ih =>
    rcases find?_cons h with ⟨-, rfl⟩ | h
    · exact .inl rfl
    · exact .inr (ih h)

end Branches

/-- An immediate program leaves an immediate one. -/
theorem Program.Immediate.step {p : Program H} (h : p.Immediate) {policy : Policy} {depth : Nat}
    {t : Task H} (hm : Task.step policy depth (.run p) s = some (t, s')) :
    ∃ q : Program H, t = .run q ∧ q.Immediate := by
  cases p with
  | act => cases hm; exact ⟨_, rfl, h _ _⟩
  | fire | record => cases hm; exact ⟨_, rfl, h⟩
  | isFired => cases hm; exact ⟨_, rfl, h _⟩
  | done | panic => cases hm
  | _ => exact h.elim

namespace Execution

/-- All that is under way, the effects of finalizers apart, runs under a signal that descends from
`g`. -/
inductive Heeds (spans : Prop) (g : Signal) : Execution H → Prop
  | enter {n env} (hn : n.Heeding spans) (h : env.signal.descendsFrom g = true) :
      Heeds spans g (.enter n env)
  | task {c t} (h : c.descendsFrom g = true) : Heeds spans g (.task (.signal c) t)
  | tracer {p} (h : p.Immediate) : Heeds spans g (.task .bare (.run p))
  | pause {till env n policy attempt} (hn : n.Heeding spans)
      (h : env.signal.descendsFrom g = true) : Heeds spans g (.pause till env n policy attempt)
  | frame {env f above} (hf : f.Heeding spans) (h : env.signal.descendsFrom g = true)
      (ha : Heeds spans g above) : Heeds spans g (.frame env f above)
  | ensured {env exit above} : Heeds spans g (.frame env (.ensured exit) above)
  | acquire {env n name attributes t} (hf : (Frame.acquire n name attributes).Heeding spans)
      (h : env.signal.descendsFrom g = true) :
      Heeds spans g (.frame env (.acquire n name attributes) (.task .bare t))
  | crew {env c round b} (h : env.signal.descendsFrom g = true) (hc : c.Heeding spans)
      (hb : ∀ x, b.Has x → Heeds spans g x) : Heeds spans g (.crew env c round b)
  | settled {exit} : Heeds spans g (.settled exit)
  | unwound {p} : Heeds spans g (.unwound p)

variable {spans : Prop} {g : Signal} {env : Env} {n : Node H} {e e' : Execution H}
  {policy : Policy} {depth : Nat}

/-! Entering nodes and going on with steps -/

theorem Heeds.source {x : Execution H × Store H} (h : x.1.Heeds spans g) :
    (source env s x).1.Heeds spans g := by
  rcases source_cases env s x with hs | hs
  · rw [hs]
    exact .settled
  · rwa [hs]

theorem Heeds.build {α : Type} {code : Code H α} {next : α → Execution H}
    (h : ∀ a now u, (code now u).answer = .ok a → (next a).Heeds spans g) :
    (build s code next).1.Heeds spans g := by
  rcases build_answers s code next with ⟨p, hb⟩ | ⟨a, now, u, answer, hb⟩
  · rw [hb]
    exact .settled
  · rw [hb]
    exact h a now u answer

theorem heeds_ofNodes {nodes : List (Node H)} (hn : ∀ n ∈ nodes, n.Heeding spans)
    (h : env.signal.descendsFrom g = true) (k : Nat) {x : Execution H}
    (hx : (Branches.ofNodes env k nodes).Has x) : x.Heeds spans g := by
  induction nodes generalizing k with
  | nil => exact hx.elim
  | cons n rest ih =>
    rcases hx with rfl | hx
    · exact .enter (hn n List.mem_cons_self) h
    · exact ih (fun m hm => hn m (List.mem_cons_of_mem n hm)) (k + 1) hx

theorem heeds_start (hn : n.Heeding spans) (h : env.signal.descendsFrom g = true) (s : Store H) :
    (start env s n).1.Heeds spans g := by
  have part : ∀ m, n.Part m → m.Heeding spans := by
    cases hn with
    | intro _ _ parts => exact parts
  have inner : ∀ {f m}, f.Of n → m ∈ n.inner → (frame env f (enter m env)).Heeds spans g :=
    fun hf hm => .frame (hn.frame hf) h (.enter (part _ (.inner hm)) h)
  -- what is lost or late is cancelled by a signal of its own
  have child : (env.signal.child s.signals.next).descendsFrom g = true :=
    Signal.descendsFrom_trans (Signal.descendsFrom_child ..) h
  cases n with
  | sync => exact .source (.build fun _ _ _ _ => .settled)
  | program => exact .source (.build fun _ _ _ _ => .task h)
  | cancellable code =>
    cases hn with
    | intro source => exact absurd rfl (source code)
  | suspend => exact .source (.build fun m _ _ answer => .enter (part m (.suspend answer)) h)
  | service => exact .source (.task h)
  | all cap collect nodes =>
    refine .source (.crew h (fun p hp => ?_) fun _ hx => hx.elim)
    obtain ⟨⟨m, i⟩, listed, rfl⟩ := List.mem_map.1 hp
    exact part m (.inner (List.fst_mem_of_mem_zipIdx listed))
  | any nodes | race nodes =>
    exact .source (.crew h trivial fun x hx =>
      heeds_ofNodes (fun m hm => part m (.inner hm)) child 0 hx)
  | map => exact inner .map List.mem_cons_self
  | withService => exact inner .withService List.mem_cons_self
  | recover => exact inner .recover List.mem_cons_self
  | tap => exact inner .tap List.mem_cons_self
  | tapError => exact inner .tapError List.mem_cons_self
  | ensuring => exact inner .ensuring List.mem_cons_self
  | timeout => exact .frame (hn.frame .timeout) h (.enter (part _ (.inner List.mem_cons_self)) child)
  | retry => exact inner .retry List.mem_cons_self
  | provide => exact .enter (part _ .provide) h
  | span => exact .acquire (hn.frame .acquire) h

variable [Tracing H]

omit [Tracing H] in
theorem heeds_concludeFinalizer (exit cleanup : Exit H) (s : Store H) :
    (concludeFinalizer exit cleanup s).1.Heeds spans g := by
  unfold concludeFinalizer
  split <;> exact .settled

theorem heeds_resume (tracers : Tracing.Immediate H) {f : Frame H} (hf : f.Heeding spans)
    (h : env.signal.descendsFrom g = true) (exit : Exit H) (s : Store H) :
    (f.resume env exit s).1.Heeds spans g := by
  have entered : ∀ {n}, f.Enters n → (enter n env).Heeds spans g := fun hn => .enter (hf.1 _ hn) h
  have frames : ∀ {f' n}, f.Becomes f' → f.Enters n →
      (frame env f' (enter n env)).Heeds spans g := fun hb hn =>
    .frame (hf.becomes hb) h (entered hn)
  cases f with
  | map code =>
    cases exit with
    | ok v =>
      refine .build fun next now u answer => ?_
      cases next with
      | value | fail => exact .settled
      | program => exact .task h
      | effect n => exact entered (.map answer)
    | error => exact .settled
  | withService =>
    cases exit with
    | ok v =>
      unfold Frame.resume
      dsimp only
      split
      · exact .task h
      · exact .settled
    | error => exact .settled
  | recover code =>
    cases exit with
    | ok => exact .settled
    | error f =>
      unfold Frame.resume
      dsimp only
      split
      · exact .settled
      · refine .build fun next now u answer => ?_
        cases next with
        | none => exact .settled
        | some n => exact entered (.recover answer)
  | tap code =>
    cases exit with
    | ok v =>
      refine .build fun next now u answer => ?_
      cases next with
      | ok n => exact frames .tapped (.tap answer)
      | error => exact .settled
    | error => exact .settled
  | tapError code =>
    cases exit with
    | ok => exact .settled
    | error f => exact .build fun n now u answer => frames .tapErrored (.tapError answer)
  | tapped | tapErrored => cases exit <;> exact .settled
  | ensuring code =>
    unfold Frame.resume
    dsimp only
    split
    · exact .ensured
    · exact heeds_concludeFinalizer ..
  | ensured => exact heeds_concludeFinalizer ..
  | timeout => exact .settled
  | draining after fallback =>
    cases fallback with
    | none => exact .settled
    | some n => exact entered .draining
  | retry inner policy attempt =>
    cases exit with
    | ok => exact .settled
    | error f =>
      rw [Frame.resume]
      have goes := retries env inner policy attempt f s
      generalize retryAfter env inner policy attempt f s = x at goes ⊢
      cases goes with
      | exhausted | declines => exact .settled
      | asking | drawing => exact .unwound
      | again more => exact frames (.retry more) .retry
      | pauses => exact .pause (hf.1 _ .retry) h
  | acquire n name attributes =>
    unfold Frame.resume
    dsimp only
    split
    · exact .frame (hf.becomes .entered) h (.tracer (tracers.choice_before _ name attributes))
    · exact .settled
  | entered =>
    cases exit with
    | ok => exact frames .body .entered
    | error => exact .settled
  | body tracer name => exact .tracer (tracers.choice_after tracer name exit)

/-! Moves -/

omit [Tracing H] in
theorem heeds_moveTask {c : Signal} {t : Task H} (hc : c.descendsFrom g = true)
    (hm : moveTask policy depth s (.signal c) t = some (e', s')) : e'.Heeds spans g := by
  cases moveTask_moves hm with
  | settles | catches | aborts => exact .settled
  | unwinds _ bare => cases bare
  | steps => exact .task hc

omit [Tracing H] in
theorem heeds_moveTracer {p : Program H} (hp : p.Immediate)
    (hm : moveTask policy depth s .bare (.run p) = some (e', s')) : e'.Heeds spans g := by
  cases moveTask_moves hm with
  | settles | catches | aborts => exact .settled
  | unwinds => exact .unwound
  | steps _ step =>
    obtain ⟨q, rfl, hq⟩ := hp.step step
    exact .tracer hq

omit [Tracing H] in
theorem moveTask_bare {t : Task H} (hm : moveTask policy depth s .bare t = some (e', s')) :
    (∃ t', e' = .task .bare t') ∨ e'.ended = true := by
  cases moveTask_moves hm with
  | steps => exact .inl ⟨_, rfl⟩
  | _ => exact .inr rfl

omit [Tracing H] in
theorem Heeds.of_ended (h : e.ended = true) : e.Heeds spans g := by
  cases e with
  | settled => exact .settled
  | unwound => exact .unwound
  | _ => cases h

omit [Tracing H] in
theorem heeds_moveCrew {c : Crew H} {round : Round} {b : Branches H}
    (h : env.signal.descendsFrom g = true) (hc : c.Heeding spans)
    (hb : ∀ x, b.Has x → x.Heeds spans g) (hm : moveCrew s env c round b = some (e', s')) :
    e'.Heeds spans g := by
  cases moveCrew_housekept hm with
  | panics | concludes => exact .settled
  | absorbs => exact .crew h (hc.absorb _ _ s) fun x hx => hb x (Branches.has_of_erase hx)
  | admits _ _ hn =>
    obtain ⟨cap, collect, pending, values, rfl, rfl⟩ := Crew.next?_some hn
    refine .crew h (fun p hp => hc p (List.mem_cons_of_mem _ hp)) fun x hx => ?_
    rcases Branches.has_of_push hx with rfl | hx
    · exact .enter (hc _ List.mem_cons_self) h
    · exact hb x hx

/-- Whatever moves, the signal is heeded as before. -/
theorem Heeds.move (tracers : Tracing.Immediate H) (h : e.Heeds spans g)
    (hm : e.move policy depth s = some (e', s')) : e'.Heeds spans g := by
  induction e generalizing policy depth e' s' with
  | enter n env =>
    cases h with
    | enter hn h =>
      rw [Execution.move] at hm
      have started := heeds_start hn h s
      rw [Option.some.inj hm] at started
      exact started
  | task guard t =>
    rw [Execution.move] at hm
    cases h with
    | task hc => exact heeds_moveTask hc hm
    | tracer hp => exact heeds_moveTracer hp hm
  | pause till env n p attempt =>
    cases h with
    | pause hn h =>
      rw [Execution.move] at hm
      split at hm
      · cases hm
        exact .settled
      · split at hm
        · cases hm
          have retry : (Frame.retry n p attempt).Heeding spans := by
            refine ⟨fun m hm => ?_, fun _ _ _ he => ?_⟩
            · cases hm
              exact hn
            · cases he
          exact .frame retry h (.enter hn h)
        · cases hm
  | frame env f above ih =>
    cases move_frame hm with
    | @resumes exit settled =>
      cases h with
      | frame hf h => exact heeds_resume tracers hf h exit s
      | ensured => exact heeds_concludeFinalizer ..
      | acquire => cases settled
    | passes => exact .unwound
    | @moves _ _ above' _ _ moved =>
      cases h with
      | frame hf h ha => exact .frame hf h (ih ha moved)
      | ensured => exact .ensured
      | acquire hf h =>
        -- the tracer takes its time, and what it settles with the frame goes on with
        rw [Execution.move] at moved
        rcases moveTask_bare moved with ⟨t', rfl⟩ | ended
        · exact .acquire hf h
        · exact .frame hf h (Heeds.of_ended ended)
    | @expires deadline after child fallback _ _ _ timeout =>
      subst timeout
      cases h with
      | frame hf h ha => exact .frame (hf.becomes .draining) h ha
  | crew env c round b ih =>
    cases h with
    | crew h hc hb =>
      rcases move_crew_cases hm with kept | ⟨-, i, x, x', line, _, found, hx, rfl⟩
      · exact heeds_moveCrew h hc hb kept
      · refine .crew h hc fun y hy => ?_
        rcases Branches.has_of_set hy with rfl | hy
        · exact ih i x found (hb x (Branches.has_of_find? found)) hx
        · exact hb y hy
  | settled => rw [Execution.move] at hm; cases hm
  | unwound => rw [Execution.move] at hm; cases hm

end Execution

end ScopedEffects
