import ScopedEffects.Proofs.Execution.Finalizers
import ScopedEffects.Runner

/-! Panics of user code. Wherever a step calls user code, but for the predicates and delays of retries
and for tracers, a panic is caught where it was called: the step fails with it, and what waits for
the step goes on as after any other failure. The places that let a panic out are exactly those
exceptions, and it goes on from there through every step, up to the next combinator or out of the
run. -/

namespace ScopedEffects

variable {H : Host}

namespace Execution

/-! Panics that are caught -/

/-- The part calls user code with its next move, and the code panics with `p`. The part settles with
`exit`, and leaves the store behind as it is then. -/
inductive Panics (s : Store H) (p : Panic) : Execution H → Exit H → Store H → Prop
  | sync {code env s'} (live : s.isFired env.signal = false) (h : s.perform code = (.error p, s')) :
      Panics s p (.enter (.sync code) env) (.error (.ofPanic p)) s'
  | program {code env s'} (live : s.isFired env.signal = false)
      (h : s.perform code = (.error p, s')) :
      Panics s p (.enter (.program code) env) (.error (.ofPanic p)) s'
  | cancellable {code env s'} (live : s.isFired env.signal = false)
      (h : s.perform (code env.signal) = (.error p, s')) :
      Panics s p (.enter (.cancellable code) env) (.error (.ofPanic p)) s'
  | suspend {code env s'} (live : s.isFired env.signal = false)
      (h : s.perform code = (.error p, s')) :
      Panics s p (.enter (.suspend code) env) (.error (.ofPanic p)) s'
  | task {guard t} (caught : guard ≠ .bare) (h : t.outcome? = some (.error p)) :
      Panics s p (.task guard t) (.error (.ofPanic p)) s
  | map {code env v s'} (h : s.perform (code v) = (.error p, s')) :
      Panics s p (.frame env (.map code) (.settled (.ok v))) (.error (.ofPanic p)) s'
  | recover {code env f s'} (hf : f.isDefect = false) (h : s.perform (code f) = (.error p, s')) :
      Panics s p (.frame env (.recover code) (.settled (.error f))) (.error (.ofPanic p)) s'
  | tap {code env v s'} (h : s.perform (code v) = (.error p, s')) :
      Panics s p (.frame env (.tap code) (.settled (.ok v))) (.error (.ofPanic p)) s'
  | tapError {code env f s'} (h : s.perform (code f) = (.error p, s')) :
      Panics s p (.frame env (.tapError code) (.settled (.error f))) (.error (.ofPanic p)) s'
  | ensuring {code env exit s'} (h : s.newSignal.2.perform code = (.error p, s')) :
      Panics s p (.frame env (.ensuring code) (.settled exit))
        (finallyExit exit (.error (.ofPanic p)))
        (concludeFinalizer exit (.error (.ofPanic p)) s').2

/-! Panics that are let out -/

/-- The part lets a panic out with its next move. -/
inductive Unwinds (s : Store H) (p : Panic) : Execution H → Store H → Prop
  | predicate {env inner policy attempt f s'} (more : attempt < policy.times)
      (h : s.perform (policy.accepts f) = (.error p, s')) :
      Unwinds s p (.frame env (.retry inner policy attempt) (.settled (.error f))) s'
  | delay {env inner policy attempt f s₁} (more : attempt < policy.times)
      (h : s.perform (policy.accepts f) = (.ok true, s₁))
      (spread : policy.nextDelay (attempt + 1) (s₁.draw policy).1 = .error p) :
      Unwinds s p (.frame env (.retry inner policy attempt) (.settled (.error f)))
        (s₁.draw policy).2
  | tracer {t} (h : t.outcome? = some (.error p)) : Unwinds s p (.task .bare t) s
  | passes {env f} : Unwinds s p (.frame env f (.unwound p)) s

variable {s s' : Store H} {p : Panic} {x x' : Execution H} {exit : Exit H} {env : Env}

theorem build_of_panic {α : Type} {code : Code H α} (h : s.perform code = (.error p, s'))
    (next : α → Execution H) : build s code next = (ofPanic p, s') := by
  unfold build
  rw [h]

theorem source_of_live (h : s.isFired env.signal = false) (start : Execution H × Store H) :
    source env s start = start := by
  unfold source
  rw [h]
  rfl

theorem panic?_source {start : Execution H × Store H} (h : start.1.panic? = none) :
    (source env s start).1.panic? = none := by
  unfold source
  split
  · rfl
  · exact h

theorem panic?_build {α : Type} {code : Code H α} {next : α → Execution H}
    (h : ∀ a, (next a).panic? = none) : (build s code next).1.panic? = none := by
  unfold build
  split
  · exact h _
  · rfl

/-- No node begins with a panic on its way out. -/
theorem panic?_start (env : Env) (s : Store H) (n : Node H) : (start env s n).1.panic? = none := by
  cases n with
  | sync | program | cancellable | suspend => exact panic?_source (panic?_build fun _ => rfl)
  | service | all | any | race => exact panic?_source rfl
  | _ => rfl

theorem unwinds_of_retryAfter {inner : Node H} {policy : RetryPolicy H} {attempt : Nat}
    {f : Failure H} (h : retryAfter env inner policy attempt f s = (.unwound p, s')) :
    Unwinds s p (.frame env (.retry inner policy attempt) (.settled (.error f))) s' := by
  have goes := retries env inner policy attempt f s
  rw [h] at goes
  cases goes with
  | asking more asked => exact .predicate more asked
  | drawing more asked spread => exact .delay more asked spread

theorem panic?_next (env : Env) (next : Next H (Node H)) : (next.execution env).panic? = none := by
  cases next <;> rfl

variable [Tracing H]

/-- A step that goes on lets no panic out, but for a retry. -/
theorem unwinds_of_resume {f : Frame H} (h : f.resume env exit s = (.unwound p, s')) :
    Unwinds s p (.frame env f (.settled exit)) s' := by
  have calm : (f.resume env exit s).1.panic? = some p := by rw [h]; rfl
  -- the other steps go on with what can be seen to be no panic on its way out
  have never {α : Type} {code : Code H α} {next : α → Execution H}
      (hn : ∀ a, (next a).panic? = none) (hb : (build s code next).1.panic? = some p) : False := by
    rw [panic?_build hn] at hb
    cases hb
  cases f with
  | map code =>
    cases exit with
    | ok v => exact (never (panic?_next env) calm).elim
    | error => cases calm
  | withService t pair =>
    unfold Frame.resume at calm
    dsimp only at calm
    split at calm
    · split at calm <;> cases calm
    · cases calm
  | recover code =>
    cases exit with
    | ok => cases calm
    | error f =>
      unfold Frame.resume at calm
      dsimp only at calm
      split at calm
      · cases calm
      · refine (never (fun n => ?_) calm).elim
        cases n <;> rfl
  | tap code =>
    cases exit with
    | ok v =>
      refine (never (fun n => ?_) calm).elim
      cases n <;> rfl
    | error => cases calm
  | tapped => cases exit <;> cases calm
  | tapError code =>
    cases exit with
    | ok => cases calm
    | error f => exact (never (fun _ => rfl) calm).elim
  | tapErrored => cases exit <;> cases calm
  | ensuring code =>
    unfold Frame.resume at calm
    dsimp only at calm
    split at calm
    · cases calm
    · rw [concludeFinalizer_eq] at calm
      cases calm
  | ensured first =>
    have calm : (concludeFinalizer first exit s).1.panic? = some p := calm
    rw [concludeFinalizer_eq] at calm
    cases calm
  | timeout => cases calm
  | draining after fallback => cases fallback <;> cases calm
  | retry inner policy attempt =>
    cases exit with
    | ok => cases calm
    | error f => exact unwinds_of_retryAfter h
  | acquire =>
    unfold Frame.resume at calm
    dsimp only at calm
    split at calm <;> cases calm
  | entered => cases exit <;> cases calm
  | body => cases calm

variable {policy : Policy} {depth : Nat}

/-- A panic of user code that is caught is how the part settles. -/
theorem Panics.move (h : x.Panics s p exit s') (policy : Policy) (depth : Nat) :
    x.move policy depth s = some (.settled exit, s') := by
  cases h with
  | sync live h | program live h | cancellable live h | suspend live h =>
    rw [Execution.move, start, source_of_live live, build_of_panic h]
    rfl
  | task caught h =>
    rw [Execution.move]
    unfold moveTask
    simp only [h]
    rfl
  | map h =>
    rw [Execution.move]
    exact congrArg some (build_of_panic h _)
  | recover hf h =>
    rw [Execution.move]
    dsimp only [exit?, Frame.resume]
    rw [hf, if_neg Bool.false_ne_true]
    exact congrArg some (build_of_panic h _)
  | tap h =>
    rw [Execution.move]
    exact congrArg some (build_of_panic h _)
  | tapError h =>
    rw [Execution.move]
    exact congrArg some (build_of_panic h _)
  | @ensuring code env upstream s₁ h =>
    rw [Execution.move]
    dsimp only [exit?, Frame.resume]
    rw [h, ← concludeFinalizer_eq upstream _ s₁]

/-- Panics are let out by retries that are asked and by tracers, and nowhere else. -/
theorem unwinds_iff : x.move policy depth s = some (.unwound p, s') ↔ x.Unwinds s p s' := by
  constructor
  · intro h
    cases x with
    | enter n env =>
      rw [Execution.move] at h
      have none := panic?_start env s n
      rw [Option.some.inj h] at none
      cases none
    | task guard t =>
      rw [Execution.move] at h
      cases moveTask_moves h with
      | unwinds ho bare =>
        cases bare
        exact .tracer ho
    | pause =>
      rw [Execution.move] at h
      split at h
      · cases h
      · split at h <;> cases h
    | frame env f above =>
      generalize hx : Execution.unwound p = x' at h
      cases move_frame h with
      | resumes settled =>
        subst settled
        exact unwinds_of_resume (Prod.ext hx.symm rfl)
      | passes unwound =>
        subst unwound
        cases hx
        exact .passes
      | moves | expires => cases hx
    | crew env c round b =>
      rw [Execution.move] at h
      split at h
      · rename_i moved hm
        cases h
        unfold moveCrew at hm
        split at hm
        · cases hm
        · cases hm
        · cases hm
        · split at hm <;> cases hm
      · dsimp only at h
        split at h
        · cases h
        · obtain ⟨_, -, he⟩ := Option.map_eq_some_iff.1 h
          cases he
    | settled => rw [Execution.move] at h; cases h
    | unwound => rw [Execution.move] at h; cases h
  · intro h
    cases h with
    | predicate more h =>
      rw [Execution.move]
      simp [exit?, Frame.resume, retryAfter, Nat.not_le_of_lt more, h]
    | delay more h spread =>
      rw [Execution.move]
      simp [exit?, Frame.resume, retryAfter, Nat.not_le_of_lt more, h, spread]
    | tracer h =>
      rw [Execution.move]
      simp [moveTask, h]
    | passes => rw [Execution.move]; rfl

end Execution

/-! Factories that panic -/

namespace Store

variable {s : Store H} {w : Wait} {t : Task H} {p : Panic}

/-- Whoever drives a factory that has panicked makes a failure of the panic, for all who wait. -/
theorem moveSlot_of_panic {busy : List Place} (policy : Policy) (fuel depth : Nat)
    (ht : s.slot? w.scope w.key = some (.running t)) (ho : t.outcome? = some (.error p))
    (hb : w.place ∉ busy) :
    s.moveSlot (fuel + 1) busy policy depth w =
      some (s.setSlot w.scope w.key (.settled (.error (.ofPanic p)))) := by
  unfold moveSlot
  have free : busy.contains w.place = false := by simpa using hb
  simp only [free, Bool.false_eq_true, if_false, ht, ho]
  rfl

theorem answer?_setSlot {x : Slot H} (hx : s.slot? w.scope w.key = some x)
    (o : Except (Failure H) (AnyInstance H)) :
    (s.setSlot w.scope w.key (.settled o)).answer? w = some o := by
  have here := slot?_setSlot_self (p := w.place) hx (.settled o)
  have here : (s.setSlot w.scope w.key (.settled o)).slot? w.scope w.key = some (.settled o) := here
  simp [answer?, here]

end Store

/-! Stories and runs -/

namespace Story

variable [Tracing H] {r : Story H} {node : Node H} {env : Env} {α : List Hop} {t : Nat}
  {x : Execution H}

theorem Launched.not_unwound (h : r.Launched node env) (steady : r.Steady) (ht : t ≤ r.last)
    (p : Panic) : r.part? α t ≠ some (.unwound p) := fun hx => (h.sound steady ht).at? hx

/-- What has begun settles before the story ends, and is never dropped. -/
theorem Launched.settles_later (h : r.Launched node env) (steady : r.Steady)
    (ended : (r.state r.last).execution.ended = true) (ht : t ≤ r.last)
    (hx : r.part? α t = some x) (hn : x.ended = false) :
    ∃ u exit, t < u ∧ u ≤ r.last ∧ r.part? α u = some (.settled exit) := by
  obtain ⟨left, hl⟩ := Nat.exists_eq_add_of_le ht
  induction left using Nat.strong_induction_on generalizing t x with
  | _ left ih =>
    obtain ⟨j, htj, hj, -, -, -, x', -, later⟩ := h.moves_later steady ended ht hx hn
    cases hx' : x'.ended with
    | false =>
      obtain ⟨u, exit, hju, hu, settled⟩ := ih (r.last - (j + 1)) (by omega) hj later hx' (by omega)
      exact ⟨u, exit, by omega, hu, settled⟩
    | true =>
      cases x' with
      | settled exit => exact ⟨j + 1, exit, by omega, hj, later⟩
      | unwound p => exact absurd later (h.not_unwound steady hj p)
      | _ => cases hx'

/-- A step goes on once what is above it has settled. -/
theorem Launched.resumes_later (h : r.Launched node env) (steady : r.Steady)
    (ended : (r.state r.last).execution.ended = true) {envf : Env} {f : Frame H} {exit : Exit H}
    (ht : t ≤ r.last) (hx : r.part? α t = some (.frame envf f (.settled exit))) :
    ∃ u, t ≤ u ∧ u < r.last ∧
      (∀ v, t ≤ v → v ≤ u → r.part? α v = some (.frame envf f (.settled exit))) ∧
      r.part? α (u + 1) = some (f.resume envf exit (r.state u).store).1 ∧
      (r.state (u + 1)).store = (f.resume envf exit (r.state u).store).2 := by
  obtain ⟨u, htu, hu, stays, policy, depth, x', moved, later⟩ :=
    h.moves_later steady ended ht hx rfl
  rw [Execution.move] at moved
  have resumed : f.resume envf exit (r.state u).store = (x', (r.state (u + 1)).store) :=
    Option.some.inj moved
  exact ⟨u, htu, hu, stays, by rw [resumed, later], by rw [resumed]⟩

/-- A story of the machine that a runner starts. -/
theorem launched_of_launch {a : Shape H.Plain} {runner : Runner H} {e : Effect H a}
    {signal : Signal} {s s' : Store H} {scope : Scope} {alarms : List Alarm}
    (hl : runner.launch e signal s = (.ok x, scope, s')) (issued : signal.Issued s)
    (fired : ∀ g ∈ s.fired, g.Issued s) (alarmed : ∀ a ∈ alarms, a.signal.Issued s)
    (hr : r.state 0 = Machine.ring ⟨s', x, alarms⟩) :
    r.Launched (runner.withDeadline e).node
      ⟨scope, signal, runner.settings.defaultConcurrency⟩ := by
  unfold Runner.launch at hl
  dsimp only at hl
  split at hl
  · cases hl
    have same : ∀ g : Signal, g.Issued s → g.Issued (r.state 0).store := by
      intro g hg
      refine ⟨hg.1, fun n hn => ?_⟩
      rw [hr, Machine.ring, Store.signals_fireAll]
      exact hg.2 n hn
    refine ⟨by rw [hr]; rfl, same _ issued, fun g hg => same g ?_, fun a ha => same _ ?_⟩
    · rw [hr] at hg
      rcases Store.mem_fired_fireAll hg with old | rung
      · exact fired g old
      · obtain ⟨a, ha, rfl⟩ := List.mem_map.1 rung
        exact alarmed a (List.mem_of_mem_filter ha)
    · rw [hr] at ha
      exact alarmed a (List.mem_of_mem_filter ha)
  · cases hl

/-- No panic comes out of a run in which no retry and no tracer panics. -/
theorem run_ne_panic {a : Shape H.Plain} (runner : Runner H) (e : Effect H a) (signal : Signal)
    (alarms : List Alarm) (s : Store H) (issued : signal.Issued s)
    (fired : ∀ g ∈ s.fired, g.Issued s) (alarmed : ∀ a ∈ alarms, a.signal.Issued s)
    (steady : ∀ x scope s', runner.launch e signal s = (.ok x, scope, s') →
      ∀ r : Story H, r.state 0 = Machine.ring ⟨s', x, alarms⟩ → r.Steady)
    (schedule : Schedule) (horizon : Clock) (fuel : Nat) (p : Panic) :
    (runner.run schedule horizon fuel e signal alarms s).1 ≠ some (.error p) := by
  unfold Runner.run
  rcases hl : runner.launch e signal s with ⟨f | x, scope, s'⟩
  · intro h
    cases h
  · dsimp only
    rcases hm : Machine.run schedule horizon fuel (Machine.ring ⟨s', x, alarms⟩) with ⟨ending, m⟩
    obtain ⟨r, first, last⟩ := exists_of_run hm
    have launched := launched_of_launch hl issued fired alarmed first
    have calm := launched.not_unwound (α := []) (steady x scope s' hl r first) (Nat.le_refl _)
    dsimp only
    split
    · intro h
      cases h
    · rename_i q hq
      have here : r.part? [] r.last = some (.unwound q) := by
        rw [part?, last, hq]
        rfl
      exact absurd here (calm q)
    · intro h
      cases h

/-- In a run in which no retry and no tracer panics, all other panics of user code are failures: each
is how the step settles that made the call, steps with handlers and finalizers go on with it as with
any failure that is no defect, nothing else that has begun is dropped, and the run has a result. A
factory that panics fails for all who request its key. The panics left out are let out, past every
step, by the one retry or tracer that makes the call. -/
theorem caught_panic_fails_its_step (r : Story H) (node : Node H) (env : Env)
    (launched : r.Launched node env) (steady : r.Steady)
    (ended : (r.state r.last).execution.ended = true) :
    (∃ exit, (r.state r.last).execution = .settled exit) ∧
    (∀ t α x p exit s, t < r.last → r.part? α t = some x → x.Panics (r.state t).store p exit s →
      r.part? α (t + 1) = some x ∨
        r.part? α (t + 1) = some (.settled exit) ∧ (r.state (t + 1)).store = s) ∧
    (∀ t α x, t ≤ r.last → r.part? α t = some x → x.ended = false →
      ∃ u exit, t < u ∧ u ≤ r.last ∧ r.part? α u = some (.settled exit)) ∧
    (∀ t α envf f exit, t ≤ r.last → r.part? α t = some (.frame envf f (.settled exit)) →
      ∃ u, t ≤ u ∧ u < r.last ∧
        (∀ v, t ≤ v → v ≤ u → r.part? α v = some (.frame envf f (.settled exit))) ∧
        r.part? α (u + 1) = some (f.resume envf exit (r.state u).store).1 ∧
        (r.state (u + 1)).store = (f.resume envf exit (r.state u).store).2) ∧
    (∀ (envf : Env) p (s : Store H),
      (∀ code, (Frame.recover code).resume envf (.error (.ofPanic p)) s =
        Execution.build s (code (.ofPanic p)) fun
          | some n => .enter n envf
          | none => .settled (.error (.ofPanic p))) ∧
      (∀ code, (Frame.tapError code).resume envf (.error (.ofPanic p)) s =
        Execution.build s (code (.ofPanic p)) fun n =>
          .frame envf (.tapErrored (.ofPanic p)) (.enter n envf)) ∧
      ∀ code fin s', s.newSignal.2.perform code = (.ok fin, s') →
        (Frame.ensuring code).resume envf (.error (.ofPanic p)) s =
          (.frame (envf.detached s) (.ensured (.error (.ofPanic p)))
            (.enter fin (envf.detached s)), s')) ∧
    (∀ (s : Store H) (w : Wait) (t : Task H) p, s.slot? w.scope w.key = some (.running t) →
      t.outcome? = some (.error p) → ∃ s', s'.answer? w = some (.error (.ofPanic p)) ∧
        ∀ policy fuel busy depth, w.place ∉ busy →
          s.moveSlot (fuel + 1) busy policy depth w = some s') ∧
    (∀ {a : Shape H.Plain} (runner : Runner H) (e : Effect H a) signal alarms s,
      signal.Issued s → (∀ g ∈ s.fired, g.Issued s) → (∀ a ∈ alarms, a.signal.Issued s) →
      (∀ x scope s', runner.launch e signal s = (.ok x, scope, s') →
        ∀ r : Story H, r.state 0 = Machine.ring ⟨s', x, alarms⟩ → r.Steady) →
      ∀ schedule horizon fuel p,
        (runner.run schedule horizon fuel e signal alarms s).1 ≠ some (.error p)) ∧
    (∀ policy depth (x : Execution H) p s s',
      x.move policy depth s = some (.unwound p, s') ↔ x.Unwinds s p s') ∧
    ∀ policy depth (envc : Env) (c : Crew H) round (b : Branches H) p s, b.panic? = some p →
      (Execution.crew envc c round b).move policy depth s =
        some (.settled (.error (.ofPanic p)), b.drop s) := by
  refine ⟨?_, ?_, ?_, ?_, ?_, ?_, ?_, ?_, ?_⟩
  · have calm := launched.not_unwound (α := []) steady (Nat.le_refl _)
    cases hx : (r.state r.last).execution with
    | settled exit => exact ⟨exit, rfl⟩
    | unwound p =>
      have here : r.part? [] r.last = some (.unwound p) := by
        rw [part?, hx]
        rfl
      exact absurd here (calm p)
    | _ => rw [hx] at ended; cases ended
  · intro t α x p exit s ht hx panics
    have moves := panics.move
    have under_way : x.ended = false := by cases panics <;> rfl
    rcases launched.follow steady ht hx under_way with same | ⟨policy, depth, x', moved, later⟩
    · exact .inl same
    · rw [moves policy depth] at moved
      cases moved
      exact .inr ⟨later, rfl⟩
  · intro t α x ht hx hn
    exact launched.settles_later steady ended ht hx hn
  · intro t α envf f exit ht hx
    exact launched.resumes_later steady ended ht hx
  · intro envf p s
    refine ⟨fun code => rfl, fun code => rfl, fun code fin s' h => ?_⟩
    simp only [Frame.resume]
    rw [h]
    rfl
  · intro s w t p ht ho
    refine ⟨_, Store.answer?_setSlot ht _, fun policy fuel busy depth hb => ?_⟩
    exact Store.moveSlot_of_panic policy fuel depth ht ho hb
  · intro a runner e signal alarms s issued fired alarmed steady schedule horizon fuel p
    exact run_ne_panic runner e signal alarms s issued fired alarmed steady schedule horizon fuel p
  · intro policy depth x p s s'
    exact Execution.unwinds_iff
  · intro policy depth envc c round b p s hp
    rw [Execution.move]
    simp only [Execution.moveCrew, hp]
    rfl

/-! A source that panics below a finalizer -/

def boom : Panic := .text "boom"

def exploding : Node Host.counting := .sync (Code.panic boom)

def exploded : Exit Host.counting := .error (.ofPanic boom)

def explodingStory : Story Host.counting where
  state
    | 0 => ⟨guardedStore 1, .enter (.ensuring exploding (Code.pure cleaning)) guardedEnv, []⟩
    | 1 => ⟨guardedStore 1,
        .frame guardedEnv (.ensuring (Code.pure cleaning)) (.enter exploding guardedEnv), []⟩
    | 2 => ⟨guardedStore 1,
        .frame guardedEnv (.ensuring (Code.pure cleaning)) (.settled exploded), []⟩
    | 3 => ⟨guardedStore 2, .frame cleaningEnv (.ensured exploded) (.enter cleaning cleaningEnv), []⟩
    | 4 => ⟨guardedStore 2,
        .frame cleaningEnv (.ensured exploded) (.settled (.ok ⟨.unit, ()⟩)), []⟩
    | _ => ⟨guardedStore 2, .settled exploded, []⟩
  last := 5
  step
    | 0, _ | 1, _ | 2, _ | 3, _ | 4, _ => @Machine.Step.moves _ _ _ .standard _ _ rfl
    | t + 5, h => absurd h (by omega)

/-- Its predicate panics on every failure that it is asked about. -/
def choosy : RetryPolicy Host.counting := { times := 1, condition := some fun _ => Code.panic boom }

/-- The source fails with its panic, and the finalizer goes on after that. The same panic of a
predicate takes the finalizer away. -/
theorem exploding_source_is_cleaned_up :
    explodingStory.part? [.above] 2 = some (.settled exploded) ∧
    (∃ u, explodingStory.part? [] (u + 1) = some (.frame cleaningEnv (.ensured exploded)
      (.enter cleaning cleaningEnv))) ∧
    (Execution.frame guardedEnv (.retry failing choosy 0) (.settled (.error (.ofKey "late")))).move
      .standard 0 (guardedStore 1) = some (.unwound boom, guardedStore 1) ∧
    (Execution.frame guardedEnv (.ensuring (Code.pure cleaning)) (.unwound boom)).move
      .standard 0 (guardedStore 1) = some (.unwound boom, guardedStore 1) := by
  have issued : guardedEnv.signal.Issued (guardedStore 1) := by
    refine ⟨Nat.le_refl 1, fun n hn => ?_⟩
    rw [List.mem_singleton.1 hn]
    exact Nat.zero_lt_one
  have launched : explodingStory.Launched (.ensuring exploding (Code.pure cleaning)) guardedEnv :=
    ⟨rfl, issued, fun _ hg => absurd hg List.not_mem_nil, fun _ ha => absurd ha List.not_mem_nil⟩
  have steady : explodingStory.Steady := by
    intro t ht
    rcases t with _ | _ | _ | _ | _ | t
    · trivial
    · exact ⟨fun _ _ => trivial, trivial⟩
    · exact ⟨fun _ _ => trivial, trivial⟩
    · exact ⟨fun _ _ => trivial, trivial⟩
    · exact ⟨fun _ _ => trivial, trivial⟩
    · exact absurd ht (by show ¬ t + 5 < 5; omega)
  obtain ⟨-, caught, -, resumes, -, -, -, escapes, -⟩ :=
    caught_panic_fails_its_step explodingStory _ guardedEnv launched steady rfl
  refine ⟨?_, ?_, (escapes ..).2 (.predicate Nat.zero_lt_one rfl), (escapes ..).2 .passes⟩
  · rcases caught 1 [.above] (.enter exploding guardedEnv) boom exploded (guardedStore 1)
      (by decide) rfl (.sync rfl rfl) with same | ⟨settled, -⟩
    · cases same
    · exact settled
  · obtain ⟨u, later, before, stays, resumed, -⟩ :=
      resumes 2 [] guardedEnv (.ensuring (Code.pure cleaning)) exploded (by decide) rfl
    have here := stays u later (Nat.le_refl u)
    rcases u with _ | _ | _ | u
    · omega
    · omega
    · exact ⟨2, resumed⟩
    · rcases u with _ | _ | u
      · cases here
      · cases here
      · cases here

end Story

end ScopedEffects
