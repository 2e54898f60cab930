import ScopedEffects.Proofs.Execution.Above

/-! The executions that a retry step makes of its upstream. They are numbered from zero. Each runs
on its own until the step takes its exit in; what follows depends on that exit, on the number, on
the policy, and after a delay on the signal. An execution after the first begins when the one
before it has failed and is to be tried again, at once or after the delay. -/

namespace ScopedEffects

variable {H : Host}

/-- A retry step that has begun: where it stands, the upstream that it repeats, and its policy. -/
structure Repeat (H : Host) where
  env : Env
  inner : Node H
  policy : RetryPolicy H

namespace Repeat

/-- The step during its execution number `k`. -/
def attempt (l : Repeat H) (k : Nat) (x : Execution H) : Execution H :=
  .frame l.env (.retry l.inner l.policy k) x

/-- The delay before execution number `k`. -/
def rests (l : Repeat H) (till : Clock) (k : Nat) : Execution H :=
  .pause till l.env l.inner l.policy k

/-- Execution number `k` has failed, and is to be tried again after a delay. -/
structure Again (l : Repeat H) (k : Nat) (f : Failure H) (s : Store H) (delay : Duration) :
    Prop where
  more : k < l.policy.times
  eligible : f.isDefect = false
  accepted : (s.perform (l.policy.accepts f)).1 = .ok true
  drawn : l.policy.nextDelay (k + 1) ((s.perform (l.policy.accepts f)).2.draw l.policy).1 =
    .ok delay

/-- The store when execution number `k` is to be tried again: the policy has been asked once. -/
def again (l : Repeat H) (k : Nat) (f : Failure H) (s : Store H) (delay : Duration) : Store H :=
  ((s.perform (l.policy.accepts f)).2.draw l.policy).2.record
    (.retrying (k + 1) l.policy.times delay f.display)

section Histories

variable [Tracing H]

/-- The course `c` is execution number `k` of the upstream, which begins at instant `u`. -/
structure Runs (l : Repeat H) (q c : Course H) (k u : Nat) : Prop where
  begins : c.state 0 = .enter l.inner l.env
  above : (q.later u).Above c l.env (.retry l.inner l.policy k)
  timely : c.Timely

/-- The step waits for execution number `k` for `v` instants. Meanwhile it is the execution that
moves. -/
structure Waits (l : Repeat H) (q c : Course H) (k u v : Nat) : Prop where
  runs : l.Runs q c k u
  stands : ∀ w, w ≤ v → q.state (u + w) = l.attempt k (c.state w)
  quiet : ∀ w, w < v → q.Moves (u + w) → c.Moves w

/-- After `v` instants the step takes in the exit of execution number `k`, at the moment at which
that has settled. -/
structure Takes (l : Repeat H) (q c : Course H) (k u v : Nat) (exit : Exit H) : Prop where
  waits : l.Waits q c k u v
  settled : c.state v = .settled exit
  moment : ∀ w, w ≤ v → (c.state w).ended = true → (q.store (u + w)).now = (q.store (u + v)).now
  moves : q.Moves (u + v)

/-- The step does nothing from instant `m` to instant `t` but wait for an instant of time. -/
structure Pauses (l : Repeat H) (q : Course H) (till : Clock) (k m t : Nat) : Prop where
  from_to : m ≤ t
  stands : ∀ w, m ≤ w → w ≤ t → q.state w = l.rests till k
  quiet : ∀ w, m ≤ w → w < t → ¬ q.Moves w
  early : (q.store t).now ≤ till

/-- Execution number `k` begins at instant `u`: the first one with the step, and any other one when
the one before it has failed and is to be tried again, at once if the delay is zero, or otherwise at
the very end of the delay, if the signal has not fired by then. -/
inductive Begins (l : Repeat H) (q : Course H) : Nat → Nat → Prop
  | first (next : q.state 0 = l.attempt 0 (.enter l.inner l.env)) : Begins l q 0 0
  | at_once {c k u v f delay} (before : Begins l q k u) (takes : l.Takes q c k u v (.error f))
      (again : l.Again k f (q.store (u + v)) delay) (none_left : delay.isZero = true)
      (stored : q.store (u + v + 1) = l.again k f (q.store (u + v)) delay)
      (next : q.state (u + v + 1) = l.attempt (k + 1) (.enter l.inner l.env)) :
      Begins l q (k + 1) (u + v + 1)
  | later {c k u v f delay till m} (before : Begins l q k u) (takes : l.Takes q c k u v (.error f))
      (again : l.Again k f (q.store (u + v)) delay) (some_left : delay.isZero = false)
      (stored : q.store (u + v + 1) = l.again k f (q.store (u + v)) delay)
      (till_then : till = (q.store (u + v)).now + delay.ticks)
      (pauses : l.Pauses q till (k + 1) (u + v + 1) m) (due : (q.store m).now = till)
      (live : (q.store m).isFired l.env.signal = false) (unchanged : q.store (m + 1) = q.store m)
      (next : q.state (m + 1) = l.attempt (k + 1) (.enter l.inner l.env)) :
      Begins l q (k + 1) (m + 1)

/-- How the step ends after execution number `k`, whose exit it takes in at instant `m`: as what,
and at which instant. -/
inductive Ends (l : Repeat H) (q : Course H) (k m : Nat) : Exit H → Execution H → Nat → Prop
  | succeeds (v : Value H) (unchanged : q.store (m + 1) = q.store m) :
      Ends l q k m (.ok v) (.settled (.ok v)) (m + 1)
  | exhausted (f : Failure H) (last : k = l.policy.times)
      (unchanged : q.store (m + 1) = q.store m) :
      Ends l q k m (.error f) (.settled (.error f)) (m + 1)
  /-- The policy is not asked about a defect. -/
  | defect (f : Failure H) (more : k < l.policy.times) (isDefect : f.isDefect = true)
      (unchanged : q.store (m + 1) = q.store m) :
      Ends l q k m (.error f) (.settled (.error f)) (m + 1)
  | declined (f : Failure H) (more : k < l.policy.times) (eligible : f.isDefect = false)
      (asked : (q.store m).perform (l.policy.accepts f) = (.ok false, q.store (m + 1))) :
      Ends l q k m (.error f) (.settled (.error f)) (m + 1)
  /-- The signal has fired by the end of a delay that is not zero. -/
  | aborted {delay till n} (f : Failure H) (again : l.Again k f (q.store m) delay)
      (some_left : delay.isZero = false)
      (stored : q.store (m + 1) = l.again k f (q.store m) delay)
      (till_then : till = (q.store m).now + delay.ticks)
      (pauses : l.Pauses q till (k + 1) (m + 1) n)
      (fired : (q.store n).isFired l.env.signal = true) (unchanged : q.store (n + 1) = q.store n)
      (next : q.state (n + 1) = .settled (.error .aborted)) :
      Ends l q k m (.error f) (.settled (.error .aborted)) (n + 1)
  /-- No delay can be drawn at random. -/
  | undrawn {p} (f : Failure H) (more : k < l.policy.times) (eligible : f.isDefect = false)
      (accepted : ((q.store m).perform (l.policy.accepts f)).1 = .ok true)
      (undrawn : l.policy.nextDelay (k + 1)
        (((q.store m).perform (l.policy.accepts f)).2.draw l.policy).1 = .error p)
      (stored : q.store (m + 1) =
        (((q.store m).perform (l.policy.accepts f)).2.draw l.policy).2) :
      Ends l q k m (.error f) (.unwound p) (m + 1)

/-- How far the step is at an instant. -/
inductive Stage (l : Repeat H) (q : Course H) (t : Nat) : Prop
  | runs {c k u v} (begun : l.Begins q k u) (here : t = u + v) (h : l.Waits q c k u v)
  | pauses {c k u v f delay till} (begun : l.Begins q k u) (takes : l.Takes q c k u v (.error f))
      (again : l.Again k f (q.store (u + v)) delay) (some_left : delay.isZero = false)
      (stored : q.store (u + v + 1) = l.again k f (q.store (u + v)) delay)
      (till_then : till = (q.store (u + v)).now + delay.ticks)
      (h : l.Pauses q till (k + 1) (u + v + 1) t)
  | ended {c k u v exit e n} (begun : l.Begins q k u) (takes : l.Takes q c k u v exit)
      (ends : l.Ends q k (u + v) exit e n) (after : n ≤ t) (here : q.state t = e)

end Histories

variable [Tracing H] {l : Repeat H} {q c c' : Course H} {k u u' v v' t : Nat} {exit exit' : Exit H}

/-! What is above the step -/

theorem exists_waits (timely : q.Timely) (begun : q.state u = l.attempt k (.enter l.inner l.env)) :
    ∃ c, l.Waits q c k u 0 := by
  obtain ⟨c, first, above⟩ :=
    Course.exists_above (q := q.later u) (fun _ _ _ _ h => by cases h) begun
  have runs : l.Runs q c k u := ⟨first, above, above.timely_above (timely.later u)⟩
  refine ⟨c, runs, fun w hw => ?_, fun w hw => absurd hw (Nat.not_lt_zero w)⟩
  rw [Nat.le_zero.1 hw, first]
  exact begun

namespace Waits

theorem succ (h : l.Waits q c k u v)
    (next : q.state (u + (v + 1)) = l.attempt k (c.state (v + 1)))
    (quiet : q.Moves (u + v) → c.Moves v) : l.Waits q c k u (v + 1) where
  runs := h.runs
  stands w hw := by
    rcases Nat.le_succ_iff.1 hw with hw | rfl
    · exact h.stands w hw
    · exact next
  quiet w hw := by
    rcases Nat.lt_succ_iff_lt_or_eq.1 hw with hw | rfl
    · exact h.quiet w hw
    · exact quiet

/-- While the execution is under way, the step waits on. -/
theorem step_running (h : l.Waits q c k u v) (running : (c.state v).ended = false) :
    l.Waits q c k u (v + 1) := by
  have here := h.stands v le_rfl
  obtain ⟨y, next, -⟩ := Course.lasting_step (fun _ _ _ _ h => by cases h) here running
  have above : c.state (v + 1) = y := h.runs.above.above running next
  have next : q.state (u + (v + 1)) = l.attempt k (c.state (v + 1)) := by
    rw [above]
    exact next
  exact h.succ next fun moves => h.runs.above.quiet here running next moves

/-- What has ended above the step has settled, for it does not unwind. -/
theorem exists_exit (calm : ∀ t k p, q.state t ≠ l.attempt k (.unwound p)) (h : l.Waits q c k u v)
    {w : Nat} (hw : w ≤ v) (ended : (c.state w).ended = true) : ∃ exit, c.state w = .settled exit :=
  Execution.exists_exit (fun p unwound => calm _ k p (unwound ▸ h.stands w hw)) ended

/-- When it has settled and the step moves, that takes the exit in. -/
theorem takes (timely : q.Timely) (calm : ∀ t k p, q.state t ≠ l.attempt k (.unwound p))
    (h : l.Waits q c k u v) (settled : c.state v = .settled exit) (moves : q.Moves (u + v)) :
    l.Takes q c k u v exit := by
  refine ⟨h, settled, fun w hw ended => ?_, moves⟩
  obtain ⟨exit', settled'⟩ := h.exists_exit calm hw ended
  have frames : ∀ x, w ≤ x → x ≤ v →
      (q.later u).state x = .frame l.env (.retry l.inner l.policy k) (c.state x) :=
    fun x _ hx => h.stands x hx
  exact (timely.later u).moment hw frames settled'

/-- Until then the step waits on. -/
theorem step_settled (h : l.Waits q c k u v) (settled : c.state v = .settled exit)
    (still : ¬ q.Moves (u + v)) : l.Waits q c k u (v + 1) := by
  refine h.succ ?_ fun moves => absurd moves still
  rw [Course.settled_stays settled (Nat.le_succ v), ← settled]
  exact ((q.step (u + v)).resolve_left still).trans (h.stands v le_rfl)

end Waits

/-! What follows an execution -/

omit [Tracing H] in
/-- Asking takes no time. -/
theorem now_asked {α : Type} (s : Store H) (code : Code H α) (p : RetryPolicy H) :
    ((s.perform code).2.draw p).2.now = s.now := by
  have drawn := (Store.Operation.draw (s := (s.perform code).2) p).atOnce.now
  exact drawn.trans (Store.Operation.perform (s := s) code).atOnce.now

theorem Takes.resumes (h : l.Takes q c k u v exit) : (q.state (u + v + 1), q.store (u + v + 1)) =
    (Frame.retry l.inner l.policy k).resume l.env exit (q.store (u + v)) := by
  have here := h.waits.stands v le_rfl
  rw [h.settled] at here
  have moved := Course.frame_moves here h.moves
  generalize q.state (u + v + 1) = e, q.store (u + v + 1) = s at moved ⊢
  cases moved with
  | resumes settled =>
    cases settled
    rfl
  | passes unwound => cases unwound
  | moves running | expires running => cases running

/-- With what the step goes on when it takes in an exit: it ends, or tries again. -/
theorem Takes.next (asked : ∀ f (s : Store H) p, (s.perform (l.policy.accepts f)).1 ≠ .error p)
    (bound : k ≤ l.policy.times) (h : l.Takes q c k u v exit) :
    (∃ e, l.Ends q k (u + v) exit e (u + v + 1) ∧ q.state (u + v + 1) = e) ∨
      ∃ f delay, exit = .error f ∧ l.Again k f (q.store (u + v)) delay ∧
        q.store (u + v + 1) = l.again k f (q.store (u + v)) delay ∧
        (delay.isZero = true ∧ q.state (u + v + 1) = l.attempt (k + 1) (.enter l.inner l.env) ∨
          delay.isZero = false ∧
            q.state (u + v + 1) = l.rests ((q.store (u + v)).now + delay.ticks) (k + 1)) := by
  have took := h.resumes
  cases exit with
  | ok value =>
    have stored : q.store (u + v + 1) = q.store (u + v) := congrArg Prod.snd took
    exact .inl ⟨_, .succeeds value stored, congrArg Prod.fst took⟩
  | error f =>
    have goes := Execution.retries l.env l.inner l.policy k f (q.store (u + v))
    have took : (q.state (u + v + 1), q.store (u + v + 1)) =
        retryAfter l.env l.inner l.policy k f (q.store (u + v)) := took
    by_cases isDefect : f.isDefect = true
    · have refused :=
        Execution.resume_retry_defect isDefect l.env (q.store (u + v)) l.inner l.policy k
      have took := took.trans refused
      have stored : q.store (u + v + 1) = q.store (u + v) := congrArg Prod.snd took
      refine .inl ⟨_, ?_, congrArg Prod.fst took⟩
      rcases bound.eq_or_lt with last | more
      · exact .exhausted f last stored
      · exact .defect f more isDefect stored
    have eligible : f.isDefect = false := Bool.eq_false_iff.2 isDefect
    generalize retryAfter l.env l.inner l.policy k f (q.store (u + v)) = after at goes took
    cases goes with
    | exhausted spent =>
      exact .inl ⟨_, .exhausted f (Nat.le_antisymm bound spent) (congrArg Prod.snd took),
        congrArg Prod.fst took⟩
    | asking more panics => exact absurd (congrArg Prod.fst panics) (asked f _ _)
    | declines more declined =>
      have stored : q.store (u + v + 1) = _ := congrArg Prod.snd took
      exact .inl ⟨_, .declined f more eligible (stored ▸ declined), congrArg Prod.fst took⟩
    | @drawing p s₁ more accepted spread =>
      have ok := congrArg Prod.fst accepted
      obtain rfl := congrArg Prod.snd accepted
      exact .inl ⟨_, .undrawn f more eligible ok spread (congrArg Prod.snd took),
        congrArg Prod.fst took⟩
    | @again s₁ delay more accepted spread at_once =>
      have ok := congrArg Prod.fst accepted
      obtain rfl := congrArg Prod.snd accepted
      exact .inr ⟨f, delay, rfl, ⟨more, eligible, ok, spread⟩, congrArg Prod.snd took,
        .inl ⟨at_once, congrArg Prod.fst took⟩⟩
    | @pauses s₁ delay more accepted spread later =>
      have ok := congrArg Prod.fst accepted
      obtain rfl := congrArg Prod.snd accepted
      refine .inr ⟨f, delay, rfl, ⟨more, eligible, ok, spread⟩, congrArg Prod.snd took,
        .inr ⟨later, (congrArg Prod.fst took).trans ?_⟩⟩
      rw [now_asked]
      rfl

/-! The delay -/

theorem pauses_first {f : Failure H} {delay : Duration} {m : Nat}
    (stored : q.store (m + 1) = l.again k f (q.store m) delay)
    (next : q.state (m + 1) = l.rests ((q.store m).now + delay.ticks) (k + 1)) :
    l.Pauses q ((q.store m).now + delay.ticks) (k + 1) (m + 1) (m + 1) where
  from_to := le_rfl
  stands w hw hw' := by
    rw [Nat.le_antisymm hw' hw]
    exact next
  quiet w hw hw' := absurd hw' (Nat.not_lt_of_le hw)
  early := by
    have still : (q.store (m + 1)).now = (q.store m).now := by
      rw [stored]
      exact now_asked ..
    rw [still]
    exact Nat.le_add_right ..

omit [Tracing H] in
theorem ahead_of_blocked {till : Clock} {s : Store H} (h : (l.rests till k).ready s = false) :
    s.now < till := by
  by_contra due
  simp [rests, Execution.ready, Nat.le_of_not_lt due] at h

/-- The clock does not run past the end of a delay. -/
theorem Pauses.step {till : Clock} {m : Nat} (timely : q.Timely) (h : l.Pauses q till k m t) :
    l.Pauses q till k m (t + 1) ∨ q.store (t + 1) = q.store t ∧
      ((q.store t).isFired l.env.signal = true ∧ q.state (t + 1) = .settled (.error .aborted) ∨
        (q.store t).isFired l.env.signal = false ∧ (q.store t).now = till ∧
          q.state (t + 1) = l.attempt k (.enter l.inner l.env)) := by
  have here := h.stands t h.from_to le_rfl
  by_cases moves : q.Moves t
  · obtain ⟨policy, depth, moved⟩ := moves
    rw [here, rests, Execution.move] at moved
    split at moved
    · rename_i fired
      have aborts := Option.some.inj moved
      exact .inr ⟨(congrArg Prod.snd aborts).symm, .inl ⟨fired, (congrArg Prod.fst aborts).symm⟩⟩
    · rename_i live
      split at moved
      · rename_i due
        have starts := Option.some.inj moved
        exact .inr ⟨(congrArg Prod.snd starts).symm, .inr ⟨Bool.eq_false_iff.2 live,
          Nat.le_antisymm h.early due, (congrArg Prod.fst starts).symm⟩⟩
      · cases moved
  · have same := (q.step t).resolve_left moves
    refine .inl ⟨Nat.le_succ_of_le h.from_to, fun w hw hw' => ?_, fun w hw hw' => ?_, ?_⟩
    · rcases Nat.le_succ_iff.1 hw' with hw' | rfl
      · exact h.stands w hw hw'
      · exact same.trans here
    · rcases Nat.lt_succ_iff_lt_or_eq.1 hw' with hw' | rfl
      · exact h.quiet w hw hw'
      · exact moves
    · rcases Nat.lt_or_ge (q.store t).now (q.store (t + 1)).now with passes | still
      · -- a delay that is over is ready, so its end is ahead, and the clock halts there
        obtain ⟨blocked, least⟩ := timely.held t passes
        rw [here] at blocked least
        exact least till List.mem_cons_self (ahead_of_blocked blocked)
      · exact still.trans h.early

/-! The history of the step -/

theorem Begins.next (h : l.Begins q k u) : q.state u = l.attempt k (.enter l.inner l.env) := by
  cases h with
  | first next | at_once _ _ _ _ _ next | later _ _ _ _ _ _ _ _ _ _ next => exact next

/-- Executions are numbered without a gap, and there is none beyond those that the policy allows. -/
theorem Begins.bound (h : l.Begins q k u) : k ≤ l.policy.times := by
  cases h with
  | first => exact Nat.zero_le _
  | at_once _ _ again | later _ _ again => exact again.more

omit [Tracing H] in
theorem Again.unique {f : Failure H} {s : Store H} {d d' : Duration} (h : l.Again k f s d)
    (h' : l.Again k f s d') : d = d' :=
  Except.ok.inj (h.drawn.symm.trans h'.drawn)

omit [Tracing H] in
theorem attempt_ne {x y : Execution H} {j : Nat} (h : j ≠ k) : l.attempt j x ≠ l.attempt k y := by
  intro same
  unfold attempt at same
  injection same with _ same
  injection same with _ _ same
  exact h same

theorem Ends.ended {m n : Nat} {e : Execution H} (h : l.Ends q k m exit e n) : e.ended = true := by
  cases h <;> rfl

/-- The step takes in one exit of an execution. -/
theorem Takes.unique (asked : ∀ f (s : Store H) p, (s.perform (l.policy.accepts f)).1 ≠ .error p)
    (bound : k ≤ l.policy.times) (h : l.Takes q c k u v exit) (h' : l.Takes q c' k u v' exit') :
    v = v' ∧ exit = exit' := by
  have not_before : ∀ {c c' : Course H} {v v' exit exit'}, l.Takes q c k u v exit →
      l.Takes q c' k u v' exit' → ¬ v < v' := by
    intro c c' v v' exit exit' h h' less
    have stands : q.state (u + v + 1) = l.attempt k (c'.state (v + 1)) :=
      h'.waits.stands (v + 1) less
    rcases h.next asked bound with
      ⟨e, ends, next⟩ | ⟨f, delay, -, -, -, ⟨-, next⟩ | ⟨-, next⟩⟩
    · have ended := ends.ended
      rw [← next, stands] at ended
      cases ended
    · exact attempt_ne (Nat.succ_ne_self k) (next.symm.trans stands)
    · cases next.symm.trans stands
  have same : v = v' :=
    Nat.le_antisymm (Nat.le_of_not_lt (not_before h' h)) (Nat.le_of_not_lt (not_before h h'))
  subst same
  have here := (h.waits.stands v le_rfl).symm.trans (h'.waits.stands v le_rfl)
  rw [h.settled, h'.settled] at here
  unfold attempt at here
  injection here with _ _ here
  injection here with here
  exact ⟨rfl, here⟩

/-- A delay ends once. -/
theorem Pauses.unique {till : Clock} {m n n' : Nat} (h : l.Pauses q till k m n)
    (h' : l.Pauses q till k m n') (next : ∀ till k, q.state (n + 1) ≠ l.rests till k)
    (next' : ∀ till k, q.state (n' + 1) ≠ l.rests till k) : n = n' := by
  rcases Nat.lt_trichotomy n n' with less | same | more
  · exact absurd (h'.stands (n + 1) (Nat.le_succ_of_le h.from_to) less) (next _ _)
  · exact same
  · exact absurd (h.stands (n' + 1) (Nat.le_succ_of_le h'.from_to) more) (next' _ _)

omit [Tracing H] in
theorem attempt_ne_rests {x : Execution H} {e : Execution H} (h : e = l.attempt k x) (till : Clock)
    (j : Nat) : e ≠ l.rests till j := by
  rw [h]
  exact nofun

/-- Each execution begins once. -/
theorem Begins.unique (asked : ∀ f (s : Store H) p, (s.perform (l.policy.accepts f)).1 ≠ .error p)
    (h : l.Begins q k u) (h' : l.Begins q k u') : u = u' := by
  induction k generalizing u u' with
  | zero =>
    cases h
    cases h'
    rfl
  | succ k ih =>
    cases h with
    | at_once before takes again none_left =>
      cases h' with
      | at_once before' takes' =>
        obtain rfl := ih before before'
        rw [(takes.unique asked before.bound takes').1]
      | later before' takes' again' some_left =>
        obtain rfl := ih before before'
        obtain ⟨rfl, same⟩ := takes.unique asked before.bound takes'
        cases same
        rw [again.unique again', some_left] at none_left
        cases none_left
    | later before takes again some_left stored till_then pauses due live unchanged next =>
      cases h' with
      | at_once before' takes' again' none_left =>
        obtain rfl := ih before before'
        obtain ⟨rfl, same⟩ := takes.unique asked before.bound takes'
        cases same
        rw [again.unique again', none_left] at some_left
        cases some_left
      | later before' takes' again' some_left' stored' till_then' pauses' due' live' unchanged'
          next' =>
        obtain rfl := ih before before'
        obtain ⟨rfl, same⟩ := takes.unique asked before.bound takes'
        cases same
        obtain rfl := again.unique again'
        rw [till_then] at pauses
        rw [till_then'] at pauses'
        rw [pauses.unique pauses' (attempt_ne_rests next) (attempt_ne_rests next')]

theorem Begins.exists_before (h : l.Begins q (k + 1) u) : ∃ u', l.Begins q k u' := by
  cases h with
  | at_once before | later before => exact ⟨_, before⟩

/-- A step ends after a failure that is to be tried again only when its signal has fired by the
end of the delay. -/
theorem Ends.of_again {f : Failure H} {delay : Duration} {e : Execution H} {m n : Nat}
    (ends : l.Ends q k m (.error f) e n) (again : l.Again k f (q.store m) delay) :
    delay.isZero = false ∧ ∃ i, l.Pauses q ((q.store m).now + delay.ticks) (k + 1) (m + 1) i ∧
      (q.store i).isFired l.env.signal = true ∧ q.state (i + 1) = .settled (.error .aborted) := by
  cases ends with
  | exhausted f last => exact absurd last (Nat.ne_of_lt again.more)
  | defect f _ isDefect => exact absurd (again.eligible.symm.trans isDefect) Bool.false_ne_true
  | declined f _ _ asked => cases again.accepted.symm.trans (congrArg Prod.fst asked)
  | undrawn f _ _ _ undrawn => cases again.drawn.symm.trans undrawn
  | aborted f again' some_left _ till_then pauses fired _ next =>
    obtain rfl := again.unique again'
    exact ⟨some_left, _, till_then ▸ pauses, fired, next⟩

/-- After the execution with which the step ends there is no other one. -/
theorem Ends.last {e : Execution H} {n j : Nat}
    (asked : ∀ f (s : Store H) p, (s.perform (l.policy.accepts f)).1 ≠ .error p)
    (begun : l.Begins q k u) (takes : l.Takes q c k u v exit) (ends : l.Ends q k (u + v) exit e n)
    (h : l.Begins q j u') : j ≤ k := by
  induction j generalizing u' with
  | zero => exact Nat.zero_le k
  | succ j ih =>
    obtain ⟨w, before⟩ := h.exists_before
    refine Nat.lt_of_le_of_ne (ih before) ?_
    rintro rfl
    cases h with
    | at_once before takes' again none_left =>
      obtain rfl := begun.unique asked before
      obtain ⟨rfl, rfl⟩ := takes.unique asked begun.bound takes'
      exact Bool.false_ne_true ((ends.of_again again).1.symm.trans none_left)
    | later before takes' again _ _ till_then pauses _ live _ next =>
      obtain rfl := begun.unique asked before
      obtain ⟨rfl, rfl⟩ := takes.unique asked begun.bound takes'
      obtain ⟨-, i, pauses', fired, aborts⟩ := ends.of_again again
      have rests_no_more : ∀ till k, q.state (i + 1) ≠ l.rests till k := fun _ _ same =>
        nomatch aborts.symm.trans same
      obtain rfl := (till_then ▸ pauses).unique pauses' (attempt_ne_rests next) rests_no_more
      exact Bool.false_ne_true (live.symm.trans fired)

/-- Between an execution and the next one passes the delay of the policy. -/
theorem Begins.delayed (h : l.Begins q (k + 1) u') :
    ∃ c u v f delay, l.Begins q k u ∧ l.Takes q c k u v (.error f) ∧
      l.Again k f (q.store (u + v)) delay ∧ u + v < u' ∧
      (q.store u').now = (q.store (u + v)).now + delay.ticks ∧
      (delay.isZero = false → (q.store u').isFired l.env.signal = false) := by
  cases h with
  | @at_once c k u v f delay before takes again none_left stored =>
    refine ⟨c, u, v, f, delay, before, takes, again, Nat.lt_succ_self _, ?_, fun some_left => ?_⟩
    · have none : delay.ticks = 0 := by
        have : delay.nanos = 0 := by simpa [Duration.isZero] using none_left
        simp [Duration.ticks, this]
      rw [stored, none]
      exact now_asked ..
    · rw [none_left] at some_left
      cases some_left
  | @later c k u v f delay till m before takes again some_left stored till_then pauses due live
      unchanged =>
    refine ⟨c, u, v, f, delay, before, takes, again, Nat.lt_succ_of_lt pauses.from_to, ?_,
      fun _ => ?_⟩
    · rw [unchanged, due, till_then]
    · rw [unchanged]
      exact live

/-- The step goes from one stage to the next. -/
theorem stage (timely : q.Timely) (first : q.state 0 = l.attempt 0 (.enter l.inner l.env))
    (asked : ∀ f (s : Store H) p, (s.perform (l.policy.accepts f)).1 ≠ .error p)
    (calm : ∀ t k p, q.state t ≠ l.attempt k (.unwound p)) (t : Nat) : l.Stage q t := by
  induction t with
  | zero =>
    obtain ⟨c, waits⟩ := exists_waits timely first
    exact .runs (.first first) rfl waits
  | succ t ih =>
    cases ih with
    | @runs c k u v begun here waits =>
      rw [here]
      cases running : (c.state v).ended with
      | false => exact .runs begun rfl (waits.step_running running)
      | true =>
        obtain ⟨exit, settled⟩ := waits.exists_exit calm le_rfl running
        by_cases moves : q.Moves (u + v)
        · have takes := waits.takes timely calm settled moves
          rcases takes.next asked begun.bound with
            ⟨e, ends, next⟩ | ⟨f, delay, rfl, again, stored, ⟨none_left, next⟩ | ⟨some_left, next⟩⟩
          · exact .ended begun takes ends le_rfl next
          · obtain ⟨c', waits'⟩ := exists_waits timely next
            exact .runs (.at_once begun takes again none_left stored next) rfl waits'
          · exact .pauses begun takes again some_left stored rfl (pauses_first stored next)
        · exact .runs begun rfl (waits.step_settled settled moves)
    | pauses begun takes again some_left stored till_then pauses =>
      rcases pauses.step timely with pauses | ⟨unchanged, ⟨fired, next⟩ | ⟨live, due, next⟩⟩
      · exact .pauses begun takes again some_left stored till_then pauses
      · exact .ended begun takes
          (.aborted _ again some_left stored till_then pauses fired unchanged next) le_rfl next
      · obtain ⟨c', waits'⟩ := exists_waits timely next
        exact .runs
          (.later begun takes again some_left stored till_then pauses due live unchanged next)
          rfl waits'
    | @ended c k u v exit e n begun takes ends after here =>
      refine .ended begun takes ends (Nat.le_succ_of_le after) ?_
      rw [Course.ended_stays (here ▸ ends.ended), here]

end Repeat

end ScopedEffects
