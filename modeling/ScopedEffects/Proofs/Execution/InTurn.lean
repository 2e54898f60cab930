import ScopedEffects.Proofs.Execution.Sequence

/-! Running effects one at a time and running them one after the other, as whole runs. The crew has
one move ahead of the chain, in which it forms, and from then on the machines go side by side, at
the same instants and in the same store, under the deadline of the run as well. At the end the
machine of the crew may have one move more to make. The schedule of the crew is that of the chain
after one move more: whatever picks the branches in the one form picks them in the other. -/

namespace ScopedEffects

variable {H : Host} {a : Shape H.Plain}

/-- The policy of the next move in a run: a poll begins with it unless the latest one goes on. -/
def Execution.polling (policy : Policy) (x : Execution H) (s : Store H) : Policy :=
  { policy with anew := !x.going { policy with anew := false } 0 s }

theorem Execution.goes_polling (policy : Policy) (x : Execution H) (s : Store H) :
    (x.polling policy s).anew = true ∨ x.going (x.polling policy s) 0 s = true := by
  unfold polling
  cases going : x.going { policy with anew := false } 0 s with
  | true => exact .inr going
  | false => exact .inl rfl

namespace Sequence

/-- What the deadline of a run puts around an execution. Once the time is over, it does not matter
how the execution settles. -/
inductive Limit : Frame H → Prop → Prop
  | timeout (deadline : Clock) (after : Duration) (child : Signal) :
      Limit (.timeout deadline after child none) False
  | draining (after : Duration) : Limit (.draining after none) True

/-- The two forms in runs with or without a deadline. -/
inductive Beside (a : Shape H.Plain) [Tracing H] (env : Env) :
    Execution H → Store H → Execution H → Store H → Prop
  | bare {x s y s'} (h : Abreast a False env x s y s') : Beside a env x s y s'
  | within {envd f lax x s y s'} (limit : Limit f lax) (h : Abreast a lax env x s y s') :
      Beside a env (.frame envd f x) s (.frame envd f y) s'
  | late {envd f lax exit exit' s s'} (limit : Limit f lax)
      (resumes : ∀ t, f.resume envd exit t = (.settled exit', t))
      (stores : s = { s' with trace := s.trace }) :
      Beside a env (.frame envd f (.settled exit)) s (.settled exit') s'

/-- Both make their next moves, or both wait for the same instants in the same store. -/
inductive Strides (a : Shape H.Plain) [Tracing H] (env : Env) (policy : Policy) :
    Execution H → Store H → Execution H → Store H → Prop
  | moves {x s y s' x₁ s₁ y₁ s₁'} (moved : x.move (x.polling policy s) 0 s = some (x₁, s₁))
      (moved' : y.move (y.polling policy s') 0 s' = some (y₁, s₁'))
      (next : Beside a env x₁ s₁ y₁ s₁') : Strides a env policy x s y s'
  | waits {x y s} (still : x.move (x.polling policy s) 0 s = none)
      (still' : y.move (y.polling policy s) 0 s = none) (deadlines : x.deadlines s = y.deadlines s)
      (anywhere : ∀ t, Beside a env x t y t) : Strides a env policy x s y s

/-- The time that the deadline has left is over. -/
def overdue : Execution H → Bool
  | .frame _ (.draining ..) _ => true
  | _ => false

variable [Tracing H] {env envd : Env} {f : Frame H} {lax : Prop} {x y : Execution H}
  {s s' : Store H} {exit exit' : Exit H} {policy : Policy}

theorem Limit.exists_resume (h : Limit f lax) (same : exit = exit' ∨ lax) (envd : Env) :
    ∃ e, (∀ t, f.resume envd exit t = (.settled e, t)) ∧
      ∀ t, f.resume envd exit' t = (.settled e, t) := by
  cases h with
  | timeout =>
    obtain rfl := same.resolve_right id
    exact ⟨exit, fun _ => rfl, fun _ => rfl⟩
  | draining after => exact ⟨.error (.timeout after), fun _ => rfl, fun _ => rfl⟩

omit [Tracing H] in
theorem Limit.current? (h : Limit f lax) (envd : Env) (x : Execution H) :
    (Execution.frame envd f x).current? = x.current? := by
  cases h <;> rfl

namespace Beside

theorem stores (h : Beside a env x s y s') : s = { s' with trace := s.trace } := by
  cases h with
  | bare h | within _ h => exact h.stores
  | late _ _ stores => exact stores

theorem current? (h : Beside a env x s y s') : x.current? = y.current? := by
  have abreast : ∀ {lax x y}, Abreast a lax env x s y s' → x.current? = y.current? := by
    intro lax x y h
    cases h <;> rfl
  cases h with
  | bare h => exact abreast h
  | within limit h => rw [limit.current?, limit.current?, abreast h]
  | late limit => rw [limit.current?]; rfl

/-- When the chain has ended, the crew has ended so too or has a move left that ends it. -/
theorem ends (h : Beside a env x s y s') (ended : y.ended = true) :
    ∃ exit, y = .settled exit ∧ (x = y ∨ x.ended = false ∧
      ∀ policy, x.move policy 0 s = some (.settled exit, s)) := by
  cases h with
  | bare h =>
    rcases h.ends ended with ⟨exit, exit', rfl, rfl, same⟩ | ⟨f, rfl, running, -, moves⟩
    · obtain rfl := same.resolve_right id
      exact ⟨exit, rfl, .inl rfl⟩
    · exact ⟨_, rfl, .inr ⟨running, fun policy => moves policy 0⟩⟩
  | within => cases ended
  | late limit resumes =>
    refine ⟨_, rfl, .inr ⟨rfl, fun policy => ?_⟩⟩
    rw [Execution.move_frame_settled, resumes]

/-- When the crew has ended, so has the chain, in the same way. -/
theorem ended (h : Beside a env x s y s') (ended : x.ended = true) :
    ∃ exit, x = .settled exit ∧ y = .settled exit := by
  cases h with
  | bare h =>
    cases h with
    | settled same => exact ⟨_, rfl, congrArg _ (same.resolve_right id).symm⟩
    | _ => cases ended
  | within | late => cases ended

/-- When the chain has ended under the deadline, it is taken in. The crew is taken in too, or makes
the move that it has left. -/
theorem strides_of_ended (limit : Limit f lax) (h : Abreast a lax env x s y s')
    (ended : y.ended = true) (policy : Policy) :
    Strides a env policy (.frame envd f x) s (.frame envd f y) s' := by
  have stores := h.stores
  rcases h.ends ended with ⟨exit, exit', rfl, rfl, same⟩ | ⟨g, rfl, running, going, moves⟩
  · obtain ⟨e, resumes, resumes'⟩ := limit.exists_resume same envd
    have moved : ∀ policy, (Execution.frame envd f (.settled exit)).move policy 0 s =
        some (.settled e, s) := by
      intro policy
      rw [Execution.move_frame_settled, resumes]
    have moved' : ∀ policy, (Execution.frame envd f (.settled exit')).move policy 0 s' =
        some (.settled e, s') := by
      intro policy
      rw [Execution.move_frame_settled, resumes']
    exact .moves (moved _) (moved' _) (.bare (.settled (.inl rfl) stores))
  · obtain ⟨e, resumes, -⟩ := limit.exists_resume (.inl rfl : Except.error g = _ ∨ lax) envd
    have moved : ∀ policy, (Execution.frame envd f x).move policy 0 s =
        some (.frame envd f (.settled (.error g)), s) := by
      intro policy
      rw [Execution.move_frame_running running, going, Bool.not_true, Bool.and_false,
        if_neg Bool.false_ne_true, moves]
      rfl
    have moved' : ∀ policy, (Execution.frame envd f (.settled (.error g))).move policy 0 s' =
        some (.settled e, s') := by
      intro policy
      rw [Execution.move_frame_settled, resumes]
    exact .moves (moved _) (moved' _) (.late limit resumes stores)

omit [Tracing H] in
/-- Under a deadline that does not lapse with the move, the poll lets the execution go on. -/
theorem goes_within (running : y.ended = false)
    (holds : ¬(f.expired s.now &&
      !y.going ((Execution.frame envd f y).polling policy s) 1 s) = true) :
    ((Execution.frame envd f y).polling policy s).anew = true ∨
      y.going ((Execution.frame envd f y).polling policy s) 1 s = true := by
  refine (Execution.goes_polling policy (.frame envd f y) s).imp_right fun going => ?_
  rw [Execution.going, running, Bool.false_or, Bool.or_eq_true] at going
  rcases going with going | due
  · exact going
  · simpa [due] using holds

/-- While the chain runs under the deadline, both go on below it, or the time is over for both. -/
theorem strides_of_running (limit : Limit f lax) (h : Abreast a lax env x s y s')
    (diligent : policy.Diligent) (running : y.ended = false)
    (typed : ∀ v, y.current? = some (.settled (.ok v)) → v.1 = a)
    (calm : ∀ p, y.current? ≠ some (.unwound p)) (live : s'.isFired env.signal = false ∨ lax) :
    Strides a env policy (.frame envd f x) s (.frame envd f y) s' := by
  obtain ⟨running', same, waits⟩ := h.blocks running
  obtain ⟨rfl, anywhere⟩ := h.anywhere running
  have deadlines : (Execution.frame envd f x).deadlines s =
      (Execution.frame envd f y).deadlines s := by
    rw [Execution.deadlines, Execution.deadlines, waits]
  -- the same poll has reached both
  have polling : (Execution.frame envd f x).polling policy s =
      (Execution.frame envd f y).polling policy s := by
    unfold Execution.polling
    rw [Execution.going, Execution.going, running, running', same]
  have moved := Execution.move_frame_running running'
    ((Execution.frame envd f x).polling policy s) 0 envd f s
  have moved' := Execution.move_frame_running running
    ((Execution.frame envd f y).polling policy s) 0 envd f s
  by_cases lapses :
      (f.expired s.now && !y.going ((Execution.frame envd f y).polling policy s) 1 s) = true
  · rw [polling, same, if_pos lapses, ← polling] at moved
    rw [if_pos lapses] at moved'
    cases limit with
    | draining after => cases lapses
    | timeout deadline after child =>
      have due : deadline ≤ s.now := of_decide_eq_true (Bool.and_eq_true_iff.1 lapses).1
      rw [Frame.expire, if_pos due] at moved moved'
      exact .moves moved moved' (.within (.draining after) ((anywhere _).mono fun _ => trivial))
  · have goes := goes_within running lapses
    rw [polling, same, if_neg lapses, ← polling] at moved
    rw [if_neg lapses] at moved'
    have diligent' : ((Execution.frame envd f y).polling policy s).Diligent := diligent.anew _
    rcases h.step diligent' 1 running goes typed calm live with ⟨still, still'⟩ | moves
    · rw [polling, still, ← polling] at moved
      rw [still'] at moved'
      exact .waits moved moved' deadlines fun t => .within limit (anywhere t)
    · obtain ⟨x₁, s₁, y₁, s₁', hx, hy, next⟩ := moves
      rw [polling, hx, ← polling] at moved
      rw [hy] at moved'
      exact .moves moved moved' (.within limit next)

theorem step (h : Beside a env x s y s') (diligent : policy.Diligent) (running : y.ended = false)
    (typed : ∀ v, y.current? = some (.settled (.ok v)) → v.1 = a)
    (calm : ∀ p, y.current? ≠ some (.unwound p))
    (live : overdue y = false → s'.isFired env.signal = false) :
    x.ended = false ∧ Strides a env policy x s y s' := by
  cases h with
  | bare h =>
    have fresh : overdue y = false := by
      cases h <;> rfl
    obtain ⟨running', same, waits⟩ := h.blocks running
    obtain ⟨rfl, anywhere⟩ := h.anywhere running
    have polling : x.polling policy s = y.polling policy s := by
      unfold Execution.polling
      rw [same]
    refine ⟨running', ?_⟩
    have diligent' : (y.polling policy s).Diligent := diligent.anew _
    rcases h.step diligent' 0 running (Execution.goes_polling policy y s) typed calm
      (.inl (live fresh)) with ⟨still, still'⟩ | moves
    · rw [← polling] at still
      exact .waits still still' waits fun t => .bare (anywhere t)
    · obtain ⟨x₁, s₁, y₁, s₁', moved, moved', next⟩ := moves
      rw [← polling] at moved
      exact .moves moved moved' (.bare next)
  | @within envd f lax x s y s' limit h =>
    refine ⟨rfl, ?_⟩
    rw [limit.current?] at typed calm
    cases ended : y.ended with
    | true => exact strides_of_ended limit h ended policy
    | false =>
      refine strides_of_running limit h diligent ended typed calm ?_
      cases limit with
      | timeout => exact .inl (live rfl)
      | draining => exact .inr trivial
  | late => cases running

end Beside

end Sequence

/-! Machines -/

namespace Machine

variable [Tracing H] {m n m' : Machine H} {env : Env} {policy : Policy} {schedule : Schedule}
  {horizon : Clock}

/-- The machines of the crew and of the chain, from the move on with which the crew has formed. -/
structure Paired (a : Shape H.Plain) (env : Env) (horizon : Clock) (m n : Machine H) : Prop where
  beside : Sequence.Beside a env m.execution m.store n.execution n.store
  alarms : m.alarms = n.alarms
  intime : n.execution.ended = true → n.store.now ≤ horizon

/-- The machines have the same store up to the trace and the same alarms, and the same effect of a
sequence is under way in both. -/
structure Alike (m n : Machine H) : Prop where
  stores : m.store = { n.store with trace := m.store.trace }
  alarms : m.alarms = n.alarms
  current : m.execution.current? = n.execution.current?

namespace Paired

theorem alike (h : Paired a env horizon m n) : m.Alike n :=
  ⟨h.beside.stores, h.alarms, h.beside.current?⟩

theorem now (h : Paired a env horizon m n) : m.store.now = n.store.now := by
  rw [h.beside.stores]

/-- When the chain has ended, the crew has ended too, or ends with its next move. -/
theorem run_of_ended (h : Paired a env horizon m n) (ended : n.execution.ended = true)
    (schedule : Schedule) (t : Nat) :
    Paired a env horizon (run schedule horizon t m).2 (run schedule horizon t n).2 := by
  rw [Machine.run_of_ended ended]
  obtain ⟨exit, hn, same | ⟨running, moved⟩⟩ := h.beside.ends ended
  · rw [Machine.run_of_ended (by rw [same]; exact ended)]
    exact h
  · cases t with
    | zero => exact h
    | succ t =>
      rw [run_of_move? running (h.now ▸ h.intime ended) (move?_of_move (moved _)),
        Machine.run_of_ended rfl]
      refine ⟨?_, h.alarms, h.intime⟩
      rw [hn]
      exact .bare (.settled (.inl rfl) h.beside.stores)

/-- While the chain runs, both machines move on, or neither does. -/
theorem next (h : Paired a env horizon m n) (diligent : policy.Diligent)
    (running : n.execution.ended = false) (intime : n.store.now ≤ horizon)
    (typed : ∀ v, n.execution.current? = some (.settled (.ok v)) → v.1 = a)
    (calm : ∀ p, n.execution.current? ≠ some (.unwound p))
    (live : Sequence.overdue n.execution = false → n.store.isFired env.signal = false) :
    m.execution.ended = false ∧ (m.move? policy = none ∧ n.move? policy = none ∨
      ∃ m' n', m.move? policy = some m' ∧ n.move? policy = some n' ∧
        Paired a env horizon m' n') := by
  obtain ⟨s, x, alarms⟩ := m
  obtain ⟨s', y, alarms'⟩ := n
  obtain ⟨beside, rfl, -⟩ := h
  dsimp only at beside running intime typed calm live
  obtain ⟨running', strides⟩ := beside.step diligent running typed calm live
  refine ⟨running', ?_⟩
  have going : y.ended ≠ true := fun h => Bool.false_ne_true (running.symm.trans h)
  cases strides with
  | waits still still' waits anywhere =>
    have same_due : alarmDue ⟨s, x, alarms⟩ = alarmDue ⟨s, y, alarms⟩ := rfl
    have same_next : nextInstant? ⟨s, x, alarms⟩ = nextInstant? ⟨s, y, alarms⟩ := by
      unfold nextInstant?
      dsimp only
      rw [waits]
    rw [move?_of_still (m := ⟨s, x, alarms⟩) still, move?_of_still (m := ⟨s, y, alarms⟩) still',
      same_due, same_next]
    split
    · exact .inr ⟨_, _, rfl, rfl, anywhere _, rfl, fun h => absurd h going⟩
    · cases nextInstant? ⟨s, y, alarms⟩ with
      | none => exact .inl ⟨rfl, rfl⟩
      | some t => exact .inr ⟨_, _, rfl, rfl, anywhere _, rfl, fun h => absurd h going⟩
  | @moves _ _ _ _ _ _ s₁' moved moved' next =>
    refine .inr ⟨_, _, move?_of_move moved, move?_of_move moved', next, rfl, fun _ => ?_⟩
    show s₁'.now ≤ horizon
    rw [(Execution.works_move moved').atOnce.now]
    exact intime

/-- What one move of both preserves, all moves preserve. -/
theorem run (h : Paired a env horizon m n) (diligent : schedule.Diligent)
    (typed : ∀ t v, (Machine.run schedule horizon t n).2.execution.current? =
      some (.settled (.ok v)) → v.1 = a)
    (calm : ∀ t p, (Machine.run schedule horizon t n).2.execution.current? ≠ some (.unwound p))
    (live : ∀ t, (Machine.run schedule horizon t n).2.execution.ended = false →
      Sequence.overdue (Machine.run schedule horizon t n).2.execution = false →
      (Machine.run schedule horizon t n).2.store.isFired env.signal = false) (t : Nat) :
    Paired a env horizon (Machine.run schedule horizon t m).2
      (Machine.run schedule horizon t n).2 := by
  induction t generalizing schedule m n with
  | zero => exact h
  | succ t ih =>
    cases ended : n.execution.ended with
    | true => exact h.run_of_ended ended schedule (t + 1)
    | false =>
      rcases Nat.lt_or_ge horizon n.store.now with late | intime
      · rw [run_of_late late, run_of_late (h.now ▸ late)]
        exact h
      · obtain ⟨running, ⟨still, still'⟩ | ⟨m', n', moved, moved', next⟩⟩ :=
          h.next (diligent 0) ended intime (typed 0) (calm 0) (live 0 ended)
        · rw [run_of_stuck still, run_of_stuck still']
          exact h
        · have later := run_of_move? ended intime moved'
          rw [run_of_move? running (h.now ▸ intime) moved, later]
          exact ih next (fun u => diligent (u + 1)) (fun u => later u ▸ typed (u + 1))
            (fun u => later u ▸ calm (u + 1)) fun u => later u ▸ live (u + 1)

end Paired

theorem sound_run (sound : n.execution.Sound)
    (steady : ∀ t,
      (run schedule horizon t n).2.execution.Steady (run schedule horizon t n).2.store)
    (t : Nat) : (run schedule horizon t n).2.execution.Sound := by
  induction t with
  | zero => exact sound
  | succ t ih =>
    have steady := steady t
    rcases run_succ schedule horizon t n with same | next
    · rw [same]
      exact ih
    · have step := step_of_move? next
      generalize (run schedule horizon (t + 1) n).2 = m' at step ⊢
      cases step with
      | moves moved => exact Execution.sound_move ih steady moved
      | rings | passes => exact ih

end Machine

namespace Execution

theorem Sound.current? [Tracing H] {e x : Execution H} (h : e.Sound) (hx : e.current? = some x) :
    x.Sound := by
  induction e with
  | frame env f above ih =>
    cases f with
    | map =>
      cases hx
      exact h.2.2
    | timeout | draining => exact ih h.2.2 hx
    | _ => cases hx
  | crew env c round b =>
    rcases b with _ | ⟨i, e, _ | _⟩
    · cases hx
    · cases hx
      exact h.2.2.2.1
    · cases hx
  | _ => cases hx

end Execution

/-! Runs -/

namespace Runner

variable [Tracing H] {runner : Runner H} {signal : Signal} {alarms : List Alarm} {s : Store H}
  {schedule : Schedule} {horizon : Clock} {b : Shape H.Plain} {e : Effect H b}
  {es : List (Effect H a)}

/-- The machine of a run after so many moves. -/
def after (schedule : Schedule) (horizon : Clock) (runner : Runner H) (e : Effect H b)
    (signal : Signal) (alarms : List Alarm) (s : Store H) (t : Nat) : Machine H :=
  (Machine.run schedule horizon t (runner.beginning e signal alarms s)).2

/-- The signal that the effects of a run are under: its own, or that of its deadline. -/
def effectSignal (runner : Runner H) (signal : Signal) (s : Store H) : Signal :=
  match runner.settings.deadline with
  | none => signal
  | some _ => (s.childSignal signal).1

/-- A run of effects of the shape `a` in a sequence in which no retry and no tracer panics, each
effect that succeeds does so with a value of its own shape, and the signal does not fire before the
time of the run is over. -/
structure Undisturbed (a : Shape H.Plain) (schedule : Schedule) (horizon : Clock) (runner : Runner H)
    (e : Effect H b) (signal : Signal) (alarms : List Alarm) (s : Store H) : Prop where
  steady : ∀ t, (runner.after schedule horizon e signal alarms s t).execution.Steady
    (runner.after schedule horizon e signal alarms s t).store
  typed : ∀ t v, (runner.after schedule horizon e signal alarms s t).execution.current? =
    some (.settled (.ok v)) → v.1 = a
  quiet : ∀ t, (runner.after schedule horizon e signal alarms s t).execution.ended = false →
    Sequence.overdue (runner.after schedule horizon e signal alarms s t).execution = false →
    (runner.after schedule horizon e signal alarms s t).store.isFired
      (runner.effectSignal signal s) = false

theorem after_succ_of_ended (e : Effect H b) (t : Nat)
    (ended : (runner.after schedule horizon e signal alarms s t).execution.ended = true) :
    runner.after schedule horizon e signal alarms s (t + 1) =
      runner.after schedule horizon e signal alarms s t := by
  rcases Machine.run_add schedule horizon t (runner.beginning e signal alarms s) with
    ⟨-, -, -, stays⟩ | portions
  · exact stays 1
  · exact (portions 1).trans (Machine.run_of_ended ended _ _ _)

theorem after_succ_of_move (e : Effect H b) (t : Nat) {y : Execution H} {s' : Store H}
    (running : (runner.after schedule horizon e signal alarms s t).execution.ended = false)
    (intime : (runner.after schedule horizon e signal alarms s t).store.now ≤ horizon)
    (moved : ∀ policy, (runner.after schedule horizon e signal alarms s t).execution.move policy 0
      (runner.after schedule horizon e signal alarms s t).store = some (y, s')) :
    runner.after schedule horizon e signal alarms s (t + 1) =
      { runner.after schedule horizon e signal alarms s t with execution := y, store := s' } := by
  have next : ∀ policy, (runner.after schedule horizon e signal alarms s t).move? policy =
      some { runner.after schedule horizon e signal alarms s t with execution := y, store := s' } :=
    fun policy => Machine.move?_of_move (moved _)
  rcases Machine.run_add schedule horizon t (runner.beginning e signal alarms s) with
    ⟨u, -, stuck, -⟩ | portions
  · -- a machine that moves under any policy is not stuck
    cases stuck.symm.trans (next (schedule u))
  · exact (portions 1).trans (congrArg Prod.snd (Machine.run_of_move? running intime (next _) 0))

omit [Tracing H] in
/-- All runs begin alike. -/
theorem exists_beginning (runner : Runner H) (signal : Signal) (alarms : List Alarm) (s : Store H) :
    ∃ s₀ env alarms₀, s₀.signals = s.signals ∧ s₀.now = s.now ∧ env.signal = signal ∧
      ∀ e : Effect H b, runner.beginning e signal alarms s =
        ⟨s₀, .enter (runner.withDeadline e).node env, alarms₀⟩ := by
  let s₁ := (runner.opened signal s).2.record .runStarted
  let due := alarms.filter fun a => a.instant ≤ s₁.now
  have now : (s₁.fireAll (due.map Alarm.signal)).now = s.now := (Store.atOnce_fireAll ..).now
  exact ⟨s₁.fireAll (due.map Alarm.signal),
    ⟨(runner.opened signal s).1, signal, runner.settings.defaultConcurrency⟩,
    alarms.filter fun a => s₁.now < a.instant, Store.signals_fireAll .., now, rfl, fun _ => rfl⟩

omit [Tracing H] in
theorem effectSignal_eq {s₀ : Store H} (same : s₀.signals = s.signals) :
    runner.effectSignal signal s₀ = runner.effectSignal signal s := by
  unfold effectSignal
  split
  · rfl
  · unfold Store.childSignal
    rw [same]
    rfl

/-- The run gives what its machine has settled with. -/
theorem run_of_complete (complete : runner.lacking e = []) (fuel : Nat) :
    runner.run schedule horizon fuel e signal alarms s =
      match (runner.after schedule horizon e signal alarms s fuel).execution with
      | .settled exit => (some (.ok (exit.bind (Value.take b))),
          ((runner.after schedule horizon e signal alarms s fuel).store.record (closing exit)).release
            (runner.opened signal s).1)
      | .unwound p => (some (.error p),
          (runner.after schedule horizon e signal alarms s fuel).store.release
            (runner.opened signal s).1)
      | _ => (none, (runner.after schedule horizon e signal alarms s fuel).store) := by
  have begins : runner.launch e signal s = _ := launch_of_complete complete
  unfold run
  rw [begins]
  rfl

/-- The machine of the run of `e` forms its crew with move number `c`, and from then on goes side by
side with the machine of the run of `e'`, one move ahead. Up to then the machines are alike and
run. -/
structure InStep (a : Shape H.Plain) (schedule : Schedule) (horizon : Clock) (runner : Runner H)
    (e e' : Effect H b) (signal : Signal) (alarms : List Alarm) (s : Store H) (env : Env)
    (c : Nat) : Prop where
  before : ∀ t, t ≤ c → (runner.after schedule horizon e signal alarms s t).Alike
      (runner.after (schedule.after 1) horizon e' signal alarms s t) ∧
    (runner.after schedule horizon e signal alarms s t).execution.ended = false ∧
    (runner.after (schedule.after 1) horizon e' signal alarms s t).execution.ended = false
  paired : ∀ t, c ≤ t → Machine.Paired a env horizon
    (runner.after schedule horizon e signal alarms s (t + 1))
    (runner.after (schedule.after 1) horizon e' signal alarms s t)

/-- Once they go side by side, the machines of an undisturbed run do so all the time. -/
theorem paired_later (proper : signal.IsProper) (diligent : schedule.Diligent)
    {e e' : Effect H b}
    (undisturbed : runner.Undisturbed a (schedule.after 1) horizon e' signal alarms s)
    {env : Env} (under : env.signal = runner.effectSignal signal s) {c : Nat} {m n : Machine H}
    (crew : ∀ k, runner.after schedule horizon e signal alarms s (c + k + 1) =
      (Machine.run (schedule.after (c + 1)) horizon k m).2)
    (chain : ∀ k, runner.after (schedule.after 1) horizon e' signal alarms s (c + k) =
      (Machine.run (schedule.after (c + 1)) horizon k n).2)
    (paired : Machine.Paired a env horizon m n) {t : Nat} (hct : c ≤ t) :
    Machine.Paired a env horizon (runner.after schedule horizon e signal alarms s (t + 1))
      (runner.after (schedule.after 1) horizon e' signal alarms s t) := by
  obtain ⟨k, rfl⟩ := Nat.exists_eq_add_of_le hct
  rw [crew, chain]
  have later : (schedule.after (c + 1)).Diligent := fun u => diligent (u + (c + 1))
  refine paired.run later (fun u => ?_) (fun u p hp => ?_) (fun u => ?_) k
  · rw [← chain]
    exact undisturbed.typed (c + u)
  · have sound : (runner.beginning e' signal alarms s).execution.Sound := proper
    rw [← chain] at hp
    exact (Machine.sound_run sound undisturbed.steady (c + u)).current? hp
  · rw [← chain, under]
    exact undisturbed.quiet (c + u)

section Forming

variable (proper : signal.IsProper) (diligent : schedule.Diligent)
  (undisturbed : runner.Undisturbed a (schedule.after 1) horizon (Effect.inSequence es []) signal
    alarms s) (intime : s.now ≤ horizon)

include proper diligent undisturbed intime

/-- Without a deadline the crew forms with the first move. -/
theorem inStep_of_none (deadline : runner.settings.deadline = none) :
    ∃ env, runner.InStep a schedule horizon (Effect.gather (some 1) es) (Effect.inSequence es [])
      signal alarms s env 0 := by
  obtain ⟨s₀, env, alarms₀, -, now, own, begins⟩ :=
    exists_beginning (b := .list a) runner signal alarms s
  have begins : ∀ e : Effect H (.list a), runner.beginning e signal alarms s =
      ⟨s₀, .enter e.node env, alarms₀⟩ := by
    intro e
    have plain : runner.withDeadline e = e := by
      unfold withDeadline
      rw [deadline]
    exact (begins e).trans (by rw [plain])
  have under : env.signal = runner.effectSignal signal s := by
    unfold effectSignal
    rw [deadline, own]
  have live : s₀.isFired env.signal = false := by
    have quiet := undisturbed.quiet 0
    rw [after, begins, ← under] at quiet
    exact quiet rfl rfl
  have formed : ∀ k, runner.after schedule horizon (Effect.gather (some 1) es) signal alarms s
      (0 + k + 1) = (Machine.run (schedule.after (0 + 1)) horizon k
        ⟨s₀, .crew env (Sequence.turns [] es 0) {} .nil, alarms₀⟩).2 := by
    intro k
    rw [after, begins, Nat.zero_add]
    refine congrArg Prod.snd
      (Machine.run_of_move? rfl (now.trans_le intime) (Machine.move?_of_move ?_) k)
    exact congrArg some (Sequence.start_gather live es)
  have chain : ∀ k, runner.after (schedule.after 1) horizon (Effect.inSequence es []) signal alarms
      s (0 + k) = (Machine.run (schedule.after (0 + 1)) horizon k
        ⟨s₀, .enter (Effect.inSequence es []).node env, alarms₀⟩).2 := by
    intro k
    rw [after, begins, Nat.zero_add, Nat.zero_add]
  refine ⟨env, fun t ht => ?_, fun t ht =>
    paired_later proper diligent undisturbed under formed chain
      ⟨.bare (.between [] es rfl s₀), rfl, fun ended => absurd ended Bool.false_ne_true⟩ ht⟩
  · obtain rfl := Nat.le_zero.1 ht
    rw [after, after, begins, begins]
    exact ⟨⟨rfl, rfl, rfl⟩, rfl, rfl⟩

/-- The deadline of a run is armed with the first move, and the crew forms with the second. -/
theorem inStep_of_some {d : Duration} (deadline : runner.settings.deadline = some d) :
    ∃ env, runner.InStep a schedule horizon (Effect.gather (some 1) es) (Effect.inSequence es [])
      signal alarms s env 1 := by
  obtain ⟨s₀, env, alarms₀, signals, now, own, begins⟩ :=
    exists_beginning (b := .list a) runner signal alarms s
  have begins : ∀ e : Effect H (.list a), runner.beginning e signal alarms s =
      ⟨s₀, .enter (.timeout e.node d none) env, alarms₀⟩ := by
    intro e
    have node : (runner.withDeadline e).node = .timeout e.node d none := by
      unfold withDeadline
      rw [deadline]
      rfl
    exact (begins e).trans (by rw [node])
  obtain ⟨child, s₁, hc⟩ : ∃ child s₁, s₀.childSignal env.signal = (child, s₁) := ⟨_, _, rfl⟩
  have intime₀ : s₀.now ≤ horizon := now.trans_le intime
  have now₁ : s₁.now = s₀.now := (congrArg (fun p => p.2.now) hc).symm
  have within : ∀ (e : Effect H (.list a)) (schedule : Schedule) k,
      runner.after schedule horizon e signal alarms s (k + 1) =
        (Machine.run (schedule.after 1) horizon k
          ⟨s₁, .frame env (.timeout (s₁.now + d.ticks) d child none)
            (.enter e.node { env with signal := child }), alarms₀⟩).2 := by
    intro e schedule k
    rw [after, begins]
    refine congrArg Prod.snd (Machine.run_of_move? rfl intime₀ (Machine.move?_of_move ?_) k)
    show some (Execution.start env s₀ _) = _
    rw [Execution.start, hc]
  have under : child = runner.effectSignal signal s := by
    rw [← effectSignal_eq signals]
    unfold effectSignal
    rw [deadline, ← own]
    exact (congrArg Prod.fst hc).symm
  have live : s₁.isFired child = false := by
    have quiet := undisturbed.quiet 1
    rw [within _ _ 0, ← under] at quiet
    exact quiet rfl rfl
  have formed : ∀ k, runner.after schedule horizon (Effect.gather (some 1) es) signal alarms s
      (1 + k + 1) = (Machine.run (schedule.after (1 + 1)) horizon k
        ⟨s₁, .frame env (.timeout (s₁.now + d.ticks) d child none)
          (.crew { env with signal := child } (Sequence.turns [] es 0) {} .nil), alarms₀⟩).2 := by
    intro k
    rw [Nat.add_comm 1 k, within, ← Schedule.after_after]
    refine congrArg Prod.snd
      (Machine.run_of_move? rfl (now₁.trans_le intime₀) (Machine.move?_of_move ?_) k)
    rw [Execution.move_frame_running rfl, if_neg (by simp [Execution.going])]
    show (some (Execution.start _ s₁ _)).map _ = _
    rw [Sequence.start_gather live]
    rfl
  have chain : ∀ k, runner.after (schedule.after 1) horizon (Effect.inSequence es []) signal alarms
      s (1 + k) = (Machine.run (schedule.after (1 + 1)) horizon k
        ⟨s₁, .frame env (.timeout (s₁.now + d.ticks) d child none)
          (.enter (Effect.inSequence es []).node { env with signal := child }), alarms₀⟩).2 := by
    intro k
    rw [Nat.add_comm 1 k, within, Schedule.after_after]
  refine ⟨{ env with signal := child }, fun t ht => ?_, fun t ht =>
    paired_later proper diligent undisturbed under formed chain
      ⟨.within (.timeout ..) (.between [] es rfl s₁), rfl,
        fun ended => absurd ended Bool.false_ne_true⟩ ht⟩
  · rcases Nat.le_one_iff_eq_zero_or_eq_one.1 ht with rfl | rfl
    · rw [after, after, begins, begins]
      exact ⟨⟨rfl, rfl, rfl⟩, rfl, rfl⟩
    · rw [within _ _ 0, within _ _ 0]
      exact ⟨⟨rfl, rfl, rfl⟩, rfl, rfl⟩

theorem exists_inStep : ∃ c env, c ≤ 1 ∧ runner.InStep a schedule horizon
    (Effect.gather (some 1) es) (Effect.inSequence es []) signal alarms s env c := by
  cases deadline : runner.settings.deadline with
  | none =>
    obtain ⟨env, together⟩ := inStep_of_none proper diligent undisturbed intime deadline
    exact ⟨0, env, Nat.zero_le 1, together⟩
  | some d =>
    obtain ⟨env, together⟩ := inStep_of_some proper diligent undisturbed intime deadline
    exact ⟨1, env, le_rfl, together⟩

end Forming

omit [Tracing H] in
theorem lacking_inSequence (complete : runner.lacking (Effect.gather (some 1) es) = []) :
    runner.lacking (Effect.inSequence es []) = [] := by
  cases es with
  | nil => rfl
  | cons e rest =>
    refine List.filter_eq_nil_iff.2 fun k hk lacks => ?_
    have required : k ∈ Effect.requirementsOf (e :: rest) :=
      Effect.mem_requirementsOf.2 ⟨e, List.mem_cons_self, hk⟩
    exact List.filter_eq_nil_iff.1 complete k required lacks

/-- The results of two runs whose machines have settled alike. -/
theorem run_eq_of_alike {schedule' : Schedule} {e' : Effect H b} {fuel fuel' : Nat} {exit : Exit H}
    (complete : runner.lacking e = []) (complete' : runner.lacking e' = [])
    (settled : (runner.after schedule horizon e signal alarms s fuel).execution = .settled exit)
    (settled' : (runner.after schedule' horizon e' signal alarms s fuel').execution = .settled exit)
    (stores : (runner.after schedule horizon e signal alarms s fuel).store =
      { (runner.after schedule' horizon e' signal alarms s fuel').store with
        trace := (runner.after schedule horizon e signal alarms s fuel).store.trace }) :
    ∃ result s₁ s₂, runner.run schedule horizon fuel e signal alarms s = (some result, s₁) ∧
      runner.run schedule' horizon fuel' e' signal alarms s = (some result, s₂) ∧
      s₁ = { s₂ with trace := s₁.trace } := by
  rw [run_of_complete complete, run_of_complete complete', settled, settled']
  refine ⟨_, _, _, rfl, rfl, ?_⟩
  generalize (runner.after schedule horizon e signal alarms s fuel).store = s₁ at stores
  generalize (runner.after schedule' horizon e' signal alarms s fuel').store = s₂ at stores
  rw [stores]
  rfl

/-- A run has no result before its machine has ended. -/
theorem ended_of_result (complete : runner.lacking e = []) {fuel : Nat} {result : RunResult H b}
    {s' : Store H} (h : runner.run schedule horizon fuel e signal alarms s = (some result, s')) :
    (runner.after schedule horizon e signal alarms s fuel).execution.ended = true := by
  rw [run_of_complete complete] at h
  cases hx : (runner.after schedule horizon e signal alarms s fuel).execution with
  | settled | unwound => rfl
  | _ =>
    rw [hx] at h
    cases h

namespace InStep

variable {c fuel t : Nat} {env : Env} {e' : Effect H b} {result : RunResult H b} {s' : Store H}

/-- When the crew has settled, the chain has too. -/
theorem settled_of_crew (h : runner.InStep a schedule horizon e e' signal alarms s env c)
    (ended : (runner.after schedule horizon e signal alarms s t).execution.ended = true) :
    ∃ exit, (runner.after schedule horizon e signal alarms s t).execution = .settled exit ∧
      (runner.after (schedule.after 1) horizon e' signal alarms s t).execution = .settled exit ∧
      (runner.after schedule horizon e signal alarms s t).store =
        { (runner.after (schedule.after 1) horizon e' signal alarms s t).store with
          trace := (runner.after schedule horizon e signal alarms s t).store.trace } := by
  have formed : c < t := by
    by_contra before
    exact Bool.false_ne_true ((h.before t (Nat.le_of_not_lt before)).2.1.symm.trans ended)
  cases t with
  | zero => cases formed
  | succ t =>
    have beside := (h.paired t (Nat.le_of_lt_succ formed)).beside
    obtain ⟨exit, settled, settled'⟩ := beside.ended ended
    have stays : runner.after (schedule.after 1) horizon e' signal alarms s (t + 1) =
        runner.after (schedule.after 1) horizon e' signal alarms s t := by
      exact after_succ_of_ended e' t (by rw [settled']; rfl)
    rw [stays]
    exact ⟨exit, settled, settled', beside.stores⟩

/-- When the chain has settled, the crew has too after two more moves at most. -/
theorem settled_of_chain (h : runner.InStep a schedule horizon e e' signal alarms s env c)
    (ended : (runner.after (schedule.after 1) horizon e' signal alarms s t).execution.ended = true) :
    ∃ exit, (runner.after schedule horizon e signal alarms s (t + 2)).execution = .settled exit ∧
      (runner.after (schedule.after 1) horizon e' signal alarms s t).execution = .settled exit ∧
      (runner.after schedule horizon e signal alarms s (t + 2)).store =
        { (runner.after (schedule.after 1) horizon e' signal alarms s t).store with
          trace := (runner.after schedule horizon e signal alarms s (t + 2)).store.trace } := by
  have formed : c < t := by
    by_contra before
    exact Bool.false_ne_true ((h.before t (Nat.le_of_not_lt before)).2.2.symm.trans ended)
  have here := h.paired t formed.le
  obtain ⟨exit, settled', settled | ⟨running, moved⟩⟩ := here.beside.ends ended
  · have stays : runner.after schedule horizon e signal alarms s (t + 2) =
        runner.after schedule horizon e signal alarms s (t + 1) := by
      exact after_succ_of_ended e (t + 1) (by rw [settled, settled']; rfl)
    rw [stays]
    exact ⟨exit, settled.trans settled', settled', here.beside.stores⟩
  · have intime : (runner.after schedule horizon e signal alarms s (t + 1)).store.now ≤ horizon :=
      here.now ▸ here.intime ended
    rw [after_succ_of_move e (t + 1) running intime moved]
    exact ⟨exit, rfl, settled', here.beside.stores⟩

theorem result_of_crew (h : runner.InStep a schedule horizon e e' signal alarms s env c)
    (complete : runner.lacking e = []) (complete' : runner.lacking e' = [])
    (given : runner.run schedule horizon fuel e signal alarms s = (some result, s')) :
    ∃ s'', runner.run (schedule.after 1) horizon fuel e' signal alarms s = (some result, s'') ∧
      s' = { s'' with trace := s'.trace } := by
  obtain ⟨exit, settled, settled', stores⟩ := h.settled_of_crew (ended_of_result complete given)
  obtain ⟨_, _, s₂, given₁, given₂, same⟩ :=
    run_eq_of_alike complete complete' settled settled' stores
  cases given₁.symm.trans given
  exact ⟨s₂, given₂, same⟩

theorem result_of_chain (h : runner.InStep a schedule horizon e e' signal alarms s env c)
    (complete : runner.lacking e = []) (complete' : runner.lacking e' = [])
    (given : runner.run (schedule.after 1) horizon fuel e' signal alarms s = (some result, s')) :
    ∃ s'', runner.run schedule horizon (fuel + 2) e signal alarms s = (some result, s'') ∧
      s'' = { s' with trace := s''.trace } := by
  obtain ⟨exit, settled, settled', stores⟩ := h.settled_of_chain (ended_of_result complete' given)
  obtain ⟨_, s₁, _, given₁, given₂, same⟩ :=
    run_eq_of_alike complete complete' settled settled' stores
  cases given₂.symm.trans given
  exact ⟨s₁, given₁, same⟩

end InStep

/-- A run whose time is over before it begins does not begin. -/
theorem stays_of_late (late : horizon < s.now) : ∃ s₀ env alarms₀,
    ∀ (schedule : Schedule) (e : Effect H b) t, runner.after schedule horizon e signal alarms s t =
      ⟨s₀, .enter (runner.withDeadline e).node env, alarms₀⟩ := by
  obtain ⟨s₀, env, alarms₀, -, now, -, begins⟩ := exists_beginning (b := b) runner signal alarms s
  refine ⟨s₀, env, alarms₀, fun schedule e t => ?_⟩
  unfold after
  rw [begins]
  exact Machine.run_of_late (now.symm ▸ late) schedule t

/-- All effects one at a time are the effects one after the other: the same effect is under way at
the same instants in the same store, and the results are the same. This holds of all runs that are
begun and not disturbed, whatever policy each move follows, and runs that lack the same keys are
refused alike. The first move of the crew is one that the chain does not make, so the chain follows
the schedule from its second policy on. -/
theorem gather_one_is_sequence (runner : Runner H) (es : List (Effect H a))
    (e : Effect H (.list a)) (built : Effect.allWithConcurrency es 1 = .ok e) (signal : Signal)
    (proper : signal.IsProper) (alarms : List Alarm) (s : Store H) (schedule : Schedule)
    (diligent : schedule.Diligent) (horizon : Clock) :
    (runner.lacking e = runner.lacking (Effect.inSequence es []) → runner.lacking e ≠ [] →
      ∀ fuel, runner.run schedule horizon fuel e signal alarms s =
        runner.run (schedule.after 1) horizon fuel (Effect.inSequence es []) signal alarms s) ∧
    (runner.lacking e = [] →
      runner.Undisturbed a (schedule.after 1) horizon (Effect.inSequence es []) signal alarms s →
      (∃ c, c ≤ 1 ∧
        (∀ t, t ≤ c → (runner.after schedule horizon e signal alarms s t).Alike
          (runner.after (schedule.after 1) horizon (Effect.inSequence es []) signal alarms s t)) ∧
        ∀ t, c ≤ t → (runner.after schedule horizon e signal alarms s (t + 1)).Alike
          (runner.after (schedule.after 1) horizon (Effect.inSequence es []) signal alarms s t)) ∧
      (∀ fuel result s', runner.run schedule horizon fuel e signal alarms s = (some result, s') →
        ∃ s'', runner.run (schedule.after 1) horizon fuel (Effect.inSequence es []) signal alarms s =
          (some result, s'') ∧ s' = { s'' with trace := s'.trace }) ∧
      ∀ fuel result s'',
        runner.run (schedule.after 1) horizon fuel (Effect.inSequence es []) signal alarms s =
          (some result, s'') →
        ∃ s', runner.run schedule horizon (fuel + 2) e signal alarms s = (some result, s') ∧
          s' = { s'' with trace := s'.trace }) := by
  obtain rfl : Effect.gather (some 1) es = e := by simpa [Effect.allWithConcurrency] using built
  constructor
  · intro same lacks fuel
    unfold run
    rw [launch_of_lacking lacks, launch_of_lacking (same ▸ lacks), same]
  · intro complete undisturbed
    have complete' := lacking_inSequence complete
    rcases Nat.lt_or_ge horizon s.now with late | intime
    · obtain ⟨s₀, env, alarms₀, stays⟩ : ∃ s₀ env alarms₀, ∀ (schedule : Schedule)
          (e : Effect H (.list a)) t, runner.after schedule horizon e signal alarms s t =
            ⟨s₀, .enter (runner.withDeadline e).node env, alarms₀⟩ := stays_of_late late
      have running : ∀ (schedule : Schedule) (e : Effect H (.list a)) t,
          (runner.after schedule horizon e signal alarms s t).execution.ended ≠ true := by
        intro schedule e t
        rw [stays]
        exact Bool.false_ne_true
      refine ⟨⟨0, Nat.zero_le 1, fun t _ => ?_, fun t _ => ?_⟩, fun fuel result s' given => ?_,
        fun fuel result s' given => ?_⟩
      · rw [stays, stays]
        exact ⟨rfl, rfl, rfl⟩
      · rw [stays, stays]
        exact ⟨rfl, rfl, rfl⟩
      · exact absurd (ended_of_result complete given) (running _ _ fuel)
      · exact absurd (ended_of_result complete' given) (running _ _ fuel)
    · obtain ⟨c, env, hc, together⟩ := exists_inStep proper diligent undisturbed intime
      exact ⟨⟨c, hc, fun t ht => (together.before t ht).1,
          fun t ht => (together.paired t ht).alike⟩,
        fun _ _ _ given => together.result_of_crew complete complete' given,
        fun _ _ _ given => together.result_of_chain complete complete' given⟩

/-- Counts, and delivers the count before. -/
def counted : Effect Host.counting (.plain ()) :=
  .sync fun _ (n : Nat) => ⟨(n + 1 : Nat), [], .ok (.ok n)⟩

def countingStore : Store Host.counting := { user := (0 : Nat), signals := ⟨1⟩ }

def countedTwice (t : Nat) : Machine Host.counting :=
  bareRunner.after .standard 0 (Effect.inSequence [counted, counted] []) (.root 0) []
    countingStore t

theorem countedTwice_stays (t : Nat) : countedTwice (t + 7) = countedTwice 7 := by
  induction t with
  | zero => rfl
  | succ t ih => exact (after_succ_of_ended _ (t + 7) (by rw [← countedTwice, ih]; rfl)).trans ih

theorem undisturbed_countedTwice : bareRunner.Undisturbed (.plain ()) .standard 0
    (Effect.inSequence [counted, counted] []) (.root 0) [] countingStore where
  steady t := by
    show (countedTwice t).execution.Steady (countedTwice t).store
    rcases t with _ | _ | _ | _ | _ | _ | _ | t
    · trivial
    · exact ⟨nofun, trivial⟩
    · exact ⟨fun _ _ => trivial, trivial⟩
    · trivial
    · exact ⟨nofun, trivial⟩
    · exact ⟨fun _ _ => trivial, trivial⟩
    · trivial
    · rw [countedTwice_stays t]
      trivial
  typed t v h := by
    change (countedTwice t).execution.current? = _ at h
    rcases t with _ | _ | _ | _ | _ | _ | _ | t
    · cases h
    · cases h
    · cases h
      rfl
    · cases h
    · cases h
    · cases h
      rfl
    · cases h
    · rw [countedTwice_stays t] at h
      cases h
  quiet t running _ := by
    change (countedTwice t).execution.ended = false at running
    show (countedTwice t).store.isFired (.root 0) = false
    rcases t with _ | _ | _ | _ | _ | _ | _ | t
    iterate 7 rfl
    rw [countedTwice_stays t] at running
    cases running

/-- One at a time, two effects that count deliver the first two numbers. -/
theorem two_count_in_turn : ∃ s', bareRunner.run .standard 0 10
    (Effect.gather (some 1) [counted, counted]) (.root 0) [] countingStore =
      (some (.ok (.ok [(0 : Nat), (1 : Nat)])), s') ∧ s'.user = (2 : Nat) := by
  obtain ⟨-, -, -, results⟩ := (gather_one_is_sequence bareRunner [counted, counted] _ rfl (.root 0)
    (Nat.le_refl 1) [] countingStore .standard Schedule.diligent_standard 0).imp_right
    fun runs => runs rfl undisturbed_countedTwice
  obtain ⟨s', given, same⟩ := results 8 (.ok (.ok [(0 : Nat), (1 : Nat)])) _ rfl
  exact ⟨s', given, congrArg Store.user same⟩

/-- A service that is not bound, as a number. -/
def unbound : Effect Host.counting (.plain ()) :=
  (Effect.service ⟨"A", .plain ()⟩).map fun _ => Code.pure (0 : Nat)

/-- A host like the counting one, with a tracer that keeps outcomes. Its state says whether a
success of the shape `unit` is kept, and holds the count. -/
def stashing : Host where
  Plain := Unit
  decPlain := inferInstance
  El _ := Nat
  State := Bool × Nat
  Tracer := Unit
  shapeName _ := "u64"
  kindName _ := "u64"

/-- A span settles with the outcome that was kept, and its own outcome is kept instead. -/
instance : Tracing stashing where
  before _ _ _ := .done (.ok ⟨.unit, ()⟩)
  after _ _ exit := .act
    (fun _ s => (match exit with
      | .ok ⟨.unit, _⟩ => true
      | _ => false, s.2))
    fun _ s => .done (if s.1 then .ok ⟨.unit, ()⟩ else .error (.ofMessage "nothing held"))

def stashingRunner : Runner stashing :=
  { provider := ⟨1, OrderedMap.empty.set (Token.tracer stashing).key
      (.constant ⟨.tracer, ⟨.constant 0, .custom ()⟩⟩)⟩ }

/-- Its outcome, a success of the shape `unit`, is kept. -/
def kept : Effect stashing (.plain ()) :=
  ((Effect.succeed () : Effect stashing .unit).span "kept" []).map fun _ => Code.pure (0 : Nat)

def seventh : Effect stashing (.plain ()) := .succeed (7 : Nat)

/-- The second effect settles with the outcome that the first has left. The third one counts. -/
def swapped : List (Effect stashing (.plain ())) :=
  [kept.catchAll fun _ => Code.pure (.succeed (0 : Nat)), seventh.span "swapped" [],
    .sync fun _ s => ⟨(s.1, s.2 + 1), [], .ok (.ok s.2)⟩]

def stashingStore : Store stashing := { user := (false, (0 : Nat)), signals := ⟨1⟩ }

/-- Where a key of the second effect is not bound, all are refused before the first begins; and
where an effect succeeds with a value of another shape, the next ones begin before that is found
out. No signal fires in these runs. -/
theorem gather_one_may_differ :
    (∃ s₁ s₂, bareRunner.run .standard 0 10 (Effect.gather (some 1) [counted, unbound]) (.root 0) []
        countingStore = (some (.ok (.error (.missingRequirements ["A"]))), s₁) ∧
      bareRunner.run .standard 0 10 (Effect.inSequence [counted, unbound] []) (.root 0) []
        countingStore = (some (.ok (.error (.tokenNotProvided "A"))), s₂) ∧
      s₁.fired = [] ∧ s₂.fired = [] ∧ s₁.user = (0 : Nat) ∧ s₂.user = (1 : Nat)) ∧
    ∃ f s₁ s₂, stashingRunner.run .standard 0 60 (Effect.gather (some 1) swapped) (.root 0) []
        stashingStore = (some (.ok (.error f)), s₁) ∧
      stashingRunner.run .standard 0 60 (Effect.inSequence swapped []) (.root 0) []
        stashingStore = (some (.ok (.error f)), s₂) ∧
      s₁.fired = [] ∧ s₂.fired = [] ∧ s₁.user = (false, (1 : Nat)) ∧ s₂.user = (false, (0 : Nat)) :=
  ⟨⟨_, _, rfl, rfl, rfl, rfl, rfl, rfl⟩, _, _, _, rfl, rfl, rfl, rfl, rfl, rfl⟩

end Runner

end ScopedEffects
