import ScopedEffects.Proofs.Execution.Cancelled
import ScopedEffects.Proofs.Execution.Heeding
import ScopedEffects.Proofs.Traffic.Readiness

/-! Cancellation is prompt. An execution that heeds a signal which has fired, and which cannot move,
waits for a tracer or for a finalizer, since every other wait ends with the signal. Executions come to
rest, and no time passes while they move. So a run settles at the instant at which its signal fires,
unless a tracer or a finalizer holds it up. -/

namespace ScopedEffects

variable {H : Host} {s s' : Store H}

namespace Execution

variable [Tracing H] {spans : Prop} {g : Signal} {env : Env} {e e' : Execution H} {policy : Policy}
  {depth : Nat}

/-! What cannot move -/

omit [Tracing H] in
theorem readyBranches_ne_nil {b : Branches H} {i : Nat} (h : b.find? i = some e)
    (ready : e.ready s = true) : readyBranches s b ≠ [] := by
  induction b with
  | nil => cases h
  | cons j f rest ih =>
    rw [readyBranches]
    split
    · exact List.cons_ne_nil j _
    · rename_i waits
      rcases Branches.find?_cons h with ⟨-, rfl⟩ | h
      · exact absurd ready waits
      · exact ih h

omit [Tracing H] in
theorem readyBranches_subset (s : Store H) (b : Branches H) : readyBranches s b ⊆ b.indices := by
  induction b with
  | nil => exact List.Subset.refl _
  | cons j f rest ih =>
    rw [readyBranches]
    split
    · exact List.cons_subset_cons j ih
    · exact List.subset_cons_of_subset j ih

omit [Tracing H] in
/-- What a poll lets go on is ready, -/
theorem ready_of_going (h : e.going policy depth s = true) : e.ready s = true := by
  induction e generalizing depth with
  | enter => rfl
  | task guard t =>
    unfold going at h
    unfold ready
    simp only [Bool.or_eq_true] at h ⊢
    exact h.imp_left (.imp_right Task.canMove_of_goesOn)
  | pause => exact h
  | frame env f above ih =>
    rw [going] at h
    rw [ready]
    simp only [Bool.or_eq_true] at h ⊢
    exact h.imp_left (.imp_right ih)
  | crew env c round b ih =>
    rw [going] at h
    rw [ready]
    simp only [Bool.or_eq_true, Bool.and_eq_true] at h ⊢
    rcases h with (h | goes) | ⟨⟨some_asked, -⟩, -⟩
    · exact .inl h
    · obtain ⟨i, -, goes⟩ := (Option.any_eq_true ..).1 goes
      rw [branchGoing_eq] at goes
      obtain ⟨f, found, goes⟩ := (Option.any_eq_true ..).1 goes
      have some_ready := readyBranches_ne_nil found (ih i f found goes)
      exact .inr (by simpa using some_ready)
    · obtain ⟨i, some_ready, -⟩ := List.any_eq_true.1 some_asked
      exact .inr (by simpa using List.ne_nil_of_mem some_ready)
  | settled | unwound => cases h

omit [Tracing H] in
/-- and a poll that begins lets everything go on that is ready. -/
theorem going_anew (begins : policy.anew = true) (depth : Nat) (s : Store H) (e : Execution H) :
    e.going policy depth s = e.ready s := by
  induction e generalizing depth with
  | task guard t =>
    unfold going ready
    rw [begins, Task.goesOn_anew]
  | frame env f above ih => rw [going, ih, ready]
  | crew env c round b ih =>
    refine Bool.eq_iff_iff.2 ⟨ready_of_going, fun able => ?_⟩
    rw [ready] at able
    rw [going, begins]
    simp only [Bool.or_eq_true] at able ⊢
    refine able.imp .inl fun some_ready => ?_
    obtain ⟨i, hi⟩ := List.exists_mem_of_ne_nil (readyBranches s b) (by simpa using some_ready)
    have length : 0 < b.length := by
      cases b with
      | nil => cases hi
      | cons => exact Nat.succ_pos _
    simpa [Poll.polled, length] using ⟨i, hi⟩
  | _ => rfl

/-- What moves was ready. -/
theorem ready_of_move (hm : e.move policy depth s = some (e', s')) : e.ready s = true := by
  induction e generalizing policy depth e' s' with
  | enter => rfl
  | task guard t =>
    rw [Execution.move] at hm
    cases moveTask_moves hm with
    | settles ended | unwinds ended | catches ended => simp [ready, Task.ended, ended]
    | aborts _ guarded fired => simp [ready, guarded, fired]
    | steps _ _ able => simp [ready, able]
  | pause till env n p attempt =>
    rw [Execution.move] at hm
    rw [ready]
    split at hm
    · rename_i fired
      simp [fired]
    · split at hm
      · rename_i due
        simp [due]
      · cases hm
  | frame env f above ih =>
    rw [ready]
    cases move_frame hm with
    | resumes settled =>
      subst settled
      rfl
    | passes unwound =>
      subst unwound
      rfl
    | moves _ moved => simp [ih moved]
    | expires _ timeout due =>
      subst timeout
      simp [Frame.expired, due]
  | crew env c round b ih =>
    rw [ready]
    rcases move_crew_cases hm with kept | ⟨-, i, f, f', line, _, found, hf, -⟩
    · unfold moveCrew at kept
      split at kept
      · rename_i panicked
        simp [panicked]
      · rename_i settled
        simp [settled]
      · rename_i admits
        simp [admits]
      · split at kept
        · rename_i empty
          simp [empty]
        · cases kept
    · have some_ready := readyBranches_ne_nil found (ih i f found hf)
      simp [some_ready]
  | settled | unwound => rw [Execution.move] at hm; cases hm

omit [Tracing H] in
theorem moveTask_none (diligent : policy.Diligent) {guard : Guard} {t : Task H}
    (h : moveTask policy depth s guard t = none) :
    t.ended = false ∧ t.canMove s = false ∧ ∀ c, guard = .signal c → s.isFired c = false := by
  unfold moveTask at h
  split at h
  · cases h
  · split at h <;> cases h
  · rename_i running
    split at h
    · cases h
    · rename_i heard
      split at h
      · rename_i able
        obtain ⟨moved, step⟩ := Task.exists_step diligent able depth
        rw [step] at h
        cases h
      · rename_i blocked
        have held : t.goesOn policy.anew s = false :=
          Bool.eq_false_iff.2 fun goes => blocked (Task.canMove_of_goesOn goes)
        refine ⟨by simp [Task.ended, running], Bool.eq_false_iff.2 blocked, ?_⟩
        rintro c rfl
        simpa [Guard.interrupts, held] using heard

omit [Tracing H] in
theorem expire_of_expired {f : Frame H} (h : f.expired s.now = true) (env : Env)
    (above : Execution H) : ∃ moved, f.expire env above s = some moved := by
  cases f with
  | timeout deadline after child fallback => exact ⟨_, if_pos (of_decide_eq_true h)⟩
  | _ => cases h

/-- As long as a frame does not move, what is above it goes on, and does not move either. -/
theorem move_frame_none {f : Frame H} {above : Execution H}
    (h : (frame env f above).move policy depth s = none) :
    above.ended = false ∧ above.move policy (depth + 1) s = none ∧
      (f.expired s.now = true → above.going policy (depth + 1) s = true) := by
  have running : above.ended = false := by
    cases above with
    | settled exit => cases (move_frame_settled f exit).symm.trans h
    | unwound p => cases (move_frame_unwound f p).symm.trans h
    | _ => rfl
  rw [move_frame_running running] at h
  split at h
  · -- a frame whose time is over would have moved
    rename_i lapses
    obtain ⟨moved, expires⟩ := expire_of_expired (Bool.and_eq_true_iff.1 lapses).1 env above
    rw [expires] at h
    cases h
  · rename_i open_still
    exact ⟨running, Option.map_eq_none_iff.1 h, fun due => by simpa [due] using open_still⟩

/-- When a crew is idle and still does not move, there is a branch that does not move either. -/
theorem exists_branch_of_move_none (diligent : policy.Diligent) {c : Crew H} {round : Round}
    {b : Branches H} (h : (crew env c round b).move policy depth s = none) :
    Idle env c b ∧ ∃ i f anew, b.find? i = some f ∧
      f.move { policy with anew := anew } (depth + 1) s = none := by
  rw [move] at h
  cases hk : moveCrew s env c round b with
  | some moved =>
    rw [hk] at h
    cases h
  | none =>
    have idle := moveCrew_none_iff.1 hk
    refine ⟨idle, ?_⟩
    simp only [hk] at h
    by_cases none_ready : readyBranches s b = []
    · cases b with
      | nil => cases idle.running
      | cons i f rest =>
        have found : (Branches.cons i f rest).find? i = some f := by
          rw [Branches.find?, if_pos rfl]
        refine ⟨i, f, false, found, ?_⟩
        by_contra moved
        obtain ⟨moved, hm⟩ := Option.ne_none_iff_exists'.1 moved
        exact readyBranches_ne_nil found (ready_of_move hm) none_ready
    · obtain ⟨i, hi, chosen⟩ := diligent.exists_choice depth round.queue none_ready
      obtain ⟨f, found⟩ := Branches.mem_indices_iff.1 (readyBranches_subset s b hi)
      simp only [chosen, moveBranch_eq, found, Option.bind_some, Option.map_eq_none_iff] at h
      exact ⟨i, f, _, found, h⟩

omit [Tracing H] in
theorem running_of_idle {c : Crew H} {b : Branches H} {i : Nat} (h : Idle env c b)
    (found : b.find? i = some e) : e.ended = false := by
  cases e with
  | settled => cases Branches.exit?_none h.unsettled found
  | unwound => cases Branches.panic?_none h.calm found
  | _ => rfl

/-- The execution waits although its signal has fired: for the tracer of a span, or for the effect of a
finalizer. -/
inductive HeldUp (spans : Prop) (policy : Policy) (s : Store H) : Execution H → Prop
  | tracer {env n name attributes t} (h : spans) (fired : s.isFired env.signal = true)
      (running : t.ended = false) (blocked : t.canMove s = false) :
      HeldUp spans policy s (.frame env (.acquire n name attributes) (.task .bare t))
  | finalizer {env exit x anew depth} (running : x.ended = false)
      (blocked : x.move { policy with anew := anew } depth s = none) :
      HeldUp spans policy s (.frame env (.ensured exit) x)

/-- What neither ends nor moves although its signal has fired is held up. -/
theorem exists_heldUp (diligent : policy.Diligent) (h : e.Heeds spans g)
    (fired : s.isFired g = true) (running : e.ended = false) {anew : Bool}
    (blocked : e.move { policy with anew := anew } depth s = none) :
    ∃ α x, e.outer? α = some x ∧ x.HeldUp spans policy s := by
  have under : ∀ {c : Signal}, c.descendsFrom g = true → s.isFired c = true := fun descends =>
    Store.isFired_of_descends descends fired
  have diligent (anew : Bool) := diligent.anew anew
  induction e generalizing depth anew with
  | enter => rw [Execution.move] at blocked; cases blocked
  | task guard t =>
    rw [Execution.move] at blocked
    obtain ⟨unended, immovable, heard⟩ := moveTask_none (diligent anew) blocked
    cases h with
    | @task c _ hc =>
      -- what cannot go on is abandoned, since its signal has fired
      have silent := heard c rfl
      rw [under hc] at silent
      cases silent
    | @tracer p hp =>
      cases p with
      | done | panic => cases unended
      | act | fire | record | isFired => cases immovable
      | _ => exact hp.elim
  | pause till env n p attempt =>
    cases h with
    | pause _ hc =>
      rw [Execution.move, if_pos (under hc)] at blocked
      cases blocked
  | frame env f above ih =>
    obtain ⟨unended, still, -⟩ := move_frame_none blocked
    by_cases finalizes : ∃ exit, f = .ensured exit
    · obtain ⟨exit, rfl⟩ := finalizes
      exact ⟨[], _, rfl, .finalizer unended still⟩
    · have outer : (frame env f above).outerPart? .above = some above := by
        cases f with
        | ensured exit => exact absurd ⟨exit, rfl⟩ finalizes
        | _ => rfl
      cases h with
      | frame _ _ ha =>
        obtain ⟨α, x, hx, held⟩ := ih ha unended still
        refine ⟨.above :: α, x, ?_, held⟩
        show ((frame env f above).outerPart? .above).bind _ = _
        rw [outer]
        exact hx
      | ensured => exact absurd ⟨_, rfl⟩ finalizes
      | acquire hf hc =>
        -- nothing but the tracer itself ends this wait
        rw [Execution.move] at still
        obtain ⟨unended, immovable, -⟩ := moveTask_none (diligent anew) still
        exact ⟨[], _, rfl, .tracer (hf.2 _ _ _ rfl) (under hc) unended immovable⟩
  | crew env c round b ih =>
    obtain ⟨idle, i, f, _, found, still⟩ := exists_branch_of_move_none (diligent anew) blocked
    cases h with
    | crew _ _ hb =>
      have heeds := hb f (Branches.has_of_find? found)
      obtain ⟨α, x, hx, held⟩ := ih i f found heeds (running_of_idle idle found) still
      refine ⟨.branch i :: α, x, ?_, held⟩
      show (b.find? i).bind _ = _
      rw [found]
      exact hx
  | settled | unwound => cases running

end Execution

/-! Under a signal that has fired, a machine comes to a stop at once -/

section Stories

variable [Tracing H] {spans : Prop} {g : Signal} {policy : Policy} {schedule : Schedule}
  {m m' : Machine H} {q : Story H} {t : Nat}

theorem Machine.Step.heeds (tracers : Tracing.Immediate H) (h : m.Step m')
    (hm : m.execution.Heeds spans g) : m'.execution.Heeds spans g := by
  cases h with
  | moves moved => exact hm.move tracers moved
  | rings | passes => exact hm

theorem Story.heeds (tracers : Tracing.Immediate H) (h : (q.state 0).execution.Heeds spans g)
    (ht : t ≤ q.last) : (q.state t).execution.Heeds spans g := by
  induction t with
  | zero => exact h
  | succ t ih => exact (q.step t ht).heeds tracers (ih (Nat.le_of_succ_le ht))

theorem Machine.Moves.now (h : m.Moves policy m') : m'.store.now = m.store.now := by
  obtain ⟨e, s, hm, rfl⟩ := h
  exact (Execution.works_move hm).atOnce.now

theorem Story.MovesUnder.now (h : q.MovesUnder schedule) (ht : t ≤ q.last) :
    (q.state t).store.now = (q.state 0).store.now := by
  induction t with
  | zero => rfl
  | succ t ih => exact (h t ht).now.trans (ih (Nat.le_of_succ_le ht))

/-- The machine settles at the instant it is at, or is held up there. -/
theorem Machine.comes_to_stop (diligent : schedule.Diligent) (tracers : Tracing.Immediate H)
    (heeds : m.execution.Heeds spans g) (fired : m.store.isFired g = true) :
    ∃ q : Story H, q.state 0 = m ∧ q.MovesUnder schedule ∧
      ((q.state q.last).execution.ended = true ∨
        ∃ α x, (q.state q.last).execution.outer? α = some x ∧
          x.HeldUp spans (schedule q.last) (q.state q.last).store) := by
  obtain ⟨q, first, moves, blocked⟩ := Machine.exists_rest schedule m
  refine ⟨q, first, moves, ?_⟩
  subst first
  cases running : (q.state q.last).execution.ended with
  | true => exact .inl rfl
  | false =>
    have still := Story.heeds tracers heeds (Nat.le_refl q.last)
    have fired := Story.isFired_of_before (Nat.zero_le _) (Nat.le_refl q.last) fired
    exact .inr (Execution.exists_heldUp (diligent q.last) still fired running blocked)

/-! Runs of the machine -/

theorem Machine.run_of_ended (ended : m.execution.ended = true) (schedule : Schedule)
    (horizon : Clock) (k : Nat) : (Machine.run schedule horizon k m).2 = m := by
  cases k with
  | zero => rfl
  | succ k => rw [Machine.run, if_pos ended]

theorem Machine.run_of_late {horizon : Clock} (late : horizon < m.store.now) (schedule : Schedule)
    (k : Nat) : (Machine.run schedule horizon k m).2 = m := by
  cases k with
  | zero => rfl
  | succ k =>
    rw [Machine.run, if_pos late]
    split <;> rfl

theorem Machine.run_of_stuck {horizon : Clock} (stuck : m.move? (schedule 0) = none) (k : Nat) :
    (Machine.run schedule horizon k m).2 = m := by
  cases k with
  | zero => rfl
  | succ k =>
    rw [Machine.run, stuck]
    split
    · rfl
    · split <;> rfl

theorem Machine.run_of_move? {horizon : Clock} {m' : Machine H}
    (running : m.execution.ended = false) (intime : m.store.now ≤ horizon)
    (next : m.move? (schedule 0) = some m') (k : Nat) :
    Machine.run schedule horizon (k + 1) m = Machine.run (schedule.after 1) horizon k m' := by
  rw [Machine.run, running, if_neg Bool.false_ne_true, if_neg (Nat.not_lt.2 intime), next]

/-- A run gets stuck before its moves are used up. -/
def Machine.Sticks (schedule : Schedule) (horizon : Clock) (n : Nat) (m : Machine H) : Prop :=
  ∃ t, t < n ∧ (Machine.run schedule horizon n m).2.move? (schedule t) = none ∧
    ∀ k, (Machine.run schedule horizon (n + k) m).2 = (Machine.run schedule horizon n m).2

/-- The moves of a run can be made in two portions, unless it gets stuck in the first. -/
theorem Machine.run_add (schedule : Schedule) (horizon : Clock) (n : Nat) (m : Machine H) :
    Machine.Sticks schedule horizon n m ∨
      ∀ k, (Machine.run schedule horizon (n + k) m).2 =
        (Machine.run (schedule.after n) horizon k (Machine.run schedule horizon n m).2).2 := by
  induction n generalizing schedule m with
  | zero => exact .inr fun k => by rw [Nat.zero_add]; rfl
  | succ n ih =>
    cases ended : m.execution.ended with
    | true => exact .inr fun k => by simp only [run_of_ended ended]
    | false =>
      rcases Nat.lt_or_ge horizon m.store.now with late | intime
      · exact .inr fun k => by simp only [run_of_late late]
      · cases hm : m.move? (schedule 0) with
        | none =>
          refine .inl ⟨0, Nat.succ_pos n, by rwa [run_of_stuck hm], fun k => ?_⟩
          rw [run_of_stuck hm, run_of_stuck hm]
        | some m' =>
          have goes := run_of_move? ended intime hm
          refine (ih (schedule.after 1) m').imp ?_ fun portions k => ?_
          · rintro ⟨t, less, stuck, stays⟩
            refine ⟨t + 1, Nat.succ_lt_succ less, by rwa [goes], fun k => ?_⟩
            rw [Nat.succ_add, goes, goes, stays]
          · rw [Nat.succ_add, goes, goes, portions]
            rfl

theorem Story.MovesUnder.run {horizon : Clock} (h : q.MovesUnder schedule)
    (intime : (q.state 0).store.now ≤ horizon) (k : Nat) :
    Machine.run schedule horizon (q.last + k) (q.state 0) =
      Machine.run (schedule.after q.last) horizon k (q.state q.last) := by
  have from_here : ∀ j t, j + t = q.last →
      Machine.run (schedule.after t) horizon (j + k) (q.state t) =
        Machine.run (schedule.after q.last) horizon k (q.state q.last) := by
    intro j
    induction j with
    | zero =>
      intro t ht
      rw [Nat.zero_add] at ht ⊢
      rw [ht]
    | succ j ih =>
      intro t ht
      have before : t < q.last := by omega
      obtain ⟨e, s, hm, next⟩ := h t before
      have running : (q.state t).execution.ended = false := by
        cases he : (q.state t).execution with
        | settled | unwound =>
          rw [he, Execution.move] at hm
          cases hm
        | _ => rfl
      have early : (q.state t).store.now ≤ horizon := (h.now before.le).trans_le intime
      have moves : (q.state t).move? (schedule.after t 0) = some (q.state (t + 1)) := by
        rw [Schedule.after, Nat.zero_add, Machine.move?, hm, next]
      rw [Nat.succ_add, Machine.run_of_move? running early moves, Schedule.after_after,
        Nat.add_comm 1 t]
      exact ih (t + 1) (by omega)
  exact from_here q.last 0 rfl

/-- What the machine does not move does not move. -/
theorem Machine.move_of_move?_none (h : m.move? policy = none) :
    m.execution.move (m.polling policy) 0 m.store = none := by
  by_contra moves
  obtain ⟨next, moved⟩ := Option.ne_none_iff_exists'.1 moves
  cases (Machine.move?_of_move moved).symm.trans h

end Stories

/-! Runs of effects -/

namespace Runner

variable [Tracing H] {a : Shape H.Plain} {runner : Runner H} {e : Effect H a} {signal : Signal}
  {alarms : List Alarm} {spans : Prop}

omit [Tracing H] in
theorem heeding_withDeadline (h : e.node.Heeding spans) :
    (runner.withDeadline e).node.Heeding spans := by
  unfold withDeadline
  split
  · refine .intro nofun nofun fun m hm => ?_
    cases hm with
    | inner inside => exact List.mem_singleton.1 inside ▸ h
    | frame hf hm => cases hf <;> cases hm
  · exact h

omit [Tracing H] in
theorem heeds_beginning (h : e.node.Heeding spans) (alarms : List Alarm) (s : Store H) :
    (runner.beginning e signal alarms s).execution.Heeds spans signal :=
  .enter (heeding_withDeadline h) signal.descendsFrom_refl

/-- A run has a result when its machine has ended. -/
theorem exists_result (complete : runner.lacking e = []) {schedule : Schedule} {horizon : Clock}
    {fuel : Nat} {m : Machine H}
    (hm : (Machine.run schedule horizon fuel (runner.beginning e signal alarms s)).2 = m)
    (ended : m.execution.ended = true) :
    ∃ result s', runner.run schedule horizon fuel e signal alarms s = (some result, s') ∧
      s'.now = m.store.now := by
  have begins : runner.launch e signal s = _ := launch_of_complete complete
  unfold beginning at hm
  unfold run
  rw [begins]
  dsimp only
  rw [hm]
  cases hx : m.execution with
  | settled exit => exact ⟨_, _, rfl, rfl⟩
  | unwound p => exact ⟨_, _, rfl, rfl⟩
  | _ =>
    rw [hx] at ended
    cases ended

/-- When its signal has fired, a run settles at that very instant, whatever is under way, or is held
up there: by the tracer of a span, since its resolution goes on where that of a service is abandoned,
or by the effect of a finalizer that waits for something. Only a tracer holds up what has no
finalizers, and nothing what has no spans either. -/
theorem cancellation_is_prompt (runner : Runner H) (e : Effect H a) (signal : Signal)
    (alarms : List Alarm) (s : Store H) (heeding : e.node.Heeding spans)
    (tracers : Tracing.Immediate H) :
    (∀ r : Story H, r.state 0 = runner.beginning e signal alarms s →
      ∀ t, t ≤ r.last → (r.state t).store.isFired signal = true →
      ∀ schedule : Schedule, schedule.Diligent → ∃ q : Story H, q.state 0 = r.state t ∧
        q.MovesUnder schedule ∧
        (∀ u, u ≤ q.last → (q.state u).store.now = (r.state t).store.now) ∧
        (signal.IsProper → r.Steady → q.Steady → ∀ p, (q.state q.last).execution ≠ .unwound p) ∧
        ((q.state q.last).execution.ended = true ∨
          ∃ α x, (q.state q.last).execution.outer? α = some x ∧
            x.HeldUp spans (schedule q.last) (q.state q.last).store)) ∧
    (runner.lacking e = [] → ∀ (schedule : Schedule) horizon n m, schedule.Diligent →
      (Machine.run schedule horizon n (runner.beginning e signal alarms s)).2 = m →
      m.store.isFired signal = true → m.store.now ≤ horizon →
      ∃ k m', (Machine.run schedule horizon (n + k) (runner.beginning e signal alarms s)).2 = m' ∧
        m'.store.now = m.store.now ∧
        ((∀ fuel, n + k ≤ fuel → ∃ result s',
            runner.run schedule horizon fuel e signal alarms s = (some result, s') ∧
              s'.now = m.store.now) ∨
          ∃ α x u, m'.execution.outer? α = some x ∧ x.HeldUp spans (schedule u) m'.store)) ∧
    ∀ (env : Env) (n : Node H) name attributes (t : Task H) (s : Store H) policy depth,
      t.ended = false → t.canMove s = false → s.isFired env.signal = true →
      (Execution.frame env (.acquire n name attributes) (.task .bare t)).move policy depth s = none ∧
        (Execution.task (.signal env.signal) t).move policy depth s =
          some (.settled (.error .aborted), t.drop s) := by
  refine ⟨?_, ?_, ?_⟩
  · intro r hr t ht fired schedule diligent
    have heeds : (r.state t).execution.Heeds spans signal := by
      refine Story.heeds tracers ?_ ht
      rw [hr]
      exact heeds_beginning heeding alarms s
    obtain ⟨q, first, moves, stop⟩ := Machine.comes_to_stop diligent tracers heeds fired
    refine ⟨q, first, moves, fun u hu => ?_, fun proper steady steady' p unwound => ?_, stop⟩
    · rw [moves.now hu, first]
    · have sound : (r.state t).execution.Sound := by
        refine Story.sound ?_ steady ht
        rw [hr]
        exact proper
      rw [← first] at sound
      have still := Story.sound sound steady' (Nat.le_refl q.last)
      rw [unwound] at still
      exact still
  · intro complete schedule horizon n m diligent hm fired intime
    have heeds : m.execution.Heeds spans signal := by
      obtain ⟨r, hr, last⟩ := Story.exists_of_run
        (Prod.eta (Machine.run schedule horizon n (runner.beginning e signal alarms s))).symm
      rw [← hm, ← last]
      refine Story.heeds tracers ?_ (Nat.le_refl r.last)
      rw [hr]
      exact heeds_beginning heeding alarms s
    have settles : ∀ {k m'}, m'.store.now = m.store.now → m'.execution.ended = true →
        (∀ j, (Machine.run schedule horizon (n + (k + j)) (runner.beginning e signal alarms s)).2 =
          m') → ∀ fuel, n + k ≤ fuel → ∃ result s',
            runner.run schedule horizon fuel e signal alarms s = (some result, s') ∧
              s'.now = m.store.now := by
      intro k m' at_once ended reached fuel enough
      obtain ⟨j, rfl⟩ := Nat.exists_eq_add_of_le enough
      obtain ⟨result, s', given, later⟩ :=
        exists_result complete ((Nat.add_assoc n k j).symm ▸ reached j) ended
      exact ⟨result, s', given, later.trans at_once⟩
    rcases Machine.run_add schedule horizon n (runner.beginning e signal alarms s) with
      ⟨u, -, stuck, stays⟩ | portions
    · -- the run has got stuck already, and has ended or is held up where it is
      rw [hm] at stuck stays
      refine ⟨0, m, hm, rfl, ?_⟩
      cases running : m.execution.ended with
      | true => exact .inl (settles rfl running fun j => stays _)
      | false =>
        obtain ⟨α, x, hx, held⟩ := Execution.exists_heldUp (diligent u) heeds fired running
          (Machine.move_of_move?_none stuck)
        exact .inr ⟨α, x, u, hx, held⟩
    · obtain ⟨q, first, moves, stop⟩ :=
        Machine.comes_to_stop (fun t => diligent (t + n)) tracers heeds fired
      -- the run makes the moves of `q`, since no instant passes while it does
      have at_once : (q.state q.last).store.now = m.store.now := by
        rw [moves.now (Nat.le_refl q.last), first]
      have reached : ∀ j, (Machine.run schedule horizon (n + (q.last + j))
          (runner.beginning e signal alarms s)).2 =
            (Machine.run ((schedule.after n).after q.last) horizon j (q.state q.last)).2 := by
        intro j
        rw [portions, hm, ← first]
        exact congrArg Prod.snd (moves.run (first ▸ intime) j)
      refine ⟨q.last, q.state q.last, reached 0, at_once, ?_⟩
      rcases stop with ended | ⟨α, x, hx, held⟩
      · refine .inl (settles at_once ended fun j => ?_)
        rw [reached]
        exact Machine.run_of_ended ended _ horizon j
      · exact .inr ⟨α, x, q.last + n, hx, held⟩
  · intro env n name attributes t s policy depth running blocked fired
    have unsettled : t.outcome? = none := by simpa [Task.ended] using running
    refine ⟨?_, ?_⟩
    · rw [Execution.move_frame_running rfl]
      simp [Execution.move, Execution.moveTask, unsettled, blocked, Guard.interrupts, Frame.expired]
    · have held : t.goesOn policy.anew s = false :=
        Bool.eq_false_iff.2 fun goes => Bool.eq_false_iff.1 blocked (Task.canMove_of_goesOn goes)
      rw [Execution.move, Execution.moveTask, unsettled, held]
      simp [Guard.interrupts, fired]

/-! A tracer that comes late -/

/-- Fails after five instants. -/
def lateFactory : Factory Host.counting :=
  .make .tracer fun _ => .sleep ⟨5000000⟩ (.done (.error (.ofKey "late")))

def tracedRunner : Runner Host.counting :=
  { provider := ⟨0, OrderedMap.empty.set (Token.tracer Host.counting).key lateFactory⟩ }

def traced : Effect Host.counting .unit := doneEffect.span "done" []

/-- Waits for the same tracer, as for any service. -/
def awaited : Effect Host.counting (.shared .tracer) := .service (.tracer Host.counting)

def tracedStore : Store Host.counting := { user := (0 : Nat), signals := ⟨1⟩ }

/-- Cancelled after one instant, the service is abandoned at once, and the span waits on. -/
theorem span_waits_for_late_tracer :
    (∃ fuel result s', tracedRunner.run .standard 1 fuel awaited (.root 0) [⟨1, .root 0⟩]
        tracedStore = (some result, s') ∧ s'.now = 1) ∧
      ∃ m, (Machine.run .standard 1 5
          (tracedRunner.beginning traced (.root 0) [⟨1, .root 0⟩] tracedStore)).2 = m ∧
        m.store.now = 1 ∧
        ∃ α x, m.execution.outer? α = some x ∧ x.HeldUp True .standard m.store := by
  have tracers : Tracing.Immediate Host.counting := ⟨nofun, nofun⟩
  refine ⟨?_, ?_⟩
  · have heeding : awaited.node.Heeding False := by
      refine .intro nofun nofun fun m hm => ?_
      cases hm with
      | inner inside => cases inside
      | frame hf => cases hf
    obtain ⟨-, runs, -⟩ := cancellation_is_prompt tracedRunner awaited (.root 0) [⟨1, .root 0⟩]
      tracedStore heeding tracers
    obtain ⟨k, m, reached, -, settles | ⟨α, x, _, hx, held⟩⟩ :=
      runs rfl .standard 1 5 _ Schedule.diligent_standard rfl rfl (by decide)
    · obtain ⟨result, s', given, later⟩ := settles _ (Nat.le_refl _)
      exact ⟨5 + k, result, s', given, later⟩
    · -- the next move is the last one, and there is no frame before or after it
      have parts : (∃ g t, m.execution = .task g t) ∨ ∃ exit, m.execution = .settled exit := by
        subst reached
        cases k with
        | zero => exact .inl ⟨_, _, rfl⟩
        | succ k =>
          refine .inr ⟨.error .aborted, ?_⟩
          rw [Nat.add_comm k 1, ← Nat.add_assoc]
          rcases Machine.run_add .standard 1 6 (tracedRunner.beginning awaited (.root 0)
            [⟨1, .root 0⟩] tracedStore) with ⟨-, -, -, stays⟩ | portions
          · rw [stays]
            rfl
          · rw [portions, Machine.run_of_ended rfl]
            rfl
      rcases parts with ⟨g, t, he⟩ | ⟨exit, he⟩ <;> rw [he] at hx <;>
        rcases α with _ | ⟨_ | _, α⟩ <;> cases hx <;> cases held
  · have heeding : traced.node.Heeding True := by
      refine .intro nofun (fun _ _ _ _ => trivial) fun m hm => ?_
      have body : m = doneEffect.node := by
        cases hm with
        | inner inside => exact List.mem_singleton.1 inside
        | frame hf hm => cases hf <;> cases hm <;> rfl
      subst body
      refine .intro nofun nofun fun m hm => ?_
      cases hm with
      | inner inside => cases inside
      | frame hf => cases hf
    obtain ⟨stories, -, -⟩ := cancellation_is_prompt tracedRunner traced (.root 0) [⟨1, .root 0⟩]
      tracedStore heeding tracers
    have run : Machine.run .standard 1 5
      (tracedRunner.beginning traced (.root 0) [⟨1, .root 0⟩] tracedStore) = (_, _) := rfl
    obtain ⟨r, first, last⟩ := Story.exists_of_run run
    obtain ⟨q, begins, moves, -, -, stop⟩ := stories r first r.last (Nat.le_refl _)
      (by rw [last]; rfl) .standard Schedule.diligent_standard
    rw [last] at begins
    have at_rest : q.last = 0 := by
      by_contra goes
      obtain ⟨e, s, hm, -⟩ := moves 0 (Nat.pos_of_ne_zero goes)
      rw [begins] at hm
      cases hm
    rw [at_rest, begins] at stop
    refine ⟨_, rfl, rfl, stop.resolve_left ?_⟩
    exact Bool.false_ne_true

end Runner

end ScopedEffects
