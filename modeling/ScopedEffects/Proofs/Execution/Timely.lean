import ScopedEffects.Proofs.Execution.Course
import ScopedEffects.Proofs.Execution.Promptness

/-! Courses in virtual time. Time passes only while an execution cannot move, and never beyond an
instant that it waits for. A machine that is driven by a policy makes time pass like that for each
part of its execution, since what is ready moves; and it goes on past any instant, as long as something
waits for an instant to come. -/

namespace ScopedEffects

variable {H : Host} {s : Store H}

namespace Execution

variable {e x : Execution H} {b : Branches H} {i : Nat} {hop : Hop} {α : List Hop}

theorem mem_readyBranches (distinct : b.indices.Nodup) (h : i ∈ readyBranches s b) :
    ∃ f, b.find? i = some f ∧ f.ready s = true := by
  induction b with
  | nil => cases h
  | cons j e rest ih =>
    obtain ⟨fresh, distinct⟩ := List.nodup_cons.1 distinct
    have later : i ∈ readyBranches s rest →
        ∃ f, (Branches.cons j e rest).find? i = some f ∧ f.ready s = true := by
      intro hi
      have other : j ≠ i := by
        rintro rfl
        exact fresh (readyBranches_subset s rest hi)
      obtain ⟨f, found, ready⟩ := ih distinct hi
      exact ⟨f, (if_neg other).trans found, ready⟩
    rw [readyBranches] at h
    split at h
    · rename_i ready
      rcases List.mem_cons.1 h with rfl | h
      · exact ⟨e, if_pos rfl, ready⟩
      · exact later h
    · exact later h

theorem ready_of_ended (h : e.ended = true) : e.ready s = false ∧ e.deadlines s = [] := by
  cases e with
  | settled | unwound => exact ⟨rfl, rfl⟩
  | _ => cases h

/-- The time of a timeout step that can do nothing is not over. -/
theorem ahead_of_blocked {env : Env} {deadline : Clock} {after : Duration} {child : Signal}
    {fallback : Option (Node H)}
    (blocked : (frame env (.timeout deadline after child fallback) x).ready s = false) :
    s.now < deadline := by
  by_contra due
  simp [Execution.ready, Frame.expired, Nat.le_of_not_lt due] at blocked

/-! Parts -/

theorem blocked_of_part? (hx : e.part? hop = some x) (blocked : e.ready s = false) :
    x.ready s = false := by
  by_contra able
  have able : x.ready s = true := Bool.eq_true_of_not_eq_false able
  cases e with
  | frame env f above =>
    cases hop with
    | above =>
      cases hx
      simp [Execution.ready, able] at blocked
    | branch => cases hx
  | crew env c round b =>
    cases hop with
    | above => cases hx
    | branch i =>
      have some_ready := readyBranches_ne_nil hx able
      simp [Execution.ready, some_ready] at blocked
  | _ => cases hx

theorem blocked_of_at? (hx : e.at? α = some x) (blocked : e.ready s = false) :
    x.ready s = false :=
  at?_of_part? (P := fun x => x.ready s = false)
    (fun blocked part => blocked_of_part? part blocked) blocked hx

theorem deadlines_of_find? (found : b.find? i = some x) :
    x.deadlines s ⊆ branchDeadlines s b := by
  induction b with
  | nil => cases found
  | cons j e rest ih =>
    rw [branchDeadlines]
    rcases Branches.find?_cons found with ⟨-, rfl⟩ | found
    · exact List.subset_append_left ..
    · exact List.Subset.trans (ih found) (List.subset_append_right ..)

theorem deadlines_of_part? (hx : e.part? hop = some x) : x.deadlines s ⊆ e.deadlines s := by
  cases e with
  | frame env f above =>
    cases hop with
    | above =>
      cases hx
      exact List.subset_append_right ..
    | branch => cases hx
  | crew env c round b =>
    cases hop with
    | above => cases hx
    | branch i => exact deadlines_of_find? hx
  | _ => cases hx

theorem deadlines_of_at? (hx : e.at? α = some x) : x.deadlines s ⊆ e.deadlines s :=
  at?_of_part? (P := fun x => x.deadlines s ⊆ e.deadlines s)
    (fun inside part => List.Subset.trans (deadlines_of_part? part) inside) (List.Subset.refl _) hx

variable [Tracing H] {policy : Policy}

/-- What a policy does not move is not ready. -/
theorem blocked_of_move_none (diligent : policy.Diligent) (sound : e.Sound) {depth : Nat}
    (h : e.move policy depth s = none) : e.ready s = false := by
  induction e generalizing policy depth with
  | enter n env =>
    rw [move] at h
    cases h
  | task guard t =>
    rw [move] at h
    obtain ⟨running, blocked, calm⟩ := moveTask_none diligent h
    cases guard with
    | signal g => simp [Execution.ready, running, blocked, calm g rfl]
    | _ => simp [Execution.ready, running, blocked]
  | pause till env n p attempt =>
    rw [move] at h
    split at h
    · cases h
    · rename_i live
      split at h
      · cases h
      · rename_i early
        simp [Execution.ready, live, early]
  | frame env f above ih =>
    obtain ⟨running, held, goes⟩ := move_frame_none h
    have blocked := ih diligent sound.2.2 held
    have early : f.expired s.now = false := by
      by_contra due
      rw [ready_of_going (goes (Bool.eq_true_of_not_eq_false due))] at blocked
      cases blocked
    rw [Execution.ready, running, blocked, early]
    rfl
  | crew env c round b ih =>
    obtain ⟨-, -, distinct, branches⟩ := sound
    rw [move] at h
    cases house : moveCrew s env c round b with
    | some moved =>
      rw [house] at h
      cases h
    | none =>
      have idle := moveCrew_none_iff.1 house
      have none_ready : readyBranches s b = [] := by
        by_contra some_ready
        obtain ⟨i, hi, chosen⟩ := diligent.exists_choice depth round.queue some_ready
        obtain ⟨f, found, ready⟩ := mem_readyBranches distinct hi
        simp only [house, chosen, moveBranch_eq, found, Option.bind_some,
          Option.map_eq_none_iff] at h
        rw [ih i f found (diligent.toward _ _ i) (branches.find? found) h] at ready
        cases ready
      simp [Execution.ready, idle.running, idle.calm, idle.unsettled, idle.full, none_ready]
  | settled | unwound => rfl

end Execution

/-- Signals that have fired stay fired, and time passes only while the execution cannot move, and
never beyond an instant that it waits for. -/
structure Course.Timely [Tracing H] (r : Course H) : Prop where
  fired : ∀ t, (r.store t).fired ⊆ (r.store (t + 1)).fired
  forward : ∀ t, (r.store t).now ≤ (r.store (t + 1)).now
  held : ∀ t, (r.store t).now < (r.store (t + 1)).now →
    (r.state t).ready (r.store t) = false ∧
      ∀ d ∈ (r.state t).deadlines (r.store t), (r.store t).now < d → (r.store (t + 1)).now ≤ d

namespace Course

variable [Tracing H] {q : Course H} {env : Env} {f : Frame H} {x : Execution H} {t u : Nat}

/-- The course from an instant on. -/
def later (r : Course H) (k : Nat) : Course H where
  state t := r.state (k + t)
  store t := r.store (k + t)
  step t := r.step (k + t)

theorem Timely.later (h : q.Timely) (k : Nat) : (q.later k).Timely where
  fired t := h.fired (k + t)
  forward t := h.forward (k + t)
  held t := h.held (k + t)

/-- No time passes while the execution is ready. -/
theorem Timely.still (h : q.Timely) (ready : (q.state t).ready (q.store t) = true) :
    (q.store (t + 1)).now = (q.store t).now := by
  rcases Nat.lt_or_ge (q.store t).now (q.store (t + 1)).now with passes | still
  · rw [(h.held t passes).1] at ready
    cases ready
  · exact Nat.le_antisymm still (h.forward t)

theorem Timely.now_mono (h : q.Timely) (htu : t ≤ u) : (q.store t).now ≤ (q.store u).now := by
  induction htu with
  | refl => exact Nat.le_refl _
  | step _ ih => exact ih.trans (h.forward _)

theorem Timely.still_until (h : q.Timely) (htu : t ≤ u)
    (ready : ∀ v, t ≤ v → v < u → (q.state v).ready (q.store v) = true) :
    (q.store t).now = (q.store u).now := by
  induction htu with
  | refl => rfl
  | @step u htu ih =>
    rw [h.still (ready u htu (Nat.lt_succ_self u))]
    exact ih fun v hv less => ready v hv (Nat.lt_succ_of_lt less)

theorem Timely.isFired_stays (h : q.Timely) (htu : t ≤ u) {g : Signal}
    (fired : (q.store t).isFired g = true) : (q.store u).isFired g = true := by
  induction htu with
  | refl => exact fired
  | step _ ih => exact Store.isFired_of_subset (h.fired _) ih

theorem frame_moves (h : q.state t = .frame env f x) (moves : q.Moves t) :
    Execution.FrameMoves (q.store t) env f x (q.state (t + 1)) (q.store (t + 1)) := by
  obtain ⟨policy, depth, moved⟩ := moves
  rw [h] at moved
  exact Execution.move_frame moved

/-- While what a frame waits for is under way, that moves, or the time of the frame is over and so is
the poll. -/
theorem frame_step (h : q.state t = .frame env f x) (running : x.ended = false) :
    q.state (t + 1) = .frame env f x ∨
      (∃ y, q.state (t + 1) = .frame env f y ∧ ∃ policy depth,
        x.move policy depth (q.store t) = some (y, q.store (t + 1))) ∨
      ∃ deadline after child fallback, f = .timeout deadline after child fallback ∧
        q.state (t + 1) = .frame env (.draining after fallback) x ∧
        (∃ policy depth, x.going policy depth (q.store t) = false) ∧
        deadline ≤ (q.store t).now ∧
        q.store (t + 1) = ((q.store t).record (.timeoutExpired after)).fire child := by
  rcases q.step t with moves | same
  · have moved := frame_moves h moves
    generalize q.state (t + 1) = e, q.store (t + 1) = s at moved ⊢
    cases moved with
    | resumes settled =>
      rw [settled] at running
      cases running
    | passes unwound =>
      rw [unwound] at running
      cases running
    | moves _ moved => exact .inr (.inl ⟨_, rfl, _, _, moved⟩)
    | expires _ timeout due rests =>
      exact .inr (.inr ⟨_, _, _, _, timeout, rfl, ⟨_, _, rests⟩, due, rfl⟩)
  · exact .inl (same.trans h)

/-- Moves are not put off forever. -/
def GoesOn (r : Course H) : Prop :=
  ∀ t policy depth moved, (r.state t).move policy depth (r.store t) = some moved →
    ∃ u, t ≤ u ∧ r.Moves u

theorem GoesOn.later (h : q.GoesOn) (k : Nat) : (q.later k).GoesOn := by
  intro t policy depth moved hm
  obtain ⟨u, htu, moves⟩ := h (k + t) policy depth moved hm
  obtain ⟨v, rfl⟩ := Nat.exists_eq_add_of_le (Nat.le_of_add_right_le htu)
  exact ⟨v, Nat.le_of_add_le_add_left htu, moves⟩

/-- The next move of what can move. -/
theorem GoesOn.exists_next (h : q.GoesOn) {policy : Policy} {depth : Nat}
    {moved : Execution H × Store H} (hm : (q.state t).move policy depth (q.store t) = some moved) :
    ∃ u, t ≤ u ∧ q.Moves u ∧ ∀ v, t ≤ v → v ≤ u → q.state v = q.state t := by
  classical
  have some_move := h t policy depth moved hm
  obtain ⟨htu, moves⟩ := Nat.find_spec some_move
  refine ⟨Nat.find some_move, htu, moves, fun v htv hvu => ?_⟩
  exact stays_until_move
    (fun w htw hwv hw => Nat.find_min some_move (hwv.trans_le hvu) ⟨htw, hw⟩) htv

end Course

namespace Story

variable [Tracing H] {r : Story H} {schedule : Schedule} {node : Node H} {env : Env} {α : List Hop}
  {t i : Nat} {x : Execution H}

/-- The machine goes from each state to the next, as a schedule says. -/
def Driven (r : Story H) (schedule : Schedule) : Prop :=
  ∀ t, t < r.last → (r.state t).move? (schedule t) = some (r.state (t + 1))

/-- What one move of the machine does about time. -/
theorem Driven.passes (h : r.Driven schedule) (ht : t < r.last) :
    (r.state (t + 1)).store.now = (r.state t).store.now ∨
      (r.state t).execution.move ((r.state t).polling (schedule t)) 0 (r.state t).store = none ∧
        (r.state t).store.now < (r.state (t + 1)).store.now ∧
        ∀ d ∈ (r.state t).execution.deadlines (r.state t).store,
          (r.state t).store.now < d → (r.state (t + 1)).store.now ≤ d := by
  have drives := Machine.drives_of_move? (h t ht)
  generalize r.state (t + 1) = m at drives ⊢
  cases drives with
  | moves moved => exact .inl (Execution.works_move moved).atOnce.now
  | rings => exact .inl (Store.atOnce_fireAll ..).now
  | passes still chosen => exact .inr ⟨still, Machine.nextInstant?_spec chosen⟩

/-! The parts of a run as courses. When the run is over, nothing happens to them any more -/

def instant (r : Story H) (i v : Nat) : Nat := min (i + v) r.last

/-- The part `x` that is at an address at `i`, as it is seen from then on until it has ended. -/
def seen (r : Story H) (α : List Hop) (i : Nat) (x : Execution H) : Nat → Execution H
  | 0 => x
  | v + 1 =>
    if (r.seen α i x v).ended then r.seen α i x v
    else (r.part? α (r.instant i (v + 1))).getD (r.seen α i x v)

variable {v : Nat}

theorem instant_succ (r : Story H) (i v : Nat) : r.instant i (v + 1) = r.instant i v ∨
    r.instant i (v + 1) = r.instant i v + 1 ∧ r.instant i v < r.last := by
  unfold instant
  omega

theorem seen_of_ended (h : (r.seen α i x v).ended = true) :
    r.seen α i x (v + 1) = r.seen α i x v := by
  rw [seen, if_pos h]

theorem Launched.seen_moves (h : r.Launched node env) (steady : r.Steady)
    (running : (r.seen α i x v).ended = false)
    (here : r.part? α (r.instant i v) = some (r.seen α i x v)) :
    r.part? α (r.instant i (v + 1)) = some (r.seen α i x (v + 1)) ∧
      ((∃ policy depth, (r.seen α i x v).move policy depth (r.state (r.instant i v)).store =
          some (r.seen α i x (v + 1), (r.state (r.instant i (v + 1))).store)) ∨
        r.seen α i x (v + 1) = r.seen α i x v) := by
  rw [seen, running, if_neg Bool.false_ne_true]
  rcases r.instant_succ i v with same | ⟨next, less⟩
  · rw [same, here]
    exact ⟨rfl, .inr rfl⟩
  · rw [next]
    rcases h.follow steady less here running with same | ⟨policy, depth, y, moved, later⟩
    · rw [same]
      exact ⟨rfl, .inr rfl⟩
    · rw [later]
      exact ⟨rfl, .inl ⟨policy, depth, moved⟩⟩

theorem Launched.part?_or_ended (h : r.Launched node env) (steady : r.Steady) (hi : i ≤ r.last)
    (hx : r.part? α i = some x) (v : Nat) : (r.seen α i x v).ended = true ∨
      r.part? α (r.instant i v) = some (r.seen α i x v) := by
  induction v with
  | zero =>
    have first : r.instant i 0 = i := Nat.min_eq_left hi
    exact .inr (first.symm ▸ hx)
  | succ v ih =>
    cases running : (r.seen α i x v).ended with
    | true => exact .inl ((seen_of_ended running).symm ▸ running)
    | false =>
      rcases ih with ended | here
      · rw [running] at ended
        cases ended
      · exact .inr (h.seen_moves steady running here).1

/-- The course of one part of a run. -/
def Launched.course (h : r.Launched node env) (steady : r.Steady) (hi : i ≤ r.last)
    (hx : r.part? α i = some x) : Course H where
  state := r.seen α i x
  store v := (r.state (r.instant i v)).store
  step v := by
    cases running : (r.seen α i x v).ended with
    | true => exact .inr (seen_of_ended running)
    | false =>
      rcases h.part?_or_ended steady hi hx v with ended | here
      · rw [running] at ended
        cases ended
      · exact (h.seen_moves steady running here).2

theorem Launched.timely (h : r.Launched node env) (steady : r.Steady)
    (diligent : schedule.Diligent) (driven : r.Driven schedule) (hi : i ≤ r.last)
    (hx : r.part? α i = some x) : (h.course steady hi hx).Timely where
  fired v := by
    show (r.state (r.instant i v)).store.fired ⊆ (r.state (r.instant i (v + 1))).store.fired
    rcases r.instant_succ i v with same | ⟨next, less⟩
    · rw [same]
      exact List.Subset.refl _
    · rw [next]
      exact (r.step _ less).fired
  forward v := by
    show (r.state (r.instant i v)).store.now ≤ (r.state (r.instant i (v + 1))).store.now
    rcases r.instant_succ i v with same | ⟨next, less⟩
    · rw [same]
    · rw [next]
      rcases driven.passes less with still | ⟨-, later, -⟩
      · exact still.ge
      · exact later.le
  held v passes := by
    show (r.seen α i x v).ready (r.state (r.instant i v)).store = false ∧
      ∀ d ∈ (r.seen α i x v).deadlines (r.state (r.instant i v)).store,
        (r.state (r.instant i v)).store.now < d →
          (r.state (r.instant i (v + 1))).store.now ≤ d
    have passes : (r.state (r.instant i v)).store.now <
      (r.state (r.instant i (v + 1))).store.now := passes
    rcases h.part?_or_ended steady hi hx v with ended | here
    · obtain ⟨blocked, none_due⟩ := Execution.ready_of_ended ended
      rw [blocked, none_due]
      exact ⟨rfl, fun d hd => absurd hd List.not_mem_nil⟩
    · rcases r.instant_succ i v with same | ⟨next, less⟩
      · rw [same] at passes
        exact absurd passes (Nat.lt_irrefl _)
      · rw [next] at passes ⊢
        rcases driven.passes less with still | ⟨held, -, least⟩
        · rw [still] at passes
          exact absurd passes (Nat.lt_irrefl _)
        · have blocked := Execution.blocked_of_move_none ((diligent _).anew _)
            (h.sound steady less.le) held
          exact ⟨Execution.blocked_of_at? here blocked,
            fun d hd => least d (Execution.deadlines_of_at? here hd)⟩

/-- Each part of a run is a course in virtual time, until it has ended. -/
theorem Launched.exists_timely (h : r.Launched node env) (steady : r.Steady)
    (diligent : schedule.Diligent) (driven : r.Driven schedule) (hi : i ≤ r.last)
    (hx : r.part? α i = some x) :
    ∃ c : Course H, c.Timely ∧ c.state 0 = x ∧ ∀ v, i + v ≤ r.last →
      c.store v = (r.state (i + v)).store ∧
        (r.part? α (i + v) = some (c.state v) ∨ (c.state v).ended = true) := by
  refine ⟨h.course steady hi hx, h.timely steady diligent driven hi hx, rfl, fun v hv => ?_⟩
  have here : r.instant i v = i + v := Nat.min_eq_left hv
  refine ⟨congrArg (fun t => (r.state t).store) here, ?_⟩
  rw [← here]
  exact (h.part?_or_ended steady hi hx v).symm

end Story

/-! A machine goes on -/

namespace Machine

variable [Tracing H] {m m' : Machine H} {policy : Policy} {α : List Hop} {bound : Clock}

/-- How a machine gets nearer to the time after an instant: by its clock, by its alarms, and by what
is left to do. -/
def Nearer (bound : Clock) : Machine H → Machine H → Prop :=
  InvImage (Prod.Lex (· < ·) (Prod.Lex (· < ·) Lighter)) fun m =>
    (bound + 1 - m.store.now, m.alarms.length, m.chores)

omit [Tracing H] in
theorem wellFounded_nearer (bound : Clock) : WellFounded (Nearer (H := H) bound) :=
  InvImage.wf _ (Nat.lt_wfRel.wf.prod_lex (Nat.lt_wfRel.wf.prod_lex wellFounded_lighter))

omit [Tracing H] in
theorem nearer_of_fewer (now : m'.store.now = m.store.now)
    (fewer : m'.alarms.length < m.alarms.length) : m'.Nearer bound m := by
  unfold Nearer InvImage
  dsimp only
  rw [now]
  exact .right _ (.left _ _ fewer)

omit [Tracing H] in
theorem nearer_of_lighter (now : m'.store.now = m.store.now) (alarms : m'.alarms = m.alarms)
    (lighter : Lighter m'.chores m.chores) : m'.Nearer bound m := by
  unfold Nearer InvImage
  dsimp only
  rw [now, alarms]
  exact .right _ (.right _ lighter)

theorem nearer_of_move? (h : m.move? policy = some m') (before : m.store.now ≤ bound) :
    m'.Nearer bound m := by
  cases drives_of_move? h with
  | @moves e s moved =>
    have moves : Moves (m.polling policy) m { m with execution := e, store := s } :=
      ⟨e, s, moved, rfl⟩
    exact nearer_of_lighter moves.now rfl moves.lighter
  | rings _ due =>
    obtain ⟨a, ha, rings⟩ := List.any_eq_true.1 due
    refine nearer_of_fewer (Store.atOnce_fireAll ..).now ?_
    exact List.length_filter_lt_length_iff_exists.2 ⟨a, ha, by simpa using rings⟩
  | passes _ chosen =>
    have ahead := (nextInstant?_spec chosen).1
    exact .left _ _ (Nat.sub_lt_sub_left (Nat.lt_succ_of_le before) ahead)

/-- As long as a part of it waits for an instant that is still to come, the machine is not stuck. -/
theorem exists_move?_of_waiting (diligent : policy.Diligent) (sound : m.execution.Sound)
    {x : Execution H} {d : Clock} (hx : m.execution.at? α = some x)
    (waits : d ∈ x.deadlines m.store) (ahead : x.ready m.store = false → m.store.now < d) :
    ∃ m', m.move? policy = some m' := by
  cases moved : m.execution.move (m.polling policy) 0 m.store with
  | some => exact ⟨_, move?_of_move moved⟩
  | none =>
    rw [move?_of_still moved]
    split
    · exact ⟨_, rfl⟩
    · have blocked := Execution.blocked_of_move_none (diligent.anew _) sound moved
      have ahead := ahead (Execution.blocked_of_at? hx blocked)
      have waits := Execution.deadlines_of_at? hx waits
      have some_instant : m.nextInstant? ≠ none := by
        intro none_left
        have none_later := List.min?_eq_none_iff.1 none_left
        have inside : d ∈ (m.execution.deadlines m.store ++
            m.alarms.map Alarm.instant).filter (m.store.now < ·) :=
          List.mem_filter.2 ⟨List.mem_append_left _ waits, by simpa using ahead⟩
        rw [none_later] at inside
        cases inside
      obtain ⟨next, chosen⟩ := Option.ne_none_iff_exists'.1 some_instant
      rw [chosen]
      exact ⟨_, rfl⟩

/-- As long as a timeout step waits, the machine is not stuck. -/
theorem exists_move? (diligent : policy.Diligent) (sound : m.execution.Sound) {env : Env}
    {deadline : Clock} {after : Duration} {child : Signal} {fallback : Option (Node H)}
    {x : Execution H}
    (hx : m.execution.at? α = some (.frame env (.timeout deadline after child fallback) x)) :
    ∃ m', m.move? policy = some m' :=
  exists_move?_of_waiting diligent sound hx (List.mem_append_left _ List.mem_cons_self)
    Execution.ahead_of_blocked

/-- One more move of a run. -/
theorem run_succ (schedule : Schedule) (horizon : Clock) (t : Nat) (m : Machine H) :
    (run schedule horizon (t + 1) m).2 = (run schedule horizon t m).2 ∨
      (run schedule horizon t m).2.move? (schedule t) = some (run schedule horizon (t + 1) m).2 := by
  rcases run_add schedule horizon t m with ⟨-, -, -, stays⟩ | portions
  · exact .inl (stays 1)
  · rw [portions 1]
    generalize (run schedule horizon t m).2 = m'
    have here : schedule.after t 0 = schedule t := congrArg schedule (Nat.zero_add t)
    cases ended : m'.execution.ended with
    | true => exact .inl (run_of_ended ended ..)
    | false =>
      rcases Nat.lt_or_ge horizon m'.store.now with late | intime
      · exact .inl (run_of_late late ..)
      · cases next : m'.move? (schedule.after t 0) with
        | none => exact .inl (run_of_stuck next 1)
        | some m'' =>
          rw [run_of_move? ended intime next, ← here]
          exact .inr next

/-- The course of the execution of a machine that runs. -/
def course (schedule : Schedule) (horizon : Clock) (m : Machine H) : Course H where
  state t := (run schedule horizon t m).2.execution
  store t := (run schedule horizon t m).2.store
  step t := by
    rcases run_succ schedule horizon t m with same | next
    · rw [same]
      exact .inr rfl
    · have step := step_of_move? next
      generalize (run schedule horizon (t + 1) m).2 = m' at step ⊢
      cases step with
      | @moves policy e s moved => exact .inl ⟨policy, 0, moved⟩
      | rings | passes => exact .inr rfl

/-- A machine goes past any instant, or comes to where nothing can happen any more. -/
theorem exists_past (schedule : Schedule) (bound : Clock) (m : Machine H) :
    ∃ w : Story H, w.state 0 = m ∧ w.Driven schedule ∧
      (bound < (w.state w.last).store.now ∨
        (w.state w.last).move? (schedule w.last) = none) := by
  induction m using (wellFounded_nearer bound).induction generalizing schedule with
  | h m ih =>
    have here : bound < m.store.now ∨ m.move? (schedule 0) = none →
        ∃ w : Story H, w.state 0 = m ∧ w.Driven schedule ∧
          (bound < (w.state w.last).store.now ∨
            (w.state w.last).move? (schedule w.last) = none) :=
      fun ends => ⟨⟨fun _ => m, 0, fun _ ht => absurd ht (Nat.not_lt_zero _)⟩, rfl,
        fun _ ht => absurd ht (Nat.not_lt_zero _), ends⟩
    rcases Nat.lt_or_ge bound m.store.now with past | before
    · exact here (.inl past)
    · cases next : m.move? (schedule 0) with
      | none => exact here (.inr next)
      | some m' =>
        obtain ⟨w, first, driven, ends⟩ := ih m' (nearer_of_move? next before) (schedule.after 1)
        refine ⟨w.cons m (first ▸ step_of_move? next), rfl, fun t ht => ?_, ends⟩
        cases t with
        | zero =>
          show m.move? (schedule 0) = some (w.state 0)
          rw [first]
          exact next
        | succ t => exact driven t (Nat.lt_of_succ_lt_succ ht)

end Machine

end ScopedEffects
