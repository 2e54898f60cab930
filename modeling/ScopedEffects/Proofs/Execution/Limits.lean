import ScopedEffects.Proofs.Execution.Above

/-! The time that a timeout step gives the effect above it. As long as that time is not over, the step
does nothing but wait, and it settles as its upstream does, at the same moment. When the time is over
the upstream is left one poll; has it not settled in that, the step fires the signal of the upstream
and waits on until it has. Only then it settles or goes on with its fallback, whatever the exit was.
The clock cannot run past the deadline of a step that still waits, for a step whose time is over is
ready. -/

namespace ScopedEffects

variable {H : Host}

/-- A timeout step that has begun: where it stands, the time that it gives and what it falls back on,
the signal that it has armed for its upstream, and the instant at which the time is over. -/
structure Limit (H : Host) where
  env : Env
  after : Duration
  fallback : Option (Node H)
  child : Signal
  deadline : Clock

namespace Limit

/-- What a timeout step begins with. The clock counts whole ticks. -/
def start (env : Env) (s : Store H) (after : Duration) (fallback : Option (Node H)) : Limit H :=
  ⟨env, after, fallback, (s.childSignal env.signal).1, s.now + after.ticks⟩

/-- The environment of the upstream. -/
def inner (l : Limit H) : Env := { l.env with signal := l.child }

/-- The step before its time is over. -/
def waits (l : Limit H) (x : Execution H) : Execution H :=
  .frame l.env (.timeout l.deadline l.after l.child l.fallback) x

/-- The step when its time is over. -/
def drains (l : Limit H) (x : Execution H) : Execution H :=
  .frame l.env (.draining l.after l.fallback) x

/-- What follows when the time is over and the upstream has settled. -/
def next (l : Limit H) : Execution H :=
  match l.fallback with
  | some n => .enter n l.env
  | none => .settled (.error (.timeout l.after))

end Limit

namespace Limit

variable [Tracing H] {l : Limit H} {q c : Course H} {x y : Execution H} {t m k : Nat}
  {exit : Exit H}

/-! From one instant to the next -/

omit [Tracing H] in
theorem waits_ne_drains : l.waits x ≠ l.drains y := by
  intro h
  injection h with _ h
  cases h

/-- While its upstream is under way, the step lets it move, or its time is over. -/
theorem waits_step (h : q.state t = l.waits x) (running : x.ended = false) :
    q.state (t + 1) = l.waits x ∨
      (∃ y, q.state (t + 1) = l.waits y ∧ ∃ policy depth,
        x.move policy depth (q.store t) = some (y, q.store (t + 1))) ∨
      q.state (t + 1) = l.drains x ∧ (∃ policy depth, x.going policy depth (q.store t) = false) ∧
        l.deadline ≤ (q.store t).now ∧
        q.store (t + 1) = ((q.store t).record (.timeoutExpired l.after)).fire l.child := by
  rcases Course.frame_step h running with same | moved | ⟨_, _, _, _, timeout, expired⟩
  · exact .inl same
  · exact .inr (.inl moved)
  · cases timeout
    exact .inr (.inr expired)

/-- When its time is over, the step moves as its upstream does as long as the poll lets that go on, and
ends the time otherwise. -/
theorem waits_due {policy : Policy} {depth : Nat} {s s' : Store H} {e : Execution H}
    (running : x.ended = false) (due : l.deadline ≤ s.now)
    (moved : (l.waits x).move policy depth s = some (e, s')) :
    (x.going policy (depth + 1) s = true ∧
        ∃ y, e = l.waits y ∧ x.move policy (depth + 1) s = some (y, s')) ∨
      x.going policy (depth + 1) s = false ∧ e = l.drains x ∧
        s' = (s.record (.timeoutExpired l.after)).fire l.child := by
  have expired : (Frame.timeout l.deadline l.after l.child l.fallback).expired s.now = true :=
    decide_eq_true due
  rw [waits, Execution.move_frame_running running] at moved
  cases goes : x.going policy (depth + 1) s with
  | true =>
    simp only [goes, Bool.not_true, Bool.and_false, Bool.false_eq_true, if_false] at moved
    obtain ⟨⟨y, s₁⟩, step, same⟩ := Option.map_eq_some_iff.1 moved
    cases same
    exact .inl ⟨rfl, y, rfl, step⟩
  | false =>
    simp only [goes, expired, Bool.not_false, Bool.and_self, if_true, Frame.expire, due] at moved
    cases moved
    exact .inr ⟨rfl, rfl, rfl⟩

/-- A step that still waits after a move waits for what has not ended. -/
theorem running_of_moved {policy : Policy} {depth : Nat} (here : q.state t = l.waits x)
    (next : q.state (t + 1) = l.waits y)
    (moved : (q.state t).move policy depth (q.store t) = some (q.state (t + 1), q.store (t + 1))) :
    x.ended = false := by
  rw [here, next] at moved
  cases x with
  | settled | unwound => rw [waits, Execution.move] at moved; cases moved
  | _ => rfl

omit [Tracing H] in
/-- A poll that reaches a step whose time is over does not leave it waiting. -/
theorem waits_going {s : Store H} (due : l.deadline ≤ s.now) (policy : Policy) (depth : Nat) :
    (l.waits x).going policy depth s = true := by
  simp [waits, Execution.going, Frame.expired, due]

/-- When its upstream has settled, the step settles in the same way. -/
theorem waits_settled (h : q.state t = l.waits (.settled exit)) :
    (q.Moves t → q.state (t + 1) = .settled exit ∧ q.store (t + 1) = q.store t) ∧
      (q.state (t + 1) = l.waits (.settled exit) ∨
        q.state (t + 1) = .settled exit ∧ q.store (t + 1) = q.store t) := by
  have settles : q.Moves t → q.state (t + 1) = .settled exit ∧ q.store (t + 1) = q.store t := by
    intro moves
    have moved := Course.frame_moves h moves
    generalize q.state (t + 1) = e, q.store (t + 1) = s at moved ⊢
    cases moved with
    | resumes settled =>
      cases settled
      exact ⟨rfl, rfl⟩
    | passes unwound => cases unwound
    | moves running | expires running => cases running
  refine ⟨settles, ?_⟩
  rcases q.step t with moves | same
  · exact .inr (settles moves)
  · exact .inl (same.trans h)

/-- When the time is over, the step lets its upstream move, -/
theorem drains_step (h : q.state t = l.drains x) (running : x.ended = false) :
    q.state (t + 1) = l.drains x ∨
      ∃ y, q.state (t + 1) = l.drains y ∧ ∃ policy depth,
        x.move policy depth (q.store t) = some (y, q.store (t + 1)) := by
  rcases Course.frame_step h running with same | moved | ⟨_, _, _, _, timeout, -⟩
  · exact .inl same
  · exact .inr moved
  · cases timeout

/-- until that has settled; the exit is dropped. -/
theorem drains_settled (h : q.state t = l.drains (.settled exit)) :
    (q.Moves t → q.state (t + 1) = l.next ∧ q.store (t + 1) = q.store t) ∧
      (q.state (t + 1) = l.drains (.settled exit) ∨
        q.state (t + 1) = l.next ∧ q.store (t + 1) = q.store t) := by
  have goes_on : q.Moves t → q.state (t + 1) = l.next ∧ q.store (t + 1) = q.store t := by
    intro moves
    have moved := Course.frame_moves h moves
    generalize q.state (t + 1) = e, q.store (t + 1) = s at moved ⊢
    cases moved with
    | resumes =>
      unfold next
      cases l.fallback with
      | none | some => exact ⟨rfl, rfl⟩
    | passes unwound => cases unwound
    | moves running | expires running => cases running
  refine ⟨goes_on, ?_⟩
  rcases q.step t with moves | same
  · exact .inr (goes_on moves)
  · exact .inl (same.trans h)

/-! The upstream as a course -/

/-- The step stands around its upstream, or the upstream has ended. -/
def Around (l : Limit H) (e x : Execution H) : Prop :=
  e = l.waits x ∨ e = l.drains x ∨ x.ended = true

theorem around_step (h : l.Around (q.state t) (q.upstream x t)) :
    l.Around (q.state (t + 1)) (q.upstream x (t + 1)) ∧
      ((∃ policy depth, (q.upstream x t).move policy depth (q.store t) =
          some (q.upstream x (t + 1), q.store (t + 1))) ∨
        q.upstream x (t + 1) = q.upstream x t) := by
  cases running : (q.upstream x t).ended with
  | true =>
    have same := Course.upstream_of_ended running
    rw [same]
    exact ⟨.inr (.inr running), .inr rfl⟩
  | false =>
    have above : ∀ {f y}, q.state (t + 1) = .frame l.env f y → q.upstream x (t + 1) = y :=
      fun next => Course.upstream_of_part? running (congrArg (Execution.part? · .above) next)
    rcases h with waits | drains | ended
    · rcases waits_step waits running with same | ⟨y, next, policy, depth, moved⟩ | ⟨next, -⟩
      · have still := above same
        rw [still]
        exact ⟨.inl same, .inr rfl⟩
      · rw [above next]
        exact ⟨.inl next, .inl ⟨policy, depth, moved⟩⟩
      · rw [above next]
        exact ⟨.inr (.inl next), .inr rfl⟩
    · rcases drains_step drains running with same | ⟨y, next, policy, depth, moved⟩
      · have still := above same
        rw [still]
        exact ⟨.inr (.inl same), .inr rfl⟩
      · rw [above next]
        exact ⟨.inr (.inl next), .inl ⟨policy, depth, moved⟩⟩
    · rw [running] at ended
      cases ended

/-- The course `c` of what is above a timeout step, over the stores of the course `q` of the step. -/
structure Upstream (l : Limit H) (q c : Course H) : Prop where
  timely : q.Timely
  armed : ∃ n, l.child = l.env.signal.child n
  begun : q.state 0 = l.waits (c.state 0)
  early : (q.store 0).now ≤ l.deadline
  shared : c.store = q.store
  above : ∀ {t f y}, (c.state t).ended = false → q.state (t + 1) = .frame l.env f y →
    c.state (t + 1) = y
  around : ∀ t, l.Around (q.state t) (c.state t)

theorem exists_upstream (timely : q.Timely) (armed : ∃ n, l.child = l.env.signal.child n)
    (begun : q.state 0 = l.waits x) (early : (q.store 0).now ≤ l.deadline) :
    ∃ c : Course H, c.state 0 = x ∧ l.Upstream q c := by
  have around : ∀ t, l.Around (q.state t) (q.upstream x t) := by
    intro t
    induction t with
    | zero => exact .inl begun
    | succ t ih => exact (around_step ih).1
  let c : Course H := ⟨q.upstream x, q.store, fun t => (around_step (around t)).2⟩
  exact ⟨c, rfl, timely, armed, begun, early, rfl, fun running next =>
    Course.upstream_of_part? running (congrArg (Execution.part? · .above) next), around⟩

/-- Time passes for the upstream as it does for the step. -/
theorem Upstream.timely_above (h : l.Upstream q c) : c.Timely := by
  refine h.timely.above h.shared fun t => ?_
  rcases h.around t with waits | drains | ended
  · exact .inl (congrArg (Execution.part? · .above) waits)
  · exact .inl (congrArg (Execution.part? · .above) drains)
  · exact .inr ended

/-! How the step goes on -/

/-- The upstream moves, and does so because the poll lets it go on. -/
def Asked (c : Course H) (t : Nat) : Prop :=
  ∃ policy depth, (c.state t).going policy depth (c.store t) = true ∧
    (c.state t).move policy depth (c.store t) = some (c.state (t + 1), c.store (t + 1))

/-- The upstream settles in time. The step does nothing but wait up to `m`, and then settles as the
upstream did, at the moment at which that settled. At the deadline the upstream moves only as far as
the poll lets it go on. -/
structure InTime (l : Limit H) (q c : Course H) (m : Nat) (exit : Exit H) : Prop where
  waits : ∀ t, t ≤ m → q.state t = l.waits (c.state t)
  quiet : ∀ t, t < m → q.Moves t → c.Moves t
  asked : ∀ t, t < m → l.deadline ≤ (q.store t).now → q.Moves t → Asked c t
  upstream : c.state m = .settled exit
  early : (q.store m).now ≤ l.deadline
  moment : ∀ t, t ≤ m → (c.state t).ended = true → (q.store t).now = (q.store m).now
  unchanged : q.store (m + 1) = q.store m
  settles : ∀ t, m < t → q.state t = .settled exit

/-- The time is over. At the very deadline the poll lets the upstream go on no more, which has not
settled, and its signal fires; the signal of the step itself does not. -/
structure Expires (l : Limit H) (q c : Course H) (m : Nat) : Prop where
  waits : ∀ t, t ≤ m → q.state t = l.waits (c.state t)
  quiet : ∀ t, t < m → q.Moves t → c.Moves t
  asked : ∀ t, t < m → l.deadline ≤ (q.store t).now → q.Moves t → Asked c t
  moment : (q.store m).now = l.deadline ∧ (q.store (m + 1)).now = l.deadline
  running : (c.state m).ended = false
  rests : ∃ policy depth, (c.state m).going policy depth (q.store m) = false
  fires : ∀ t, m < t → (q.store t).isFired l.child = true
  spares : (q.store (m + 1)).isFired l.env.signal = (q.store m).isFired l.env.signal
  drains : q.state (m + 1) = l.drains (c.state (m + 1))

/-- After its time the step waits until the upstream has settled, up to `k`, and goes on at that
moment. The exit is dropped. -/
structure Drained (l : Limit H) (q c : Course H) (m k : Nat) (exit : Exit H) : Prop where
  after : m < k
  drains : ∀ t, m < t → t ≤ k → q.state t = l.drains (c.state t)
  quiet : ∀ t, m < t → t < k → q.Moves t → c.Moves t
  upstream : c.state k = .settled exit
  moment : ∀ t, m < t → t ≤ k → (c.state t).ended = true → (q.store t).now = (q.store k).now
  unchanged : q.store (k + 1) = q.store k
  goes_on : q.state (k + 1) = l.next

/-- How far the step is at an instant. -/
inductive Stage (l : Limit H) (q c : Course H) (t : Nat) : Prop
  | waits (h : ∀ v, v ≤ t → q.state v = l.waits (c.state v)) (early : (q.store t).now ≤ l.deadline)
  | in_time {m : Nat} {exit : Exit H} (before : m < t) (h : l.InTime q c m exit)
  | drains {m : Nat} (before : m < t) (expired : l.Expires q c m)
      (h : ∀ v, m < v → v ≤ t → q.state v = l.drains (c.state v))
  | drained {m k : Nat} {exit : Exit H} (expired : l.Expires q c m) (before : k < t)
      (h : l.Drained q c m k exit)

namespace Upstream

/-- The clock does not run past the deadline of a step that waits. -/
theorem early_of_waits (h : l.Upstream q c)
    (waits : ∀ v, v ≤ t → q.state v = l.waits (c.state v)) : (q.store t).now ≤ l.deadline := by
  induction t with
  | zero => exact h.early
  | succ t ih =>
    have before := ih fun v hv => waits v (Nat.le_succ_of_le hv)
    rcases Nat.lt_or_ge (q.store t).now (q.store (t + 1)).now with passes | still
    · obtain ⟨blocked, least⟩ := h.timely.held t passes
      rw [waits t (Nat.le_succ t)] at blocked least
      -- a step whose time is over is ready, so the deadline is ahead, and the clock halts there
      have ahead := Execution.ahead_of_blocked blocked
      exact least l.deadline (List.mem_append_left _ List.mem_cons_self) ahead
    · exact still.trans before

/-- As long as the step waits, it is the upstream that moves, -/
theorem quiet (h : l.Upstream q c) (here : q.state t = l.waits (c.state t))
    (next : q.state (t + 1) = l.waits (c.state (t + 1))) (moves : q.Moves t) : c.Moves t := by
  have moved := Course.frame_moves here moves
  rw [Course.Moves, h.shared]
  generalize c.state (t + 1) = x at next ⊢
  generalize q.state (t + 1) = e, q.store (t + 1) = s at moved next ⊢
  cases moved with
  | resumes | passes | expires => cases next
  | moves _ moved =>
    cases next
    exact ⟨_, _, moved⟩

/-- and from the deadline on only because the poll lets it go on. -/
theorem asked (h : l.Upstream q c) (here : q.state t = l.waits (c.state t))
    (next : q.state (t + 1) = l.waits (c.state (t + 1))) (due : l.deadline ≤ (q.store t).now)
    (moves : q.Moves t) : Asked c t := by
  obtain ⟨policy, depth, moved⟩ := moves
  have running := running_of_moved here next moved
  rw [here, next] at moved
  rcases waits_due running due moved with ⟨goes, y, same, step⟩ | ⟨-, drains, -⟩
  · cases same
    rw [← h.shared] at goes step
    exact ⟨policy, depth + 1, goes, step⟩
  · exact absurd drains waits_ne_drains

/-- So it is when the time is over. -/
theorem quiet_later (h : l.Upstream q c) (here : q.state t = l.drains (c.state t))
    (next : q.state (t + 1) = l.drains (c.state (t + 1))) (moves : q.Moves t) : c.Moves t := by
  have moved := Course.frame_moves here moves
  rw [Course.Moves, h.shared]
  generalize c.state (t + 1) = x at next ⊢
  generalize q.state (t + 1) = e, q.store (t + 1) = s at moved next ⊢
  cases moved with
  | resumes =>
    unfold Frame.resume Limit.drains at next
    cases fallback : l.fallback with
    | none | some => rw [fallback] at next; cases next
  | passes => cases next
  | expires _ timeout => cases timeout
  | moves _ moved =>
    cases next
    exact ⟨_, _, moved⟩

/-- No time passes from the moment at which the upstream has settled until the step goes on. -/
theorem moment (h : l.Upstream q c) {f : Frame H} (htm : t ≤ m)
    (frames : ∀ v, t ≤ v → v ≤ m → q.state v = .frame l.env f (c.state v))
    (settled : c.state t = .settled exit) : (q.store t).now = (q.store m).now := by
  refine h.timely.still_until htm fun v htv hvm => ?_
  rw [frames v htv hvm.le, Course.settled_stays settled htv]
  rfl

/-- Firing the signal of the upstream leaves the signal of the step alone. -/
theorem spares (h : l.Upstream q c) (s : Store H) :
    (s.fire l.child).isFired l.env.signal = s.isFired l.env.signal := by
  obtain ⟨n, armed⟩ := h.armed
  have apart : l.env.signal.descendsFrom l.child = false := by
    rw [armed, Signal.descendsFrom, Bool.eq_false_iff, Ne, List.isSuffixOf_iff_suffix]
    intro suffix
    have longer := suffix.length_le
    simp [Signal.child] at longer
  unfold Store.fire
  split
  · rfl
  · simp [Store.isFired, apart]

theorem inTime (h : l.Upstream q c) (calm : ∀ t p, c.state t ≠ .unwound p)
    (waits : ∀ v, v ≤ m → q.state v = l.waits (c.state v)) (settled : c.state m = .settled exit)
    (settles : q.state (m + 1) = .settled exit) (unchanged : q.store (m + 1) = q.store m) :
    l.InTime q c m exit where
  waits := waits
  quiet v hv := h.quiet (waits v hv.le) (waits (v + 1) hv)
  asked v hv := h.asked (waits v hv.le) (waits (v + 1) hv)
  upstream := settled
  early := h.early_of_waits waits
  moment v hv ended := by
    obtain ⟨exit, settled⟩ := Execution.exists_exit (calm v) ended
    exact h.moment hv (fun w _ hw => waits w hw) settled
  unchanged := unchanged
  settles _ hv := Course.settled_stays settles hv

theorem expires (h : l.Upstream q c) (waits : ∀ v, v ≤ m → q.state v = l.waits (c.state v))
    (running : (c.state m).ended = false) (next : q.state (m + 1) = l.drains (c.state m))
    (rests : ∃ policy depth, (c.state m).going policy depth (q.store m) = false)
    (due : l.deadline ≤ (q.store m).now)
    (stored : q.store (m + 1) =
      ((q.store m).record (.timeoutExpired l.after)).fire l.child) : l.Expires q c m where
  waits := waits
  quiet v hv := h.quiet (waits v hv.le) (waits (v + 1) hv)
  asked v hv := h.asked (waits v hv.le) (waits (v + 1) hv)
  moment := by
    have now := Nat.le_antisymm (h.early_of_waits waits) due
    rw [stored, (Store.atOnce_fire ..).now]
    exact ⟨now, now⟩
  running := running
  rests := rests
  fires v hv := by
    refine h.timely.isFired_stays hv ?_
    rw [stored]
    exact Store.isFired_fire_self ..
  spares := by
    rw [stored, h.spares]
    rfl
  drains := by
    rw [h.above running next]
    exact next

theorem drained (h : l.Upstream q c) (calm : ∀ t p, c.state t ≠ .unwound p) (after : m < k)
    (drains : ∀ v, m < v → v ≤ k → q.state v = l.drains (c.state v))
    (settled : c.state k = .settled exit) (goes_on : q.state (k + 1) = l.next)
    (unchanged : q.store (k + 1) = q.store k) : l.Drained q c m k exit where
  after := after
  drains := drains
  quiet v hv hv' := h.quiet_later (drains v hv hv'.le) (drains (v + 1) (Nat.lt_succ_of_lt hv) hv')
  upstream := settled
  moment v hv hv' ended := by
    obtain ⟨exit, settled⟩ := Execution.exists_exit (calm v) ended
    exact h.moment hv' (fun w hw hw' => drains w (hv.trans_le hw) hw') settled
  unchanged := unchanged
  goes_on := goes_on

/-- The step goes from one stage to the next. -/
theorem stage (h : l.Upstream q c) (calm : ∀ t p, c.state t ≠ .unwound p) (t : Nat) :
    l.Stage q c t := by
  induction t with
  | zero =>
    refine .waits (fun v hv => ?_) h.early
    rw [Nat.le_zero.1 hv]
    exact h.begun
  | succ t ih =>
    -- each stage is left only when the upstream has settled, or for the second at the deadline
    cases ih with
    | waits waits =>
      have here := waits t (Nat.le_refl t)
      have waits_on : q.state (t + 1) = l.waits (c.state (t + 1)) → l.Stage q c (t + 1) := by
        intro next
        have so_far : ∀ v, v ≤ t + 1 → q.state v = l.waits (c.state v) := by
          intro v hv
          rcases Nat.le_succ_iff.1 hv with hv | rfl
          · exact waits v hv
          · exact next
        exact .waits so_far (h.early_of_waits so_far)
      cases running : (c.state t).ended with
      | true =>
        obtain ⟨exit, settled⟩ := Execution.exists_exit (calm t) running
        rw [settled] at here
        rcases (waits_settled here).2 with same | ⟨settles, unchanged⟩
        · refine waits_on ?_
          rw [Course.settled_stays settled (Nat.le_succ t)]
          exact same
        · exact .in_time (Nat.lt_succ_self t) (h.inTime calm waits settled settles unchanged)
      | false =>
        rcases waits_step here running with same | ⟨y, next, -⟩ | ⟨next, rests, due, stored⟩
        · refine waits_on ?_
          rw [h.above running same]
          exact same
        · refine waits_on ?_
          rw [h.above running next]
          exact next
        · have expired := h.expires waits running next rests due stored
          refine .drains (Nat.lt_succ_self t) expired fun v hv hv' => ?_
          rw [Nat.le_antisymm hv' hv]
          exact expired.drains
    | in_time before inTime => exact .in_time (Nat.lt_succ_of_lt before) inTime
    | @drains m before expired drains =>
      have here := drains t before (Nat.le_refl t)
      have drains_on : q.state (t + 1) = l.drains (c.state (t + 1)) → l.Stage q c (t + 1) := by
        intro next
        refine .drains (Nat.lt_succ_of_lt before) expired fun v hv hv' => ?_
        rcases Nat.le_succ_iff.1 hv' with hv' | rfl
        · exact drains v hv hv'
        · exact next
      cases running : (c.state t).ended with
      | true =>
        obtain ⟨exit, settled⟩ := Execution.exists_exit (calm t) running
        rw [settled] at here
        rcases (drains_settled here).2 with same | ⟨goes_on, unchanged⟩
        · refine drains_on ?_
          rw [Course.settled_stays settled (Nat.le_succ t)]
          exact same
        · exact .drained expired (Nat.lt_succ_self t)
            (h.drained calm before drains settled goes_on unchanged)
      | false =>
        rcases drains_step here running with same | ⟨y, next, -⟩
        · refine drains_on ?_
          rw [h.above running same]
          exact same
        · refine drains_on ?_
          rw [h.above running next]
          exact next
    | drained expired before drained => exact .drained expired (Nat.lt_succ_of_lt before) drained

end Upstream

end Limit

end ScopedEffects
