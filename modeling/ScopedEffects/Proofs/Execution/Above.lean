import ScopedEffects.Proofs.Execution.Timely

/-! What is above a frame, as a course of its own. The frame lets it move, and does nothing by
itself until it has ended, unless the frame is a timeout whose time is over. -/

namespace ScopedEffects

variable {H : Host}

theorem Execution.exists_exit {x : Execution H} (calm : ∀ p, x ≠ .unwound p)
    (ended : x.ended = true) : ∃ exit, x = .settled exit := by
  cases x with
  | settled exit => exact ⟨exit, rfl⟩
  | unwound p => exact absurd rfl (calm p)
  | _ => cases ended

namespace Course

variable [Tracing H] {q c : Course H} {env : Env} {f : Frame H} {x y : Execution H} {t u : Nat}
  {exit : Exit H}

/-- What is above a frame, as it is seen from its beginning `x` on until it has ended. -/
def upstream (q : Course H) (x : Execution H) : Nat → Execution H
  | 0 => x
  | t + 1 =>
    if (q.upstream x t).ended then q.upstream x t
    else ((q.state (t + 1)).part? .above).getD (q.upstream x t)

theorem upstream_of_ended (h : (q.upstream x t).ended = true) :
    q.upstream x (t + 1) = q.upstream x t := by
  rw [upstream, if_pos h]

theorem upstream_of_part? (running : (q.upstream x t).ended = false)
    (h : (q.state (t + 1)).part? .above = some y) : q.upstream x (t + 1) = y := by
  rw [upstream, running, if_neg Bool.false_ne_true, h]
  rfl

/-- Time passes for a part as it does for the whole. -/
theorem Timely.above (h : q.Timely) (shared : c.store = q.store)
    (part : ∀ t, (q.state t).part? .above = some (c.state t) ∨ (c.state t).ended = true) :
    c.Timely where
  fired t := by
    rw [shared]
    exact h.fired t
  forward t := by
    rw [shared]
    exact h.forward t
  held t passes := by
    rw [shared] at passes ⊢
    rcases part t with above | ended
    · obtain ⟨blocked, least⟩ := h.held t passes
      exact ⟨Execution.blocked_of_part? above blocked,
        fun d hd => least d (Execution.deadlines_of_part? above hd)⟩
    · obtain ⟨blocked, none_due⟩ := Execution.ready_of_ended ended
      rw [blocked, none_due]
      exact ⟨rfl, fun d hd => absurd hd List.not_mem_nil⟩

/-- The course `c` of what is above the frame `f`, over the stores of the course `q`. -/
structure Above (q c : Course H) (env : Env) (f : Frame H) : Prop where
  shared : c.store = q.store
  begun : q.state 0 = .frame env f (c.state 0)
  above : ∀ {t y}, (c.state t).ended = false → q.state (t + 1) = .frame env f y →
    c.state (t + 1) = y
  around : ∀ t, q.state t = .frame env f (c.state t) ∨ (c.state t).ended = true

/-- While what is above it is under way, a frame that is no timeout lets it move. -/
theorem lasting_step (lasting : ∀ deadline after child fallback,
    f ≠ .timeout deadline after child fallback) (h : q.state t = .frame env f x)
    (running : x.ended = false) :
    ∃ y, q.state (t + 1) = .frame env f y ∧ ((∃ policy depth,
      x.move policy depth (q.store t) = some (y, q.store (t + 1))) ∨ y = x) := by
  rcases frame_step h running with same | ⟨y, next, moved⟩ | ⟨_, _, _, _, timeout, -⟩
  · exact ⟨x, same, .inr rfl⟩
  · exact ⟨y, next, .inl moved⟩
  · exact absurd timeout (lasting _ _ _ _)

theorem exists_above (lasting : ∀ deadline after child fallback,
    f ≠ .timeout deadline after child fallback) (begun : q.state 0 = .frame env f x) :
    ∃ c : Course H, c.state 0 = x ∧ q.Above c env f := by
  have step : ∀ t, q.state t = .frame env f (q.upstream x t) ∨ (q.upstream x t).ended = true →
      (q.state (t + 1) = .frame env f (q.upstream x (t + 1)) ∨
          (q.upstream x (t + 1)).ended = true) ∧
        ((∃ policy depth, (q.upstream x t).move policy depth (q.store t) =
            some (q.upstream x (t + 1), q.store (t + 1))) ∨
          q.upstream x (t + 1) = q.upstream x t) := by
    intro t here
    cases running : (q.upstream x t).ended with
    | true =>
      rw [upstream_of_ended running]
      exact ⟨.inr running, .inr rfl⟩
    | false =>
      rcases here with here | ended
      · obtain ⟨y, next, moved⟩ := lasting_step lasting here running
        rw [upstream_of_part? running (congrArg (Execution.part? · .above) next)]
        exact ⟨.inl next, moved⟩
      · rw [running] at ended
        cases ended
  have around : ∀ t, q.state t = .frame env f (q.upstream x t) ∨
      (q.upstream x t).ended = true := by
    intro t
    induction t with
    | zero => exact .inl begun
    | succ t ih => exact (step t ih).1
  let c : Course H := ⟨q.upstream x, q.store, fun t => (step t (around t)).2⟩
  exact ⟨c, rfl, rfl, begun, fun running next =>
    upstream_of_part? running (congrArg (Execution.part? · .above) next), around⟩

/-- No time passes from the moment at which what is above a frame has settled until the frame goes
on. -/
theorem Timely.moment (h : q.Timely) (htu : t ≤ u)
    (here : ∀ v, t ≤ v → v ≤ u → q.state v = .frame env f (c.state v))
    (settled : c.state t = .settled exit) : (q.store t).now = (q.store u).now := by
  refine h.still_until htu fun v htv hvu => ?_
  rw [here v htv hvu.le, settled_stays settled htv]
  rfl

namespace Above

theorem timely_above (h : q.Above c env f) (timely : q.Timely) : c.Timely := by
  refine timely.above h.shared fun t => ?_
  rcases h.around t with here | ended
  · exact .inl (congrArg (Execution.part? · .above) here)
  · exact .inr ended

/-- As long as the frame waits, it is what is above it that moves. -/
theorem quiet (h : q.Above c env f) (here : q.state t = .frame env f (c.state t))
    (running : (c.state t).ended = false) (next : q.state (t + 1) = .frame env f (c.state (t + 1)))
    (moves : q.Moves t) : c.Moves t := by
  have moved := frame_moves here moves
  rw [Moves, h.shared]
  generalize c.state t = x at moved running ⊢
  generalize c.state (t + 1) = y at next ⊢
  generalize q.state (t + 1) = e, q.store (t + 1) = s at moved next ⊢
  cases moved with
  | resumes settled =>
    rw [settled] at running
    cases running
  | passes unwound =>
    rw [unwound] at running
    cases running
  | expires _ timeout =>
    rw [timeout] at next
    cases next
  | moves _ moved =>
    cases next
    exact ⟨_, _, moved⟩

end Above

end Course

end ScopedEffects
