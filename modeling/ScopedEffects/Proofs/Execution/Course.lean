import ScopedEffects.Proofs.Execution.Crew

/-! The courses an execution may take. It moves under any policies, and between its moves anything
may happen to the store that it shares with others. -/

namespace ScopedEffects

variable {H : Host} [Tracing H]

structure Course (H : Host) [Tracing H] where
  state : Nat → Execution H
  store : Nat → Store H
  step : ∀ t, (∃ policy depth, (state t).move policy depth (store t) =
    some (state (t + 1), store (t + 1))) ∨ state (t + 1) = state t

namespace Course

def Moves (r : Course H) (t : Nat) : Prop :=
  ∃ policy depth,
    (r.state t).move policy depth (r.store t) = some (r.state (t + 1), r.store (t + 1))

/-- Moves are not put off forever, and all branches settle sooner or later. -/
structure Fair (r : Course H) : Prop where
  moves : ∀ t policy depth moved, (r.state t).move policy depth (r.store t) = some moved →
    ∃ u, t ≤ u ∧ r.Moves u
  branches : ∀ t i e, (r.state t).branch? i = some e →
    ∃ u, t ≤ u ∧ ∀ f, (r.state u).branch? i = some f → ∃ exit, f = .settled exit

variable {r : Course H} {t u : Nat} {exit : Exit H}

theorem settled_stays (h : r.state t = .settled exit) (htu : t ≤ u) :
    r.state u = .settled exit := by
  induction htu with
  | refl => exact h
  | @step u _ ih =>
    rcases r.step u with ⟨policy, depth, moved⟩ | same
    · rw [ih, Execution.move] at moved
      cases moved
    · rw [same, ih]

/-- What has ended, in whatever way, does not move any more. -/
theorem ended_stays (h : (r.state t).ended = true) : r.state (t + 1) = r.state t := by
  rcases r.step t with ⟨policy, depth, moved⟩ | same
  · cases hx : r.state t with
    | settled | unwound =>
      rw [hx, Execution.move] at moved
      cases moved
    | _ =>
      rw [hx] at h
      cases h
  · exact same

theorem stays_until_move (h : ∀ v, t ≤ v → v < u → ¬ r.Moves v) (htu : t ≤ u) :
    r.state u = r.state t := by
  induction htu with
  | refl => rfl
  | @step u htu ih =>
    have before := ih fun v hv hu => h v hv (hu.trans (Nat.lt_succ_self u))
    rcases r.step u with moved | same
    · exact absurd moved (h u htu (Nat.lt_succ_self u))
    · rw [same, before]

theorem fair_of_settled (h : r.state u = .settled exit) : r.Fair := by
  constructor
  · intro t policy depth moved hm
    by_contra none
    have still : ∀ v, t ≤ v → ¬ r.Moves v := fun v hv hmv => none ⟨v, hv, hmv⟩
    have later := settled_stays h (Nat.le_max_right t u)
    have same := stays_until_move (fun v hv _ => still v hv) (Nat.le_max_left t u)
    rw [later] at same
    rw [← same, Execution.move] at hm
    cases hm
  · intro t i e _
    refine ⟨max t u, Nat.le_max_left t u, fun f hf => ?_⟩
    rw [settled_stays h (Nat.le_max_right t u)] at hf
    cases hf

end Course

end ScopedEffects
