import ScopedEffects.Proofs.Execution.Story

/-! Chronicles: the stories of machines without an end. A chronicle is fair if a move that is possible
is not put off forever, however much time passes meanwhile. -/

namespace ScopedEffects

variable {H : Host} [Tracing H]

structure Chronicle (H : Host) [Tracing H] where
  state : Nat → Machine H
  step : ∀ t, (state t).Step (state (t + 1))

namespace Chronicle

/-- What happens up to an instant. -/
def upTo (c : Chronicle H) (n : Nat) : Story H where
  state := c.state
  last := n
  step := fun t _ => c.step t

def Steady (c : Chronicle H) : Prop := ∀ t, (c.state t).execution.Steady (c.state t).store

/-- The execution moves at this step. -/
def Moves (c : Chronicle H) (t : Nat) : Prop := ∃ policy e s,
  (c.state t).execution.move policy 0 (c.state t).store = some (e, s) ∧
    c.state (t + 1) = { c.state t with execution := e, store := s }

def Fair (c : Chronicle H) : Prop := ∀ t policy moved,
  (c.state t).execution.move policy 0 (c.state t).store = some moved → ∃ u, t ≤ u ∧ c.Moves u

variable {c : Chronicle H} {t u : Nat}

theorem Steady.upTo (h : c.Steady) (n : Nat) : (c.upTo n).Steady := fun t _ => h t

theorem execution_of_not_moves (h : ¬ c.Moves t) :
    (c.state (t + 1)).execution = (c.state t).execution := by
  have step := c.step t
  generalize hm : c.state (t + 1) = m at step
  cases step with
  | moves moved => exact absurd ⟨_, _, _, moved, hm⟩ h
  | rings | passes => rfl

/-- The execution is left as it is up to its next move. -/
theorem Fair.next_move (fair : c.Fair) {policy : Policy} {moved : Execution H × Store H}
    (h : (c.state t).execution.move policy 0 (c.state t).store = some moved) :
    ∃ u, t ≤ u ∧ c.Moves u ∧ ∀ v, t ≤ v → v ≤ u →
      (c.state v).execution = (c.state t).execution := by
  classical
  have later := fair t policy moved h
  obtain ⟨after, moves⟩ := Nat.find_spec later
  have first : ∀ v, t ≤ v → v < Nat.find later → ¬ c.Moves v := fun v htv hv hm =>
    Nat.find_min later hv ⟨htv, hm⟩
  refine ⟨Nat.find later, after, moves, fun v htv => ?_⟩
  induction htv with
  | refl => exact fun _ => rfl
  | @step v htv ih =>
    intro hv
    rw [execution_of_not_moves (first v htv hv), ih (Nat.le_of_lt hv)]

end Chronicle

end ScopedEffects
