import ScopedEffects.Proofs.Execution.Branches

/-! What depth means to a policy. An execution at some depth sees of a policy what that says from
there on, so that two policies that agree from two depths on move it alike at the one and at the
other. -/

namespace ScopedEffects

variable {H : Host} {p q : Policy} {j k : Nat}

namespace Policy

/-- From the depth `j` on, `p` is what `q` is from the depth `k` on. -/
structure Agree (p q : Policy) (j k : Nat) : Prop where
  pick : ∀ d, p.pick (j + d) = q.pick (k + d)
  yields : ∀ d, p.yields (j + d) = q.yields (k + d)
  anew : p.anew = q.anew

theorem Agree.choose (h : Agree p q j k) (queue : List Nat) :
    p.choose j queue = q.choose k queue := by
  rw [Policy.choose, Policy.choose, show p.pick j = q.pick k from h.pick 0]

theorem Agree.symm (h : Agree p q j k) : Agree q p k j :=
  ⟨fun d => (h.pick d).symm, fun d => (h.yields d).symm, h.anew.symm⟩

theorem Agree.later (h : Agree p q j k) (i : Nat) : Agree p q (j + i) (k + i) where
  pick d := by
    rw [Nat.add_assoc, Nat.add_assoc]
    exact h.pick (i + d)
  yields d := by
    rw [Nat.add_assoc, Nat.add_assoc]
    exact h.yields (i + d)
  anew := h.anew

/-- Policies that agree do so on branches and sides, too. -/
theorem Agree.toward (h : Agree p q j k) (poll : Poll) (going : Bool) (i : Nat) :
    Agree (poll.toward p going i) (poll.toward q going i) j k :=
  ⟨h.pick, h.yields, by rw [Poll.toward, Poll.toward, h.anew]⟩

theorem Agree.polling (h : Agree p q j k) (anew : Bool) :
    Agree { p with anew := anew } { q with anew := anew } j k :=
  ⟨h.pick, h.yields, rfl⟩

/-- The policies that a move may follow, if the latest poll lets the execution go on and if it does
not. -/
abbrev Choice := (going : Bool) → Policy → Prop

/-- Choices for which depth does not matter: to each policy there is one that says the same a level
further out, and one that says it a level further in. -/
structure Family (P : Choice) : Prop where
  inhabited : ∃ p, P true p
  outward : ∀ going p, P going p → ∃ q, P going q ∧ Agree p q 1 0
  inward : ∀ going p, P going p → ∃ q, P going q ∧ Agree p q 0 1

/-- Any policy, as a machine polls: a poll begins with the move unless the latest one goes on. -/
def polled : Choice := fun going p => p.anew = !going

theorem family_polled : Family polled where
  inhabited := ⟨standard, rfl⟩
  outward going p h := by
    refine ⟨⟨fun d => p.pick (1 + d), fun d => p.yields (1 + d), p.anew⟩, h, ?_, ?_, rfl⟩
    · exact fun d => by rw [Nat.zero_add]
    · exact fun d => by rw [Nat.zero_add]
  inward going p h := by
    refine ⟨⟨fun d => p.pick (d - 1), fun d => p.yields (d - 1), p.anew⟩, h, ?_, ?_, rfl⟩
    · exact fun d => by simp only [Nat.zero_add, Nat.add_sub_cancel_left]
    · exact fun d => by simp only [Nat.zero_add, Nat.add_sub_cancel_left]

/-- To pick alike at all depths, and never to yield. -/
def level (pick : List Nat → Option Nat) : Choice :=
  fun going p => p = { pick := fun _ => pick, anew := !going }

theorem family_level (pick : List Nat → Option Nat) : Family (level pick) where
  inhabited := ⟨_, rfl⟩
  outward going p h := by
    exact ⟨p, h, h ▸ fun _ => rfl, h ▸ fun _ => rfl, rfl⟩
  inward going p h := by
    exact ⟨p, h, h ▸ fun _ => rfl, h ▸ fun _ => rfl, rfl⟩

end Policy

namespace Task

theorem move_agree {d : Driving H}
    (moves : ∀ {p q j k}, Policy.Agree p q j k → d.move p j = d.move q k)
    (agree : Policy.Agree p q j k) (t : Task H) (s : Store H) : t.move p d j s = t.move q d k s := by
  induction t generalizing p q j k s with
  | run | sleeping | watching => rfl
  | waiting w next => simp only [move, moves (agree.later 1)]
  | both l r poll next ihl ihr | first l r poll next ihl ihr =>
    simp only [move, agree.anew, agree.choose, ihl ((agree.later 1).toward poll _ 0),
      ihr ((agree.later 1).toward poll _ 1)]

end Task

theorem Store.moveSlot_agree (fuel : Nat) (busy : List Place) (agree : Policy.Agree p q j k) :
    moveSlot (H := H) fuel busy p j = moveSlot fuel busy q k := by
  induction fuel generalizing p q j k busy with
  | zero => rfl
  | succ fuel ih =>
    funext w s
    have moves := @Task.move_agree H p q j k
      ⟨slotReady fuel (w.place :: busy), slotGoing fuel (w.place :: busy),
        moveSlot fuel (w.place :: busy)⟩ (ih (w.place :: busy)) agree
    simp only [moveSlot, moves]

theorem Task.step_agree (agree : Policy.Agree p q j k) (t : Task H) (s : Store H) :
    t.step p j s = t.step q k s :=
  t.move_agree (Store.moveSlot_agree s.chase []) agree s

namespace Execution

theorem moveTask_agree (agree : Policy.Agree p q j k) (s : Store H) (guard : Guard) (t : Task H) :
    moveTask p j s guard t = moveTask q k s guard t := by
  simp only [moveTask, agree.anew, t.step_agree agree]

theorem going_agree (agree : Policy.Agree p q j k) (x : Execution H) (s : Store H) :
    x.going p j s = x.going q k s := by
  induction x generalizing p q j k with
  | enter | pause | settled | unwound => rw [going, going]
  | task guard t => simp only [going, agree.anew]
  | frame env f above ih => rw [going, going, ih (agree.later 1)]
  | crew env c round b ih =>
    have branch : ∀ i, branchGoing p (j + 1) s i b = branchGoing q (k + 1) s i b := by
      intro i
      rw [branchGoing_eq, branchGoing_eq]
      cases found : b.find? i with
      | none => rfl
      | some e => simp only [Option.any_some, ih i e found (agree.later 1)]
    simp only [going, agree.anew, branch, show p.yields j = q.yields k from agree.yields 0]

theorem branchGoing_agree (agree : Policy.Agree p q j k) (i : Nat) (b : Branches H) (s : Store H) :
    branchGoing p j s i b = branchGoing q k s i b := by
  simp only [branchGoing_eq, fun e : Execution H => e.going_agree agree s]

/-- Policies that agree from two depths on move an execution alike at these depths. -/
theorem move_agree [Tracing H] (agree : Policy.Agree p q j k) (x : Execution H) (s : Store H) :
    x.move p j s = x.move q k s := by
  induction x generalizing p q j k s with
  | enter | pause | settled | unwound => rw [move, move]
  | task guard t => rw [move, move, moveTask_agree agree]
  | frame env f above ih =>
    rw [move, move]
    simp only [above.going_agree (agree.later 1), ih (agree.later 1)]
  | crew env c round b ih =>
    have branch : ∀ going i, moveBranch (round.toward p going i) (j + 1) s i b =
        moveBranch (round.toward q going i) (k + 1) s i b := by
      intro going i
      rw [moveBranch_eq, moveBranch_eq]
      cases found : b.find? i with
      | none => rw [Option.bind_none, Option.bind_none]
      | some e => simp only [Option.bind_some, ih i e found ((agree.later 1).toward _ going i)]
    have goes : ∀ i, branchGoing p (j + 1) s i b = branchGoing q (k + 1) s i b :=
      fun i => branchGoing_agree (agree.later 1) i b s
    have stays : ∀ i b s, branchGoing { p with anew := false } (j + 1) s i b =
        branchGoing (H := H) { q with anew := false } (k + 1) s i b :=
      fun i b s => branchGoing_agree ((agree.later 1).polling false) i b s
    simp only [move, agree.choose, agree.anew, goes, branch, stays]

end Execution

end ScopedEffects
