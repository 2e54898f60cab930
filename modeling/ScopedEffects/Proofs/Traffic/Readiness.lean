import Mathlib.Tactic
import ScopedEffects.Progress

/-! Who is ready moves. Under a policy that picks a branch whenever one is ready, a task that is said
to be ready has a move, by itself or by way of a resolution that it waits for. What a poll lets go on is
ready, and a poll that begins lets everything go on that is ready. -/

namespace ScopedEffects

variable {H : Host} {s : Store H} {policy : Policy}

/-- Some branch is picked as long as there is one to be picked. -/
def Policy.Diligent (p : Policy) : Prop :=
  ∀ depth queue, queue ≠ [] → ∃ i, p.choose depth queue = some i

/-- Every policy of the schedule picks some branch. -/
def Schedule.Diligent (schedule : Schedule) : Prop := ∀ t, (schedule t).Diligent

theorem Policy.diligent_standard : Policy.standard.Diligent := by
  intro depth queue some_queued
  obtain ⟨i, rest, rfl⟩ := List.exists_cons_of_ne_nil some_queued
  exact ⟨i, by simp [choose, standard]⟩

theorem Schedule.diligent_standard : Schedule.standard.Diligent := fun _ => Policy.diligent_standard

theorem Policy.Diligent.toward (h : policy.Diligent) (q : Poll) (going : Bool) (i : Nat) :
    (q.toward policy going i).Diligent := h

theorem Policy.Diligent.anew (h : policy.Diligent) (anew : Bool) :
    ({ policy with anew := anew } : Policy).Diligent := h

/-- The branch that is picked of those that can move. -/
theorem Policy.Diligent.exists_choice (h : policy.Diligent) (depth : Nat) (queue : List Nat)
    {ready : List Nat} (some_ready : ready ≠ []) :
    ∃ i ∈ ready, policy.choose depth (refill queue ready) = some i := by
  obtain ⟨i, hi⟩ := List.exists_mem_of_ne_nil ready some_ready
  have queued : refill queue ready ≠ [] := List.ne_nil_of_mem (mem_refill.2 hi)
  obtain ⟨j, chosen⟩ := h depth _ queued
  exact ⟨j, mem_refill.1 (Policy.mem_of_choose chosen), chosen⟩

/-! What a poll lets go on -/

namespace Poll

variable {q : Poll} {anew ready going : Bool} {now : Clock} {i : Nat}

theorem ready_of_admits (keeps : going = true → ready = true)
    (h : q.admits anew now i ready going = true) : ready = true := by
  unfold admits at h
  dsimp only at h
  split at h
  · exact keeps (Bool.and_eq_true_iff.1 h).2
  · exact h

@[simp] theorem admits_anew (q : Poll) (now : Clock) (i : Nat) (ready going : Bool) :
    q.admits true now i ready going = ready := by
  simp [admits, polled]

end Poll

/-- What the driving of resolutions lets go on is ready. -/
def Task.Driving.Honest (d : Task.Driving H) : Prop :=
  ∀ anew s w, d.going anew s w = true → d.ready s w = true

namespace Task

variable {d : Driving H} {t l r : Task H} {slotReady slotGoing : Wait → Bool} {anew : Bool}

theorem ready_of_going (slots : ∀ w, slotGoing w = true → slotReady w = true)
    (h : t.going anew s slotReady slotGoing = true) : t.ready s slotReady = true := by
  induction t with
  | run p => cases p <;> exact h
  | sleeping | watching => exact h
  | waiting w => exact slots w h
  | both l r poll next ihl ihr =>
    simp only [going, Bool.or_eq_true] at h
    simp only [ready, Bool.or_eq_true]
    exact h.imp (.imp_right (Poll.ready_of_admits ihl)) (Poll.ready_of_admits ihr)
  | first l r poll next ihl ihr =>
    simp only [going, Bool.or_eq_true] at h
    simp only [ready, Bool.or_eq_true]
    exact h.imp (.imp_right (Poll.ready_of_admits ihl)) (Poll.ready_of_admits ihr)

/-- A poll that begins lets a task go on that is ready. -/
theorem going_anew (slots : slotGoing = slotReady) (t : Task H) :
    t.going true s slotReady slotGoing = t.ready s slotReady := by
  subst slots
  cases t with
  | both | first => simp only [going, ready, Poll.admits_anew]
  | run p => cases p <;> rfl
  | _ => rfl

theorem ended_eq (t : Task H) : t.ended = (t.exit?.isSome || t.panic?.isSome) := by
  unfold ended exit? panic?
  rcases t.outcome? with _ | _ | _ <;> rfl

theorem mem_sides {left right : Bool} {i : Nat} :
    i ∈ sides left right ↔ i = 0 ∧ left = true ∨ i = 1 ∧ right = true := by
  cases left <;> cases right <;> simp [sides]

/-- The side that moves next can move. -/
theorem ready_of_mem_line (honest : d.Honest) {poll : Poll} {i : Nat}
    (h : i ∈ line anew s d poll l r) :
    i = 0 ∧ l.ready s (d.ready s) = true ∨ i = 1 ∧ r.ready s (d.ready s) = true := by
  have keeps : ∀ t : Task H, d.lets anew s t = true → t.ready s (d.ready s) = true :=
    fun t => ready_of_going (honest anew s)
  unfold line at h
  extract_lets admitted at h
  split at h
  · exact mem_sides.1 h
  · exact (mem_sides.1 h).imp (.imp_right (Poll.ready_of_admits (keeps l)))
      (.imp_right (Poll.ready_of_admits (keeps r)))

theorem line_ne_nil {poll : Poll}
    (h : l.ready s (d.ready s) = true ∨ r.ready s (d.ready s) = true) :
    line anew s d poll l r ≠ [] := by
  unfold line
  extract_lets admitted
  split
  · rcases h with h | h
    · exact List.ne_nil_of_mem (mem_sides.2 (.inl ⟨rfl, h⟩))
    · exact List.ne_nil_of_mem (mem_sides.2 (.inr ⟨rfl, h⟩))
  · rename_i some_admitted
    exact fun empty => some_admitted (List.isEmpty_iff.2 empty)

/-- When one of a pair is ready, one that is ready is picked. -/
theorem pick_cases (anew : Bool) (diligent : policy.Diligent) (honest : d.Honest) (depth : Nat)
    (poll : Poll) (h : l.ready s (d.ready s) = true ∨ r.ready s (d.ready s) = true) :
    policy.choose depth (line anew s d poll l r) = some 0 ∧ l.ready s (d.ready s) = true ∨
      policy.choose depth (line anew s d poll l r) = some 1 ∧ r.ready s (d.ready s) = true := by
  obtain ⟨i, chosen⟩ := diligent depth _ (line_ne_nil h)
  rcases ready_of_mem_line honest (Policy.mem_of_choose chosen) with ⟨rfl, ready⟩ | ⟨rfl, ready⟩
  · exact .inl ⟨chosen, ready⟩
  · exact .inr ⟨chosen, ready⟩

/-- A task that is ready moves, if what it waits for moves as long as it is ready. -/
theorem exists_move (diligent : policy.Diligent) (honest : d.Honest)
    (driven : ∀ policy : Policy, policy.Diligent → ∀ depth w s, d.ready s w = true →
      s.answer? w = none → ∃ s', d.move policy depth w s = some s')
    (h : t.ready s (d.ready s) = true) (depth : Nat) :
    ∃ moved, t.move policy d depth s = some moved := by
  induction t generalizing depth policy with
  | run p =>
    cases p with
    | done | panic => cases h
    | get via key =>
      unfold move advance
      dsimp only
      split <;> exact ⟨_, rfl⟩
    | _ => exact ⟨_, rfl⟩
  | sleeping till next =>
    have due : till ≤ s.now := of_decide_eq_true h
    exact ⟨_, if_pos due⟩
  | watching g next => exact ⟨_, if_pos h⟩
  | waiting w next =>
    unfold move
    cases answer : s.answer? w with
    | some o => exact ⟨_, rfl⟩
    | none =>
      obtain ⟨s', moved⟩ := driven policy diligent (depth + 1) w s h answer
      exact ⟨_, congrArg (Option.map _) moved⟩
  | both l r poll next ihl ihr =>
    -- unless the pair can be left at once, one of the two is ready
    have picks : l.panic? = none → r.panic? = none → (l.exit? = none ∨ r.exit? = none) →
        ∃ moved, (both l r poll next).move policy d depth s = some moved := by
      intro hl hr unsettled
      have one_ready : l.ready s (d.ready s) = true ∨ r.ready s (d.ready s) = true := by
        unfold ready at h
        rw [ended_eq, ended_eq, hl, hr] at h
        rcases unsettled with hx | hx <;> simpa [hx] using h
      unfold move
      rw [hl, hr]
      have picked := pick_cases policy.anew diligent honest depth poll one_ready
      rcases picked with ⟨chosen, ready⟩ | ⟨chosen, ready⟩
      · obtain ⟨moved, hm⟩ :=
          ihl (diligent.toward poll (d.lets policy.anew s l) 0) ready (depth + 1)
        rcases unsettled with hx | hx <;> simp [hx, chosen, hm]
      · obtain ⟨moved, hm⟩ :=
          ihr (diligent.toward poll (d.lets policy.anew s r) 1) ready (depth + 1)
        rcases unsettled with hx | hx <;> simp [hx, chosen, hm]
    cases hlp : l.panic? with
    | some p => exact ⟨_, by rw [move, hlp]⟩
    | none =>
      cases hrp : r.panic? with
      | some p => exact ⟨_, by rw [move, hlp, hrp]⟩
      | none =>
        cases hl : l.exit? with
        | none => exact picks hlp hrp (.inl hl)
        | some a =>
          cases hr : r.exit? with
          | none => exact picks hlp hrp (.inr hr)
          | some b => exact ⟨_, by rw [move, hlp, hrp, hl, hr]⟩
  | first l r poll next ihl ihr =>
    unfold move
    cases hl : l.outcome? with
    | some o => cases o <;> exact ⟨_, rfl⟩
    | none =>
      cases hr : r.outcome? with
      | some o => cases o <;> exact ⟨_, rfl⟩
      | none =>
        have one_ready : l.ready s (d.ready s) = true ∨ r.ready s (d.ready s) = true := by
          unfold ready ended at h
          simpa [hl, hr] using h
        have picked := pick_cases policy.anew diligent honest depth poll one_ready
        rcases picked with ⟨chosen, ready⟩ | ⟨chosen, ready⟩
        · obtain ⟨moved, hm⟩ :=
            ihl (diligent.toward poll (d.lets policy.anew s l) 0) ready (depth + 1)
          simp [chosen, hm]
        · obtain ⟨moved, hm⟩ :=
            ihr (diligent.toward poll (d.lets policy.anew s r) 1) ready (depth + 1)
          simp [chosen, hm]

end Task

namespace Store

theorem slotReady_of_slotGoing {fuel : Nat} {busy : List Place} {anew : Bool} {w : Wait}
    (h : slotGoing fuel busy anew s w = true) : slotReady fuel busy s w = true := by
  induction fuel generalizing busy w with
  | zero => cases h
  | succ fuel ih =>
    unfold slotGoing at h
    unfold slotReady
    split at h
    · cases h
    · rfl
    · obtain ⟨free, going⟩ := Bool.and_eq_true_iff.1 h
      refine Bool.and_eq_true_iff.2 ⟨free, ?_⟩
      exact Bool.or_eq_true_iff.2 ((Bool.or_eq_true_iff.1 going).imp_right
        (Task.ready_of_going fun _ => ih))

theorem slotGoing_anew (fuel : Nat) (busy : List Place) (s : Store H) :
    slotGoing fuel busy true s = slotReady fuel busy s := by
  induction fuel generalizing busy with
  | zero => rfl
  | succ fuel ih =>
    funext w
    simp only [slotGoing, slotReady, Task.going_anew (ih (w.place :: busy))]

theorem honest_driving (fuel : Nat) (busy : List Place) :
    (⟨slotReady fuel busy, slotGoing fuel busy, moveSlot fuel busy⟩ : Task.Driving H).Honest :=
  fun _ _ _ => slotReady_of_slotGoing

/-- A resolution that is ready, and has not settled, can be driven. -/
theorem exists_moveSlot (diligent : policy.Diligent) {fuel : Nat} {busy : List Place}
    {depth : Nat} {w : Wait} (h : s.slotReady fuel busy w = true) (unsettled : s.answer? w = none) :
    ∃ s', s.moveSlot fuel busy policy depth w = some s' := by
  induction fuel generalizing busy policy depth w s with
  | zero => cases h
  | succ fuel ih =>
    unfold slotReady at h
    unfold moveSlot
    cases hx : s.slot? w.scope w.key with
    | none =>
      rw [hx] at h
      cases h
    | some x =>
      rw [hx] at h
      cases x with
      | settled o =>
        unfold answer? at unsettled
        rw [hx] at unsettled
        cases unsettled
      | running t =>
        obtain ⟨free, ready⟩ := Bool.and_eq_true_iff.1 h
        have free : busy.contains w.place = false := by simpa using free
        rw [free]
        dsimp only
        cases ho : t.outcome? with
        | some o => exact ⟨_, rfl⟩
        | none =>
          have ready : t.ready s (slotReady fuel (w.place :: busy) s) = true := by
            unfold Task.ended at ready
            simpa [ho] using ready
          obtain ⟨moved, hm⟩ := Task.exists_move diligent (honest_driving fuel (w.place :: busy))
            (fun _ diligent _ _ _ => ih diligent) ready depth
          exact ⟨_, congrArg (Option.map _) hm⟩

end Store

namespace Task

variable {t : Task H} {anew : Bool}

theorem canMove_of_goesOn (h : t.goesOn anew s = true) : t.canMove s = true :=
  ready_of_going (fun _ => Store.slotReady_of_slotGoing) h

/-- A poll that begins lets a task go on that can move. -/
theorem goesOn_anew (t : Task H) (s : Store H) : t.goesOn true s = t.canMove s :=
  going_anew (Store.slotGoing_anew s.chase [] s) t

theorem exists_step (diligent : policy.Diligent) (h : t.canMove s = true) (depth : Nat) :
    ∃ moved, t.step policy depth s = some moved :=
  exists_move diligent (Store.honest_driving s.chase [])
    (fun _ diligent _ _ _ => Store.exists_moveSlot diligent) h depth

end Task

end ScopedEffects
