import ScopedEffects.Proofs.Execution.Sound

/-! Where something is in an execution. A move of an execution is a move of one part of it: every
other part that has not ended stays where it is, as it is. Nothing that is under way in a sound
execution is ever dropped. -/

namespace ScopedEffects

/-- One step down an execution: to what a frame waits for, or to a branch of a crew. -/
inductive Hop where
  | above
  | branch (i : Nat)

namespace Execution

variable {H : Host}

def part? : Execution H → Hop → Option (Execution H)
  | frame _ _ above, .above => some above
  | crew _ _ _ b, .branch i => b.find? i
  | _, _ => none

/-- The part of an execution at an address. -/
def at? : Execution H → List Hop → Option (Execution H)
  | e, [] => some e
  | e, hop :: α => (e.part? hop).bind (at? · α)

variable {e e' x : Execution H} {α : List Hop} {s s' : Store H}

theorem Sound.part? {hop : Hop} (h : e.Sound) (hx : e.part? hop = some x) : x.Sound := by
  cases e with
  | frame env f above =>
    cases hop with
    | above => exact Option.some.inj hx ▸ h.2.2
    | branch => cases hx
  | crew env c round b =>
    cases hop with
    | above => cases hx
    | branch i => exact h.2.2.2.find? hx
  | _ => cases hx

/-- What passes from every execution to its parts holds at every address. -/
theorem at?_of_part? {P : Execution H → Prop}
    (parts : ∀ {e hop x}, P e → e.part? hop = some x → P x) (h : P e) (hx : e.at? α = some x) :
    P x := by
  induction α generalizing e with
  | nil => exact Option.some.inj hx ▸ h
  | cons hop α ih =>
    obtain ⟨g, part, hg⟩ := Option.bind_eq_some_iff.1 hx
    exact ih (parts h part) hg

theorem Sound.at? (h : e.Sound) (hx : e.at? α = some x) : x.Sound := at?_of_part? Sound.part? h hx

theorem at?_snoc (e : Execution H) (α : List Hop) (hop : Hop) :
    e.at? (α ++ [hop]) = (e.at? α).bind (part? · hop) := by
  induction α generalizing e with
  | nil => exact Option.bind_fun_some (e.part? hop)
  | cons first α ih =>
    show (e.part? first).bind (at? · (α ++ [hop])) = ((e.part? first).bind (at? · α)).bind _
    rw [Option.bind_assoc]
    exact congrArg _ (funext ih)

theorem at?_ended (he : e.ended = true) (hx : e.at? α = some x) : x.ended = true := by
  cases α with
  | nil => exact Option.some.inj hx ▸ he
  | cons hop α =>
    obtain ⟨g, part, -⟩ := Option.bind_eq_some_iff.1 hx
    cases e <;> cases he <;> cases part

variable [Tracing H] {policy : Policy} {depth : Nat}

theorem move_at? (h : e.Sound) (hm : e.move policy depth s = some (e', s'))
    (hx : e.at? α = some x) (hn : x.ended = false) :
    e'.at? α = some x ∨
      ∃ policy depth x', x.move policy depth s = some (x', s') ∧ e'.at? α = some x' := by
  induction e generalizing policy depth e' s' α with
  | frame env f above ih =>
    cases α with
    | nil =>
      cases hx
      exact .inr ⟨policy, depth, e', hm, rfl⟩
    | cons hop α =>
      cases hop with
      | branch => cases hx
      | above =>
        have hx : above.at? α = some x := hx
        cases move_frame hm with
        | resumes settled =>
          -- the frame goes on only when nothing above it is under way
          rw [at?_ended (by rw [settled]; rfl) hx] at hn
          cases hn
        | passes unwound =>
          have gone := h.2.2
          rw [unwound] at gone
          cases gone
        | moves _ moved =>
          have step := ih h.2.2 moved hx
          exact step
        | expires => exact .inl hx
  | crew env c round b ih =>
    cases α with
    | nil =>
      cases hx
      exact .inr ⟨policy, depth, e', hm, rfl⟩
    | cons hop α =>
      cases hop with
      | above => cases hx
      | branch i =>
        obtain ⟨henv, hc, hd, hb⟩ := h
        obtain ⟨g, found, hg⟩ := Option.bind_eq_some_iff.1 hx
        have found : b.find? i = some g := found
        have same_branch : ∀ {c' line b'}, b'.find? i = b.find? i →
            (crew env c' line b').at? (.branch i :: α) = some x := by
          intro c' line b' hb'
          show (b'.find? i).bind (at? · α) = some x
          rw [hb', found]
          exact hg
        cases move_crew hd hm with
        | keeps hk =>
          cases hk with
          | panics unwound => exact (hb.find? unwound).elim
          | @absorbs j exit line settled =>
            have other : i ≠ j := by
              rintro rfl
              rw [settled] at found
              cases found
              rw [at?_ended rfl hg] at hn
              cases hn
            exact .inl (same_branch (Branches.find?_erase_ne other b))
          | @admits j n rest line hnext =>
            obtain ⟨new, -⟩ := sound_next? hc hnext
            have other : i ≠ j := by
              rintro rfl
              exact new (Branches.mem_indices_iff.2 ⟨g, found⟩)
            exact .inl (same_branch (Branches.find?_push_ne other b _))
          | concludes _ none_left =>
            -- a crew concludes only when no branch is left
            have inside := Branches.mem_indices_iff.2 ⟨g, found⟩
            rw [none_left] at inside
            cases inside
        | @moves j f f' b' line policy' depth' s₁ idle same others moving moved hf =>
          by_cases hij : i = j
          · subst hij
            have same_part : f = g := Option.some.inj (moving.symm.trans found)
            subst same_part
            have here : ∀ y, f'.at? α = some y →
                (crew env c line b').at? (.branch i :: α) = some y := by
              intro y hy
              show (b'.find? i).bind (at? · α) = some y
              rw [moved]
              exact hy
            rcases ih i f moving (hb.find? moving) hf hg with stays | ⟨p, d, x', hx', there⟩
            · exact .inl (here x stays)
            · exact .inr ⟨p, d, x', hx', here x' there⟩
          · exact .inl (same_branch (others i hij))
  | _ =>
    cases α with
    | nil =>
      cases hx
      exact .inr ⟨policy, depth, e', hm, rfl⟩
    | cons hop α =>
      obtain ⟨g, part, -⟩ := Option.bind_eq_some_iff.1 hx
      cases part

end Execution

end ScopedEffects
