import Mathlib.Data.Set.List
import ScopedEffects.Effect.Basic
import ScopedEffects.Proofs.Execution.Contests
import ScopedEffects.Proofs.Execution.Timely

/-! The outcome of running `any`. All branches begin together, and each is absorbed when it has
settled. The first value is kept, whatever was absorbed before it and whatever comes after. Until
there is one, each failure is written into the place of its branch and nothing else is changed; so
when no branch is left and none has succeeded, every place holds the failure of its branch. -/

namespace ScopedEffects

variable {H : Host} {a : Shape H.Plain}

namespace Execution

def branches : Execution H → Branches H
  | crew _ _ _ b => b
  | _ => .nil

theorem branch?_eq (e : Execution H) (i : Nat) : e.branch? i = e.branches.find? i := by
  cases e <;> rfl

end Execution

namespace Course

variable [Tracing H] {r : Course H} {n : Nat} {env : Env} {child : Signal} {t u v i j : Nat}
  {errors : List (Option (Failure H))} {won : Option (Value H)} {b b' : Branches H}
  {round line : Round} {x : Value H} {f : Failure H} {e : Exit H}

/-- At the instant `v` the branch `j` has succeeded, and no other branch has up to then. -/
structure FirstSuccess (r : Course H) (v j : Nat) (x : Value H) : Prop where
  succeeds : (r.state v).branch? j = some (.settled (.ok x))
  first : ∀ w i y, w ≤ v → (r.state w).branch? i = some (.settled (.ok y)) → i = j ∧ y = x

theorem FirstSuccess.unique {x' : Value H} (h : r.FirstSuccess v j x)
    (h' : r.FirstSuccess u i x') : j = i ∧ x = x' := by
  rcases Nat.le_total v u with before | after
  · exact h'.first v j x before h.succeeds
  · obtain ⟨rfl, rfl⟩ := h.first u i x' after h'.succeeds
    exact ⟨rfl, rfl⟩

/-- An `any` of `n` branches is under way, and knows what the branches that have been absorbed did.
One branch at most has settled and is still to be absorbed. -/
structure Trying (r : Course H) (n : Nat) (env : Env) (child : Signal) (t : Nat)
    (errors : List (Option (Failure H))) (won : Option (Value H)) (b : Branches H) : Prop where
  here : ∃ round, r.state t = .crew env (.any child errors won) round b
  inside : b.indices.Sublist (List.range n)
  slots : errors.length = n
  single : ∀ i j e e', b.find? i = some (.settled e) → b.find? j = some (.settled e') → i = j
  exits : ∀ u i e, u ≤ t → (r.state u).branch? i = some (.settled e) →
    i < n ∧ (i ∈ b.indices → b.find? i = some (.settled e))
  failed : won = none → ∀ i, i < n → i ∉ b.indices → ∃ f, errors[i]? = some (some f) ∧
    (∃ u, u < t ∧ (r.state u).branch? i = some (.settled (.error f))) ∧
    ∀ u e, u ≤ t → (r.state u).branch? i = some (.settled e) → e = .error f
  decided : ∀ x, won = some x → ∃ v j, v < t ∧ r.FirstSuccess v j x

namespace Trying

theorem below (h : r.Trying n env child t errors won b) (hi : i ∈ b.indices) : i < n :=
  List.mem_range.1 (h.inside.subset hi)

/-- Undecided, the crew has absorbed no value. -/
theorem undecided (h : r.Trying n env child t errors none b) (hut : u ≤ t)
    (succeeds : (r.state u).branch? i = some (.settled (.ok x))) :
    b.find? i = some (.settled (.ok x)) := by
  obtain ⟨hi, kept⟩ := h.exits u i _ hut succeeds
  by_cases inside : i ∈ b.indices
  · exact kept inside
  · obtain ⟨f, -, -, only⟩ := h.failed rfl i hi inside
    cases only u _ hut succeeds

theorem branch? (h : r.Trying n env child t errors won b) (i : Nat) :
    (r.state t).branch? i = b.find? i := by
  obtain ⟨round, here⟩ := h.here
  rw [here]
  rfl

theorem distinct (h : r.Trying n env child t errors won b) : b.indices.Nodup :=
  h.inside.nodup List.nodup_range

theorem start (env : Env) (nodes : List (Node H))
    (here : r.state 0 = .crew env (.any child (nodes.map fun _ => none) none) round
      (.ofNodes { env with signal := child } 0 nodes)) :
    r.Trying nodes.length env child 0 (nodes.map fun _ => none) none
      (.ofNodes { env with signal := child } 0 nodes) where
  here := ⟨round, here⟩
  inside := by
    rw [Branches.indices_ofNodes, List.range_eq_range']
  slots := List.length_map _
  single i j e e' found := by
    obtain ⟨n, -, entered⟩ := Branches.find?_ofNodes found
    cases entered
  exits u i e hu settled := by
    rw [Nat.le_zero.1 hu, here] at settled
    obtain ⟨n, -, entered⟩ := Branches.find?_ofNodes settled
    cases entered
  failed _ i hi absent := by
    rw [Branches.indices_ofNodes] at absent
    exact absurd (by simpa using hi) absent
  decided x hx := nomatch hx

/-- The same crew at the next instant, with other branches that have settled at most as before. -/
theorem next (h : r.Trying n env child t errors won b)
    (later : r.state (t + 1) = .crew env (.any child errors won) line b')
    (same : b'.indices = b.indices)
    (single : ∀ i j e e', b'.find? i = some (.settled e) → b'.find? j = some (.settled e') → i = j)
    (kept : ∀ i e, b.find? i = some (.settled e) → b'.find? i = some (.settled e)) :
    r.Trying n env child (t + 1) errors won b' where
  here := ⟨line, later⟩
  inside := same ▸ h.inside
  slots := h.slots
  single := single
  exits u i e hu settled := by
    rcases Nat.le_succ_iff.1 hu with hu | rfl
    · obtain ⟨hi, still⟩ := h.exits u i e hu settled
      exact ⟨hi, fun inside => kept i e (still (same ▸ inside))⟩
    · rw [later] at settled
      have inside : i ∈ b'.indices := Branches.mem_indices_iff.2 ⟨_, settled⟩
      exact ⟨h.below (same ▸ inside), fun _ => settled⟩
  failed none i hi absent := by
    obtain ⟨f, known, ⟨u, hu, settled⟩, only⟩ := h.failed none i hi (same ▸ absent)
    refine ⟨f, known, ⟨u, Nat.lt_succ_of_lt hu, settled⟩, fun u e hu settled => ?_⟩
    rcases Nat.le_succ_iff.1 hu with hu | rfl
    · exact only u e hu settled
    · rw [later] at settled
      exact absurd (Branches.mem_indices_iff.2 ⟨_, settled⟩) absent
  decided x hx := by
    obtain ⟨v, j, hv, first⟩ := h.decided x hx
    exact ⟨v, j, Nat.lt_succ_of_lt hv, first⟩

theorem others_running (h : r.Trying n env child t errors won b)
    (settled : b.find? i = some (.settled e)) (j : Nat) (e' : Exit H) :
    (b.erase i).find? j ≠ some (.settled e') := by
  intro found
  obtain ⟨other, old⟩ := Branches.find?_of_erase h.distinct found
  exact other (h.single j i e' e old settled)

/-- A branch that has settled is absorbed: the first value is kept, and before it each failure takes
its place. -/
theorem absorbs (h : r.Trying n env child t errors won b)
    (settled : b.find? i = some (.settled e)) {s : Store H}
    (later : r.state (t + 1) =
      .crew env ((Crew.any child errors won).absorb i e s).1 line (b.erase i)) :
    ∃ errors' won', r.Trying n env child (t + 1) errors' won' (b.erase i) := by
  have hi : i ∈ b.indices := Branches.mem_indices_iff.2 ⟨_, settled⟩
  have running := h.others_running settled
  have inside : (b.erase i).indices.Sublist (List.range n) := by
    rw [Branches.indices_erase]
    exact List.erase_sublist.trans h.inside
  have single : ∀ j k e e', (b.erase i).find? j = some (.settled e) →
      (b.erase i).find? k = some (.settled e') → j = k :=
    fun j k e e' found => absurd found (running j e)
  have gone : i ∉ (b.erase i).indices := by
    rw [Branches.indices_erase]
    exact h.distinct.not_mem_erase
  -- what has settled by the next instant had settled before
  have earlier : ∀ u j e', u ≤ t + 1 → (r.state u).branch? j = some (.settled e') → u ≤ t := by
    intro u j e' hu settled'
    refine Nat.le_of_lt_succ (Nat.lt_of_le_of_ne hu ?_)
    rintro rfl
    rw [later] at settled'
    exact running j e' settled'
  have exits : ∀ u j e', u ≤ t + 1 → (r.state u).branch? j = some (.settled e') →
      j < n ∧ (j ∈ (b.erase i).indices → (b.erase i).find? j = some (.settled e')) := by
    intro u j e' hu settled'
    obtain ⟨hj, still⟩ := h.exits u j e' (earlier u j e' hu settled') settled'
    refine ⟨hj, fun left => ?_⟩
    have other : j ≠ i := fun same => gone (same ▸ left)
    rw [Branches.indices_erase, List.mem_erase_of_ne other] at left
    rw [Branches.find?_erase_ne other]
    exact still left
  cases won with
  | some x =>
    exact ⟨errors, some x, ⟨line, later⟩, inside, h.slots, single, exits, nofun, fun y hy => by
      obtain ⟨v, j, hv, first⟩ := h.decided y hy
      exact ⟨v, j, Nat.lt_succ_of_lt hv, first⟩⟩
  | none =>
    cases e with
    | ok x =>
      refine ⟨errors, some x, ⟨line, later⟩, inside, h.slots, single, exits, nofun, fun y hy => ?_⟩
      cases hy
      refine ⟨t, i, Nat.lt_succ_self t, h.branch? i ▸ settled, fun w j y hw succeeds => ?_⟩
      have still := h.undecided hw succeeds
      obtain rfl := h.single j i _ _ still settled
      cases still.symm.trans settled
      exact ⟨rfl, rfl⟩
    | error f =>
      refine ⟨errors.set i (some f), none, ⟨line, later⟩, inside, by rw [List.length_set, h.slots],
        single, exits, fun _ j hj absent => ?_, nofun⟩
      by_cases same : j = i
      · subst same
        refine ⟨f, List.getElem?_set_self (h.slots ▸ hj),
          ⟨t, Nat.lt_succ_self t, h.branch? j ▸ settled⟩, fun u e hu settled' => ?_⟩
        have still := (h.exits u j e (earlier u j e hu settled') settled').2 hi
        cases still.symm.trans settled
        rfl
      · rw [Branches.indices_erase, List.mem_erase_of_ne same] at absent
        obtain ⟨g, known, ⟨u, hu, settled'⟩, only⟩ := h.failed rfl j hj absent
        refine ⟨g, by rw [List.getElem?_set_ne (Ne.symm same), known],
          ⟨u, Nat.lt_succ_of_lt hu, settled'⟩, fun u e hu settled' => ?_⟩
        exact only u e (earlier u j e hu settled') settled'

/-! From one instant to the next -/

/-- What a move of the step does: it absorbs a branch, or it ends, or one of its branches moves. -/
inductive Turn (r : Course H) (n : Nat) (env : Env) (child : Signal) (t : Nat)
    (errors : List (Option (Failure H))) (won : Option (Value H)) (b : Branches H) : Prop
  | absorbs {i e errors' won'} (settled : b.find? i = some (.settled e))
      (stored : r.store (t + 1) = ((Crew.any child errors won).absorb i e (r.store t)).2)
      (next : r.Trying n env child (t + 1) errors' won' (b.erase i))
  | concludes (none_left : b.indices = [])
      (settles : r.state (t + 1) =
        .settled ((Crew.any child errors won).conclude env (r.store t)))
      (stored : r.store (t + 1) = r.store t)
  | moves {i x x' b' policy depth} (unsettled : ∀ j e, b.find? j ≠ some (.settled e))
      (same : b'.indices = b.indices) (others : ∀ j, j ≠ i → b'.find? j = b.find? j)
      (found : b.find? i = some x) (found' : b'.find? i = some x')
      (moved : x.move policy depth (r.store t) = some (x', r.store (t + 1)))
      (next : r.Trying n env child (t + 1) errors won b')

theorem turn (h : r.Trying n env child t errors won b)
    (calm : ∀ i p, (r.state t).branch? i ≠ some (.unwound p)) (moves : r.Moves t) :
    Turn r n env child t errors won b := by
  obtain ⟨round, here⟩ := h.here
  obtain ⟨policy, depth, moved⟩ := moves
  rw [here] at moved
  have step := Execution.move_crew h.distinct moved
  generalize hs : r.state (t + 1) = e', hs' : r.store (t + 1) = s' at step
  cases step with
  | keeps keeps =>
    cases keeps with
    | panics unwound => exact absurd (h.branch? _ ▸ unwound) (calm _ _)
    | absorbs settled =>
      obtain ⟨errors', won', next⟩ := h.absorbs settled hs
      exact .absorbs settled hs' next
    | admits next =>
      rw [Crew.next?_of_contest (k := .any) rfl] at next
      cases next
    | concludes _ none_left => exact .concludes none_left hs hs'
  | @moves i x x' b' line policy depth s₁ idle same others found found' hx =>
    have free := Branches.unsettled idle.unsettled
    have moving : ∀ j e, b'.find? j = some (.settled e) → j = i := by
      intro j e settled
      by_contra hj
      rw [others j hj] at settled
      exact free j e settled
    have next := h.next hs same
      (fun j k e e' hj hk => (moving j e hj).trans (moving k e' hk).symm)
      (fun j e settled => absurd settled (free j e))
    exact .moves free same others found found' (hs' ▸ hx) next

theorem still (h : r.Trying n env child t errors won b) (same : r.state (t + 1) = r.state t) :
    r.Trying n env child (t + 1) errors won b := by
  obtain ⟨round, here⟩ := h.here
  exact h.next (same.trans here) rfl h.single fun _ _ found => found

end Trying

/-- The step comes to its end at the instant `z`: no branch is left, and its last move settles. -/
structure Concludes (r : Course H) (n : Nat) (env : Env) (child : Signal) (z : Nat)
    (errors : List (Option (Failure H))) (won : Option (Value H)) : Prop where
  last : ∃ b, r.Trying n env child z errors won b ∧ b.indices = []
  settles : r.state (z + 1) = .settled ((Crew.any child errors won).conclude env (r.store z))
  stored : r.store (z + 1) = r.store z

theorem Trying.later (h : r.Trying n env child t errors won b)
    (calm : ∀ t i p, (r.state t).branch? i ≠ some (.unwound p)) (htu : t ≤ u) :
    (∃ errors won b, r.Trying n env child u errors won b) ∨
      ∃ z errors won, z < u ∧ r.Concludes n env child z errors won := by
  induction htu with
  | refl => exact .inl ⟨errors, won, b, h⟩
  | @step u _ ih =>
    rcases ih with ⟨errors, won, b, now⟩ | ⟨z, errors, won, hz, ended⟩
    · by_cases moves : r.Moves u
      · cases now.turn (calm u) moves with
        | absorbs _ _ next | moves _ _ _ _ _ _ next => exact .inl ⟨_, _, _, next⟩
        | concludes none_left settles stored =>
          exact .inr ⟨u, errors, won, Nat.lt_succ_self u, ⟨b, now, none_left⟩, settles, stored⟩
      · exact .inl ⟨errors, won, b, now.still ((r.step u).resolve_left moves)⟩
    · exact .inr ⟨z, errors, won, Nat.lt_succ_of_lt hz, ended⟩

/-- The step ends, or at some instant fewer branches than these are left. -/
def NearsEnd (r : Course H) (n : Nat) (env : Env) (child : Signal) (left : List Nat) : Prop :=
  (∃ u exit, r.state u = .settled exit) ∨
    ∃ u errors won b, r.Trying n env child u errors won b ∧ b.indices.length < left.length

theorem Trying.nears_of_absorbed {x : Execution H} (found : b.find? i = some x)
    (next : r.Trying n env child u errors won (b.erase i)) : r.NearsEnd n env child b.indices := by
  have inside : i ∈ b.indices := Branches.mem_indices_iff.2 ⟨x, found⟩
  refine .inr ⟨u, errors, won, _, next, ?_⟩
  rw [Branches.indices_erase, List.length_erase_of_mem inside]
  exact Nat.sub_lt (List.length_pos_of_mem inside) Nat.one_pos

theorem Trying.nears_or_keeps (h : r.Trying n env child t errors won b)
    (calm : ∀ t i p, (r.state t).branch? i ≠ some (.unwound p)) (k : Nat) :
    r.NearsEnd n env child b.indices ∨
      ∃ errors won b', r.Trying n env child (t + k) errors won b' ∧ b'.indices = b.indices := by
  induction k with
  | zero => exact .inr ⟨errors, won, b, h, rfl⟩
  | succ k ih =>
    rcases ih with nears | ⟨errors', won', b', now, same⟩
    · exact .inl nears
    by_cases moves : r.Moves (t + k)
    · cases now.turn (calm _) moves with
      | absorbs settled _ next => exact .inl (same ▸ nears_of_absorbed settled next)
      | concludes _ settles => exact .inl (.inl ⟨_, _, settles⟩)
      | moves _ same' _ _ _ _ next => exact .inr ⟨_, _, _, next, same'.trans same⟩
    · exact .inr ⟨_, _, _, now.still ((r.step _).resolve_left moves), same⟩

/-- The crew itself can move when a branch has settled or none is left, and it does. -/
theorem Trying.nears_of_ready (h : r.Trying n env child t errors won b)
    (calm : ∀ t i p, (r.state t).branch? i ≠ some (.unwound p)) (fair : r.Fair)
    (ready : (∃ i e, b.find? i = some (.settled e)) ∨ b.indices = []) :
    r.NearsEnd n env child b.indices := by
  obtain ⟨round, here⟩ := h.here
  have not_idle : ¬ Execution.Idle env (.any child errors won) b := by
    intro idle
    rcases ready with ⟨i, e, settled⟩ | none_left
    · exact Branches.unsettled idle.unsettled i e settled
    · exact Bool.false_ne_true (idle.running.symm.trans (Branches.isEmpty_iff.2 none_left))
  obtain ⟨moved, hm⟩ : ∃ moved, (r.state t).move .standard 0 (r.store t) = some moved := by
    rw [here]
    exact Execution.exists_move_of_not_idle not_idle .standard 0 _
  obtain ⟨u, htu, moves, stays⟩ := GoesOn.exists_next fair.moves hm
  obtain ⟨k, rfl⟩ := Nat.exists_eq_add_of_le htu
  rcases h.nears_or_keeps calm k with nears | ⟨errors', won', b', now, -⟩
  · exact nears
  obtain ⟨round', here'⟩ := now.here
  have unchanged : b' = b := by
    have eq := here'.symm.trans ((stays _ htu le_rfl).trans here)
    injection eq
  subst unchanged
  cases now.turn (calm _) moves with
  | absorbs settled _ next => exact nears_of_absorbed settled next
  | concludes _ settles => exact .inl ⟨_, _, settles⟩
  | moves unsettled _ _ found =>
    rcases ready with ⟨i, e, settled⟩ | none_left
    · exact absurd settled (unsettled i e)
    · have inside := Branches.mem_indices_iff.2 ⟨_, found⟩
      rw [none_left] at inside
      cases inside

theorem Trying.nears_end (h : r.Trying n env child t errors won b)
    (calm : ∀ t i p, (r.state t).branch? i ≠ some (.unwound p)) (fair : r.Fair) :
    r.NearsEnd n env child b.indices := by
  rcases b.indices.eq_nil_or_concat with none_left | ⟨rest, i, hb⟩
  · exact h.nears_of_ready calm fair (.inr none_left)
  · have inside : i ∈ b.indices := by simp [hb]
    obtain ⟨x, found⟩ := Branches.mem_indices_iff.1 inside
    obtain ⟨u, htu, ended⟩ := fair.branches t i x (h.branch? i ▸ found)
    obtain ⟨k, rfl⟩ := Nat.exists_eq_add_of_le htu
    rcases h.nears_or_keeps calm k with nears | ⟨errors', won', b', now, same⟩
    · exact nears
    obtain ⟨y, found'⟩ := Branches.mem_indices_iff.1 (same.symm ▸ inside)
    obtain ⟨e, rfl⟩ := ended y (now.branch? i ▸ found')
    exact same ▸ now.nears_of_ready calm fair (.inl ⟨i, e, found'⟩)

/-- It comes to an end when its moves are not put off and its branches settle: each branch that is
absorbed leaves one less. -/
theorem Trying.exists_settled (h : r.Trying n env child t errors won b)
    (calm : ∀ t i p, (r.state t).branch? i ≠ some (.unwound p)) (fair : r.Fair) :
    ∃ u exit, r.state u = .settled exit := by
  induction left : b.indices.length using Nat.strong_induction_on generalizing t errors won b with
  | _ left ih =>
    subst left
    rcases h.nears_end calm fair with ended | ⟨u, errors', won', b', next, fewer⟩
    · exact ended
    · exact ih _ fewer next rfl

/-! The end -/

/-- When nothing has been won and no branch is left, the failures are those of all branches in their
order, and no branch has succeeded. -/
theorem Concludes.failures {z : Nat} (h : r.Concludes n env child z errors none) :
    ∃ fs : List (Failure H), errors.filterMap id = fs ∧ fs.length = n ∧
      (∀ i f, fs[i]? = some f ↔
        ∃ u, u < z ∧ (r.state u).branch? i = some (.settled (.error f))) ∧
      ∀ u i x, u ≤ z → (r.state u).branch? i ≠ some (.settled (.ok x)) := by
  obtain ⟨b, trying, none_left⟩ := h.last
  have failed := fun i hi => trying.failed rfl i hi (none_left ▸ List.not_mem_nil)
  have filled : errors ∈ Set.range (List.map some) := by
    rw [Set.range_list_map]
    intro o ho
    obtain ⟨i, hi, rfl⟩ := List.mem_iff_getElem.1 ho
    obtain ⟨f, known, -⟩ := failed i (trying.slots ▸ hi)
    rw [List.getElem?_eq_getElem hi] at known
    exact ⟨f, (Option.some.inj known).symm⟩
  obtain ⟨errors, rfl⟩ := filled
  have slots : errors.length = n := by simpa using trying.slots
  refine ⟨errors, by simp [List.filterMap_map], slots, fun i f => ⟨fun here => ?_, ?_⟩, ?_⟩
  · have hi : i < n := slots ▸ (List.getElem?_eq_some_iff.1 here).1
    obtain ⟨g, known, settled, -⟩ := failed i hi
    have same : g = f := by simpa [here, eq_comm] using known
    exact same ▸ settled
  · rintro ⟨u, hu, settled⟩
    obtain ⟨g, known, -, only⟩ := failed i (trying.exits u i _ hu.le settled).1
    cases only u _ hu.le settled
    simpa using known
  · intro u i x hu succeeds
    obtain ⟨f, -, -, only⟩ := failed i (trying.exits u i _ hu succeeds).1
    cases only u _ hu succeeds

theorem Concludes.settled {z : Nat} (h : r.Concludes n env child z errors won) {exit : Exit H}
    (hzt : z < t) (settled : r.state t = .settled exit) :
    exit = (Crew.any child errors won).conclude env (r.store z) := by
  have here := settled_stays h.settles hzt
  rw [settled] at here
  cases here
  rfl

theorem Concludes.branch?_eq_none {z : Nat} (h : r.Concludes n env child z errors won) (hzt : z < t)
    (i : Nat) : (r.state t).branch? i = none := by
  rw [settled_stays h.settles hzt]
  rfl

theorem Concludes.first_wins {z : Nat} (h : r.Concludes n env child z errors won) {exit : Exit H}
    (first : r.FirstSuccess v j x) (hzt : z < t) (settled : r.state t = .settled exit) :
    exit = .ok x := by
  rw [h.settled hzt settled]
  obtain ⟨b, last, -⟩ := h.last
  cases won with
  | some y =>
    obtain ⟨w, k, -, first'⟩ := last.decided y rfl
    rw [(first.unique first').2]
    rfl
  | none =>
    obtain ⟨-, -, -, -, fails⟩ := h.failures
    have before : v ≤ z := by
      by_contra after
      have none := h.branch?_eq_none (Nat.lt_of_not_le after) j
      rw [first.succeeds] at none
      cases none
    exact absurd first.succeeds (fails v j x before)

theorem Concludes.won_or_failed {z : Nat} (h : r.Concludes n env child z errors won)
    {exit : Exit H} (hzt : z < t) (settled : r.state t = .settled exit) :
    (∃ v j x, v < z ∧ r.FirstSuccess v j x) ∨
      ∃ fs, (r.state z).ended = false ∧ r.state (z + 1) = .settled exit ∧ fs.length = n ∧
        (∀ i f, fs[i]? = some f ↔
          ∃ u, u < z ∧ (r.state u).branch? i = some (.settled (.error f))) ∧
        exit = if (r.store z).isFired env.signal then .error .aborted
          else .error (.aggregate fs) := by
  obtain ⟨b, last, -⟩ := h.last
  cases won with
  | some y =>
    obtain ⟨v, j, hv, first⟩ := last.decided y rfl
    exact .inl ⟨v, j, y, hv, first⟩
  | none =>
    obtain ⟨fs, known, length, failures, -⟩ := h.failures
    obtain ⟨round, crew⟩ := last.here
    have exit_eq := h.settled hzt settled
    refine .inr ⟨fs, by rw [crew]; rfl, exit_eq ▸ h.settles, length, failures, ?_⟩
    rw [exit_eq, Crew.conclude, known]

namespace Trying

/-- Branches are found only while the step is under way. -/
theorem at_branch (h : r.Trying n env child t errors won b)
    (calm : ∀ t i p, (r.state t).branch? i ≠ some (.unwound p)) (htu : t ≤ u) {y : Execution H}
    (found : (r.state u).branch? i = some y) :
    ∃ errors won b, r.Trying n env child u errors won b := by
  rcases h.later calm htu with now | ⟨z, errors, won, hz, ended⟩
  · exact now
  · rw [ended.branch?_eq_none hz] at found
    cases found

/-- A branch settles in one way only. -/
theorem exit_unique (h : r.Trying n env child 0 errors won b)
    (calm : ∀ t i p, (r.state t).branch? i ≠ some (.unwound p)) {e e' : Exit H}
    (settled : (r.state u).branch? i = some (.settled e))
    (settled' : (r.state v).branch? i = some (.settled e')) : e = e' := by
  wlog huv : u ≤ v generalizing u v e e'
  · exact (this settled' settled (Nat.le_of_not_le huv)).symm
  obtain ⟨errors, won, b, now⟩ := h.at_branch calm (Nat.zero_le v) settled'
  rw [now.branch?] at settled'
  have still := (now.exits u i e huv settled).2 (Branches.mem_indices_iff.2 ⟨_, settled'⟩)
  cases still.symm.trans settled'
  rfl

/-- A branch that succeeds while none has before is the first, since two never settle at once. -/
theorem exists_first (h : r.Trying n env child 0 errors won b)
    (calm : ∀ t i p, (r.state t).branch? i ≠ some (.unwound p))
    (succeeds : (r.state u).branch? i = some (.settled (.ok x))) :
    ∃ v j y, v ≤ u ∧ r.FirstSuccess v j y := by
  classical
  have some_succeeds : ∃ v i y, (r.state v).branch? i = some (.settled (.ok y)) :=
    ⟨u, i, x, succeeds⟩
  obtain ⟨j, y, first⟩ := Nat.find_spec some_succeeds
  refine ⟨Nat.find some_succeeds, j, y, Nat.find_min' some_succeeds ⟨i, x, succeeds⟩, first, ?_⟩
  intro w k y' hw succeeds'
  obtain rfl := Nat.le_antisymm hw (Nat.find_min' some_succeeds ⟨k, y', succeeds'⟩)
  obtain ⟨errors, won, b, now⟩ := h.at_branch calm (Nat.zero_le _) first
  rw [now.branch?] at first succeeds'
  obtain rfl := now.single k j _ _ succeeds' first
  cases succeeds'.symm.trans first
  exact ⟨rfl, rfl⟩

/-- As long as no branch has succeeded, a move of the step is a move of one of its branches or
changes nothing that they see, and each branch stays until it has settled. -/
theorem leaves_alone (h : r.Trying n env child t errors won b)
    (calm : ∀ i p, (r.state t).branch? i ≠ some (.unwound p)) (moves : r.Moves t)
    (fails : ∀ u i x, u ≤ t → (r.state u).branch? i ≠ some (.settled (.ok x))) :
    (r.store (t + 1) = r.store t ∨ ∃ i x x' policy depth, (r.state t).branch? i = some x ∧
        (r.state (t + 1)).branch? i = some x' ∧
        x.move policy depth (r.store t) = some (x', r.store (t + 1))) ∧
      ∀ i x, (r.state t).branch? i = some x → x.ended = false →
        ∃ x', (r.state (t + 1)).branch? i = some x' := by
  cases won with
  | some x =>
    obtain ⟨v, j, hv, first⟩ := h.decided x rfl
    exact absurd first.succeeds (fails v j x hv.le)
  | none =>
    cases h.turn calm moves with
    | @absorbs i e _ _ settled stored next =>
      refine ⟨.inl ?_, fun j x found running => ?_⟩
      · cases e with
        | ok x => exact absurd (h.branch? i ▸ settled) (fails t i x le_rfl)
        | error f => exact stored
      · rw [h.branch?] at found
        have other : j ≠ i := by
          rintro rfl
          cases found.symm.trans settled
          cases running
        exact ⟨x, by rw [next.branch?, Branches.find?_erase_ne other, found]⟩
    | concludes none_left _ stored =>
      refine ⟨.inl stored, fun i x found => ?_⟩
      have inside := Branches.mem_indices_iff.2 ⟨x, h.branch? i ▸ found⟩
      rw [none_left] at inside
      cases inside
    | @moves i x x' b' policy depth _ same _ found found' moved next =>
      refine ⟨.inr ⟨i, x, x', policy, depth, h.branch? i ▸ found, next.branch? i ▸ found', moved⟩,
        fun j y foundj _ => ?_⟩
      have inside := Branches.mem_indices_iff.2 ⟨y, h.branch? j ▸ foundj⟩
      rw [← same] at inside
      obtain ⟨y', still⟩ := Branches.mem_indices_iff.1 inside
      exact ⟨y', next.branch? j ▸ still⟩

end Trying

/-- An `any` that has begun settles with the value of the branch that succeeds first, whatever
failed before it and whatever has been cancelled meanwhile. No other branch succeeds at an earlier
instant; of those that succeed at the same instant it is the first that is taken in, wherever it
stands in the list. If all branches fail, it settles with their failures in the order of the list, and
has changed nothing that a branch sees; or it is aborted, if its own signal has fired when the last of
them is absorbed. -/
theorem any_takes_first_success (r : Course H) (es : List (Effect H a)) (e : Effect H a)
    (built : Effect.any es = .ok e) (env : Env) (s : Store H)
    (live : s.isFired env.signal = false)
    (start : r.state 0 = (Execution.start env s e.node).1)
    (calm : ∀ t i p, (r.state t).branch? i ≠ some (.unwound p)) :
    (∀ i, (r.state 0).branch? i = es[i]?.map fun f =>
      .enter f.node { env with signal := (s.childSignal env.signal).1 }) ∧
    (∀ i u v x y, (r.state u).branch? i = some (.settled x) →
      (r.state v).branch? i = some (.settled y) → x = y) ∧
    (∀ v j x t exit, r.FirstSuccess v j x → r.state t = .settled exit → exit = .ok x) ∧
    (∀ u i x, (r.state u).branch? i = some (.settled (.ok x)) →
      ∃ v j y, v ≤ u ∧ r.FirstSuccess v j y ∧ (r.Timely → (r.store v).now ≤ (r.store u).now)) ∧
    (∀ t exit, r.state t = .settled exit →
      (∃ v j x, v < t ∧ r.FirstSuccess v j x) ∨
      ∃ z fs, z < t ∧ (r.state z).ended = false ∧ r.state (z + 1) = .settled exit ∧
        fs.length = es.length ∧
        (∀ i f, fs[i]? = some f ↔
          ∃ u, u < z ∧ (r.state u).branch? i = some (.settled (.error f))) ∧
        exit = if (r.store z).isFired env.signal then .error .aborted
          else .error (.aggregate fs)) ∧
    (∀ t, r.Moves t → (∀ u i x, u ≤ t → (r.state u).branch? i ≠ some (.settled (.ok x))) →
      (r.store (t + 1) = r.store t ∨ ∃ i x x' policy depth, (r.state t).branch? i = some x ∧
        (r.state (t + 1)).branch? i = some x' ∧
        x.move policy depth (r.store t) = some (x', r.store (t + 1))) ∧
      ∀ i x, (r.state t).branch? i = some x → x.ended = false →
        ∃ x', (r.state (t + 1)).branch? i = some x') ∧
    (r.Fair → ∃ t exit, r.state t = .settled exit) := by
  have node : e.node = .any (es.map Effect.node) := by
    unfold Effect.any at built
    split at built
    · cases built
    · cases built
      rfl
  have here : r.state 0 = .crew env
      (.any (s.childSignal env.signal).1 ((es.map Effect.node).map fun _ => none) none)
      { queue := List.range (es.map Effect.node).length }
      (.ofNodes { env with signal := (s.childSignal env.signal).1 } 0 (es.map Effect.node)) := by
    rw [start, node]
    simp [Execution.start, Execution.source, live]
  have trying := Trying.start env (es.map Effect.node) here
  have ended : ∀ t exit, r.state t = .settled exit →
      ∃ z errors won, z < t ∧ r.Concludes (es.map Effect.node).length env
        (s.childSignal env.signal).1 z errors won := by
    intro t exit settled
    rcases trying.later calm (Nat.zero_le t) with ⟨errors, won, b, now⟩ | ended
    · obtain ⟨round, crew⟩ := now.here
      cases crew.symm.trans settled
    · exact ended
  refine ⟨fun i => ?_, fun i u v x y => trying.exit_unique calm,
    fun v j x t exit first settled => ?_, fun u i x succeeds => ?_,
    fun t exit settled => ?_, fun t moves fails => ?_, fun fair => trying.exists_settled calm fair⟩
  · have found := Branches.find?_ofNodes_add { env with signal := (s.childSignal env.signal).1 } 0
      (es.map Effect.node) i
    rw [Nat.zero_add, List.getElem?_map, Option.map_map] at found
    rw [here]
    exact found
  · obtain ⟨z, errors, won, hz, concludes⟩ := ended t exit settled
    exact concludes.first_wins first hz settled
  · obtain ⟨v, j, y, hvu, first⟩ := trying.exists_first calm succeeds
    exact ⟨v, j, y, hvu, first, fun timely => timely.now_mono hvu⟩
  · obtain ⟨z, errors, won, hz, concludes⟩ := ended t exit settled
    rcases concludes.won_or_failed hz settled with ⟨v, j, x, hv, first⟩ | failed
    · exact .inl ⟨v, j, x, hv.trans hz, first⟩
    · obtain ⟨fs, running, settles, length, failures, aggregate⟩ := failed
      exact .inr ⟨z, fs, hz, running, settles, by simpa using length, failures, aggregate⟩
  · rcases trying.later calm (Nat.zero_le t) with ⟨_, _, _, now⟩ | ⟨z, _, _, hz, ended⟩
    · exact now.leaves_alone (calm t) moves fails
    · obtain ⟨policy, depth, moved⟩ := moves
      rw [settled_stays ended.settles hz, Execution.move] at moved
      cases moved

open Story (guardedEnv guardedStore racingEnv)

def failureThenValue : List (Effect Host.counting (.bare (.plain ()))) :=
  [.fail (.ofKey "late"), .succeed (7 : Nat)]

def seven : Value Host.counting := ⟨.bare (.plain ()), (7 : Nat)⟩

def tryingCrew (failure : Option (Failure Host.counting)) (won : Option (Value Host.counting))
    (round : Round) (b : Branches Host.counting) : Execution Host.counting :=
  .crew guardedEnv (.any racingEnv.signal [failure, none] won) round b

def secondTry (x : Execution Host.counting) : Branches Host.counting := .cons 1 x .nil

def enterSeven : Execution Host.counting := .enter (.sync (Code.pure (.ok seven))) racingEnv

/-- The first fails, and then the second succeeds. -/
def tryingCourse : Course Host.counting where
  state
    | 0 => tryingCrew none none { queue := [0, 1] }
        (.cons 0 (.enter (.sync (Code.pure (.error (.ofKey "late")))) racingEnv)
          (secondTry enterSeven))
    | 1 => tryingCrew none none { asked := [0], queue := [1] }
        (.cons 0 (.settled (.error (.ofKey "late"))) (secondTry enterSeven))
    | 2 => tryingCrew (some (.ofKey "late")) none { queue := [1] } (secondTry enterSeven)
    | 3 => tryingCrew (some (.ofKey "late")) none { asked := [1] } (secondTry (.settled (.ok seven)))
    | 4 => tryingCrew (some (.ofKey "late")) (some seven) {} .nil
    | _ => .settled (.ok seven)
  store
    | 0 | 1 | 2 | 3 => guardedStore 2
    | _ => ((guardedStore 2).record (.branchSucceeded 1)).fire racingEnv.signal
  step
    | 0 | 1 | 2 | 3 | 4 => .inl ⟨.standard, 0, rfl⟩
    | _ + 5 => .inr rfl

/-- The second branch is the first that succeeds, and its value is the outcome. -/
theorem second_succeeds_first : ∃ v, tryingCourse.FirstSuccess v 1 seven ∧
    tryingCourse.state 5 = .settled (.ok seven) := by
  have values : ∀ t i x, (tryingCourse.state t).branch? i = some x → x.panic? = none ∧
      ∀ y, x = .settled (.ok y) → i = 1 := by
    intro t i x found
    rcases t with _ | _ | _ | _ | _ | t
    · rcases Branches.find?_cons found with ⟨rfl, rfl⟩ | found
      · exact ⟨rfl, nofun⟩
      · obtain ⟨rfl, rfl⟩ := (Branches.find?_cons found).resolve_right nofun
        exact ⟨rfl, nofun⟩
    · rcases Branches.find?_cons found with ⟨rfl, rfl⟩ | found
      · exact ⟨rfl, nofun⟩
      · obtain ⟨rfl, rfl⟩ := (Branches.find?_cons found).resolve_right nofun
        exact ⟨rfl, nofun⟩
    · obtain ⟨rfl, rfl⟩ := (Branches.find?_cons found).resolve_right nofun
      exact ⟨rfl, nofun⟩
    · obtain ⟨rfl, rfl⟩ := (Branches.find?_cons found).resolve_right nofun
      exact ⟨rfl, fun _ _ => rfl⟩
    · cases found
    · cases found
  have calm : ∀ t i p, (tryingCourse.state t).branch? i ≠ some (.unwound p) := by
    intro t i p found
    cases (values t i _ found).1
  obtain ⟨-, -, outcome, first, -⟩ := any_takes_first_success tryingCourse failureThenValue _ rfl
    guardedEnv (guardedStore 1) rfl rfl calm
  obtain ⟨v, j, x, -, success, -⟩ := first 3 1 seven rfl
  obtain rfl := (values v j _ success.succeeds).2 x rfl
  cases outcome v 1 x 5 _ success rfl
  exact ⟨v, success, rfl⟩

/-! Two branches that succeed at the same instant -/

/-- The branch succeeds at the earliest instant at which one does, and is the first of the list that
does so. -/
def Foremost (r : Course H) (j : Nat) (x : Value H) : Prop :=
  ∃ v, (r.state v).branch? j = some (.settled (.ok x)) ∧
    ∀ w i y, (r.state w).branch? i = some (.settled (.ok y)) →
      (r.store v).now < (r.store w).now ∨ (r.store v).now = (r.store w).now ∧ j ≤ i

def six : Value Host.counting := ⟨.bare (.plain ()), (6 : Nat)⟩

/-- Both take ten ticks, and the timer that the second waits for is the older one. -/
def tied : List (Effect Host.counting (.bare (.plain ()))) :=
  [.ofProgram (Code.pure (.sleep (.ofMillis 3) (.sleep (.ofMillis 7) (.done (.ok six))))),
    .ofProgram (Code.pure (.sleep (.ofMillis 10) (.done (.ok seven))))]

/-- The branches begin in the order of the list. At the last instant they are woken in the order of
their timers. -/
def byTimers : Schedule := fun t =>
  if t < 8 then .standard else { pick := fun _ queue => (queue.find? (· == 1)).or queue.head? }

def tiedCourse : Course Host.counting :=
  Machine.course byTimers 10 ⟨((guardedStore 1).childSignal guardedEnv.signal).2,
    (Execution.start guardedEnv (guardedStore 1) (.any (tied.map Effect.node))).1, []⟩

/-- The first branch succeeds at the same instant as the second, whose value is the outcome. -/
theorem later_in_list_wins_tie : (∃ e, Effect.any tied = .ok e ∧
      tiedCourse.state 0 = (Execution.start guardedEnv (guardedStore 1) e.node).1) ∧
    (∀ t i p, (tiedCourse.state t).branch? i ≠ some (.unwound p)) ∧
    tiedCourse.Foremost 0 six ∧ tiedCourse.state 15 = .settled (.ok seven) := by
  have settles : tiedCourse.state 15 = .settled (.ok seven) := rfl
  have gone : ∀ t i, 15 ≤ t → (tiedCourse.state t).branch? i = none := by
    intro t i late
    rw [settled_stays settles late]
    rfl
  have calm : ∀ t < 15, (tiedCourse.state t).branches.panic?.isNone = true := by decide +kernel
  have early : ∀ t < 8, (tiedCourse.state t).branches.exit?.isNone = true := by decide +kernel
  have last : ∀ t < 15, 8 ≤ t → (tiedCourse.store t).now = 10 := by decide +kernel
  refine ⟨⟨_, rfl, rfl⟩, fun t i p unwound => ?_, ⟨13, rfl, fun w i y succeeds => ?_⟩, settles⟩
  · rcases Nat.lt_or_ge t 15 with before | after
    · rw [Execution.branch?_eq] at unwound
      cases Branches.panic?_none (Option.isNone_iff_eq_none.1 (calm t before)) unwound
    · rw [gone t i after] at unwound
      cases unwound
  · rcases Nat.lt_or_ge w 15 with before | after
    · have late : 8 ≤ w := by
        by_contra sooner
        rw [Execution.branch?_eq] at succeeds
        cases Branches.exit?_none
          (Option.isNone_iff_eq_none.1 (early w (Nat.lt_of_not_le sooner))) succeeds
      have instant := last 13 (by decide) (by decide)
      exact .inr ⟨instant.trans (last w before late).symm, Nat.zero_le i⟩
    · rw [gone w i after] at succeeds
      cases succeeds

end Course

end ScopedEffects
