import Mathlib.Tactic
import ScopedEffects.Execution.Move

/-! Branches by their indices. Under pairwise different indices a branch is found by its index, and
what is done to one branch is not seen in another. -/

namespace ScopedEffects

variable {H : Host}

namespace Branches

@[induction_eliminator]
theorem induct {P : Branches H → Prop} (nil : P nil)
    (cons : ∀ i e rest, P rest → P (.cons i e rest)) : ∀ b, P b
  | .nil => nil
  | .cons i e rest => cons i e rest (induct nil cons rest)

def indices : Branches H → List Nat
  | nil => []
  | cons i _ rest => i :: rest.indices

def find? (index : Nat) : Branches H → Option (Execution H)
  | nil => none
  | cons i e rest => if i = index then some e else rest.find? index

/-- Another execution in the place of the branch with the index. -/
def set (index : Nat) (e : Execution H) : Branches H → Branches H
  | nil => nil
  | cons i f rest => if i = index then cons i e rest else cons i f (rest.set index e)

variable {b : Branches H} {i j : Nat} {e : Execution H} {exit : Exit H}

theorem find?_cons {f : Execution H} (h : (cons j f b).find? i = some e) :
    i = j ∧ e = f ∨ b.find? i = some e := by
  rw [find?] at h
  split at h
  · rename_i hj
    exact .inl ⟨hj.symm, (Option.some.inj h).symm⟩
  · exact .inr h

theorem length_eq (b : Branches H) : b.length = b.indices.length := by
  induction b with
  | nil => rfl
  | cons i e rest ih => rw [length, indices, List.length_cons, ih]

theorem isEmpty_iff : b.isEmpty = true ↔ b.indices = [] := by
  cases b with
  | nil => exact ⟨fun _ => rfl, fun _ => rfl⟩
  | cons => simp [isEmpty, indices]

theorem mem_indices_iff : i ∈ b.indices ↔ ∃ e, b.find? i = some e := by
  induction b with
  | nil => simp [indices, find?]
  | cons j f rest ih =>
    rw [indices, List.mem_cons, find?]
    by_cases h : j = i
    · simp [h]
    · rw [if_neg h, ih]
      simp [Ne.symm h]

/-- What is found among the rest is found behind a branch with a new index. -/
theorem find?_of_rest (hj : j ∉ b.indices) (h : b.find? i = some e) (f : Execution H) :
    (cons j f b).find? i = some e := by
  have other : j ≠ i := by
    rintro rfl
    exact hj (mem_indices_iff.2 ⟨e, h⟩)
  rw [find?, if_neg other]
  exact h

theorem indices_push (b : Branches H) (i : Nat) (e : Execution H) :
    (b.push i e).indices = b.indices ++ [i] := by
  induction b with
  | nil => rfl
  | cons j f rest ih => rw [push, indices, ih, indices, List.cons_append]

theorem find?_push_ne (h : j ≠ i) (b : Branches H) (e : Execution H) :
    (b.push i e).find? j = b.find? j := by
  induction b with
  | nil => simp [push, find?, h.symm]
  | cons k f rest ih => rw [push, find?, ih, find?]

theorem find?_push_self (h : i ∉ b.indices) (e : Execution H) :
    (b.push i e).find? i = some e := by
  induction b with
  | nil => rw [push, find?, if_pos rfl]
  | cons k f rest ih =>
    have other : k ≠ i := fun hk => h (hk ▸ List.mem_cons_self)
    rw [push, find?, if_neg other]
    exact ih fun hi => h (List.mem_cons_of_mem _ hi)

theorem indices_erase (b : Branches H) (i : Nat) : (b.erase i).indices = b.indices.erase i := by
  induction b with
  | nil => rfl
  | cons j f rest ih =>
    rw [erase, indices, List.erase_cons]
    by_cases h : j = i
    · simp [h]
    · simp [h, indices, ih]

theorem find?_erase_ne (h : j ≠ i) (b : Branches H) : (b.erase i).find? j = b.find? j := by
  induction b with
  | nil => rfl
  | cons k f rest ih =>
    rw [erase, find?]
    by_cases hk : k = i
    · rw [if_pos hk, if_neg (hk ▸ h.symm)]
    · rw [if_neg hk, find?, ih]

theorem indices_set (b : Branches H) (i : Nat) (e : Execution H) :
    (b.set i e).indices = b.indices := by
  induction b with
  | nil => rfl
  | cons k f rest ih =>
    rw [set]
    split
    · rfl
    · rw [indices, indices, ih]

theorem find?_set_ne (h : j ≠ i) (b : Branches H) (e : Execution H) :
    (b.set i e).find? j = b.find? j := by
  induction b with
  | nil => rfl
  | cons k f rest ih =>
    rw [set, find?]
    by_cases hk : k = i
    · have other : k ≠ j := hk ▸ h.symm
      rw [if_pos hk, find?, if_neg other, if_neg other]
    · rw [if_neg hk, find?, ih]

theorem find?_set_self {f : Execution H} (h : b.find? i = some f) (e : Execution H) :
    (b.set i e).find? i = some e := by
  induction b with
  | nil => cases h
  | cons k g rest ih =>
    rw [find?] at h
    rw [set]
    split
    · rename_i hk
      rw [find?, if_pos hk]
    · rename_i hk
      rw [if_neg hk] at h
      rw [find?, if_neg hk]
      exact ih h

theorem find?_erase_self (hb : b.indices.Nodup) : (b.erase i).find? i = none := by
  have gone : i ∉ (b.erase i).indices := by
    rw [indices_erase]
    exact fun hi => (hb.mem_erase_iff.1 hi).1 rfl
  by_contra found
  exact gone (mem_indices_iff.2 (Option.ne_none_iff_exists'.1 found))

/-- What is found when a branch has been taken out is another one that was there. -/
theorem find?_of_erase (hb : b.indices.Nodup) (h : (b.erase i).find? j = some e) :
    j ≠ i ∧ b.find? j = some e := by
  have other : j ≠ i := by
    rintro rfl
    rw [find?_erase_self hb] at h
    cases h
  rw [find?_erase_ne other] at h
  exact ⟨other, h⟩

/-- What is found when a branch has been added is that one, or it was there. -/
theorem find?_of_push {f : Execution H} (hi : i ∉ b.indices) (h : (b.push i f).find? j = some e) :
    e = f ∨ b.find? j = some e := by
  by_cases same : j = i
  · rw [same, find?_push_self hi] at h
    exact .inl (Option.some.inj h).symm
  · rw [find?_push_ne same] at h
    exact .inr h

theorem nodup_erase (hb : b.indices.Nodup) (i : Nat) : (b.erase i).indices.Nodup := by
  rw [indices_erase]
  exact hb.erase i

theorem nodup_push (hb : b.indices.Nodup) (hi : i ∉ b.indices) (e : Execution H) :
    (b.push i e).indices.Nodup := by
  rw [indices_push, List.nodup_append]
  refine ⟨hb, List.nodup_singleton i, fun x hx y hy => ?_⟩
  rw [List.mem_singleton.1 hy]
  exact fun he => hi (he ▸ hx)

theorem exit?_some (hb : b.indices.Nodup) (h : b.exit? = some (i, exit)) :
    b.find? i = some (.settled exit) := by
  induction b with
  | nil => cases h
  | cons j f rest ih =>
    obtain ⟨hj, hrest⟩ := List.nodup_cons.1 hb
    rw [exit?] at h
    cases hf : f.exit? with
    | some x =>
      rw [hf] at h
      cases h
      cases f <;> cases hf
      rw [find?, if_pos rfl]
    | none =>
      rw [hf] at h
      exact find?_of_rest hj (ih hrest h) f

theorem exit?_none (h : b.exit? = none) (hi : b.find? i = some e) : e.exit? = none := by
  induction b with
  | nil => cases hi
  | cons j f rest ih =>
    rw [exit?, Option.or_eq_none_iff] at h
    rw [find?] at hi
    split at hi
    · cases hi
      exact Option.map_eq_none_iff.1 h.1
    · exact ih h.2 hi

theorem panic?_none (h : b.panic? = none) (hi : b.find? i = some e) : e.panic? = none := by
  induction b with
  | nil => cases hi
  | cons j f rest ih =>
    rw [panic?, Option.or_eq_none_iff] at h
    rcases find?_cons hi with ⟨-, rfl⟩ | hi
    · exact h.1
    · exact ih h.2 hi

theorem panic?_some (hb : b.indices.Nodup) {p : Panic} (h : b.panic? = some p) :
    ∃ i, b.find? i = some (.unwound p) := by
  induction b with
  | nil => cases h
  | cons j f rest ih =>
    obtain ⟨hj, hrest⟩ := List.nodup_cons.1 hb
    rw [panic?] at h
    cases hf : f.panic? with
    | some x =>
      rw [hf] at h
      cases h
      refine ⟨j, ?_⟩
      cases f <;> cases hf
      rw [find?, if_pos rfl]
    | none =>
      rw [hf] at h
      obtain ⟨i, found⟩ := ih hrest h
      exact ⟨i, find?_of_rest hj found f⟩

theorem indices_ofNodes (env : Env) (k : Nat) (nodes : List (Node H)) :
    (ofNodes env k nodes).indices = List.range' k nodes.length := by
  induction nodes generalizing k with
  | nil => rfl
  | cons n rest ih => rw [ofNodes, indices, ih, List.length_cons, List.range'_succ]

theorem nodup_ofNodes (env : Env) (k : Nat) (nodes : List (Node H)) :
    (ofNodes env k nodes).indices.Nodup := by
  rw [indices_ofNodes]
  exact List.nodup_range'

theorem find?_ofNodes {env : Env} {k : Nat} {nodes : List (Node H)}
    (h : (ofNodes env k nodes).find? i = some e) : ∃ n ∈ nodes, e = .enter n env := by
  induction nodes generalizing k with
  | nil => cases h
  | cons n rest ih =>
    rcases find?_cons h with ⟨-, rfl⟩ | h
    · exact ⟨n, List.mem_cons_self, rfl⟩
    · obtain ⟨m, hm, he⟩ := ih h
      exact ⟨m, List.mem_cons_of_mem n hm, he⟩

end Branches

mutual

/-- Induction over an execution. The branches of a crew are those found by their indices. -/
@[induction_eliminator]
theorem Execution.induct {P : Execution H → Prop} (enter : ∀ n env, P (.enter n env))
    (task : ∀ g t, P (.task g t)) (pause : ∀ d env n p k, P (.pause d env n p k))
    (frame : ∀ env f above, P above → P (.frame env f above))
    (crew : ∀ env c q b, (∀ i e, b.find? i = some e → P e) → P (.crew env c q b))
    (settled : ∀ x, P (.settled x)) (unwound : ∀ p, P (.unwound p)) : ∀ e, P e
  | .enter n env => enter n env
  | .task g t => task g t
  | .pause d env n p k => pause d env n p k
  | .frame env f above =>
    frame env f above (induct enter task pause frame crew settled unwound above)
  | .crew env c q b =>
    crew env c q b (inductBranches enter task pause frame crew settled unwound b)
  | .settled x => settled x
  | .unwound p => unwound p

theorem Execution.inductBranches {P : Execution H → Prop} (enter : ∀ n env, P (.enter n env))
    (task : ∀ g t, P (.task g t)) (pause : ∀ d env n p k, P (.pause d env n p k))
    (frame : ∀ env f above, P above → P (.frame env f above))
    (crew : ∀ env c q b, (∀ i e, b.find? i = some e → P e) → P (.crew env c q b))
    (settled : ∀ x, P (.settled x)) (unwound : ∀ p, P (.unwound p)) :
    ∀ b : Branches H, ∀ i e, b.find? i = some e → P e
  | .nil, _, _, h => nomatch h
  | .cons _ f rest, i, e, h =>
    (Branches.find?_cons h).elim
      (fun same => same.2 ▸ induct enter task pause frame crew settled unwound f)
      (inductBranches enter task pause frame crew settled unwound rest i e)

end

def Execution.branch? (i : Nat) : Execution H → Option (Execution H)
  | crew _ _ _ b => b.find? i
  | _ => none

theorem Execution.branchGoing_eq (policy : Policy) (depth : Nat) (s : Store H) (i : Nat)
    (b : Branches H) :
    branchGoing policy depth s i b = (b.find? i).any fun e => e.going policy depth s := by
  induction b with
  | nil => rw [branchGoing]; rfl
  | cons k f rest ih =>
    rw [branchGoing, Branches.find?]
    split
    · rfl
    · exact ih

/-- A branch moves as its execution does, and the others stay as they are. -/
theorem Execution.moveBranch_eq [Tracing H] (policy : Policy) (depth : Nat) (s : Store H) (i : Nat)
    (b : Branches H) : moveBranch policy depth s i b =
      (b.find? i).bind fun e => (e.move policy depth s).map fun y => (b.set i y.1, y.2) := by
  induction b with
  | nil => rw [moveBranch]; rfl
  | cons k f rest ih =>
    rw [moveBranch, Branches.find?]
    by_cases hk : k = i
    · simp only [if_pos hk, Option.bind_some, Branches.set]
    · simp only [if_neg hk, ih, Branches.set]
      cases rest.find? i with
      | none => rfl
      | some e => exact Option.map_map ..

theorem Execution.moveBranch_cases [Tracing H] {policy : Policy} {depth i : Nat} {s s' : Store H}
    {b b' : Branches H} (h : moveBranch policy depth s i b = some (b', s')) :
    ∃ e e', b.find? i = some e ∧ e.move policy depth s = some (e', s') ∧ b' = b.set i e' := by
  rw [moveBranch_eq] at h
  obtain ⟨e, found, h⟩ := Option.bind_eq_some_iff.1 h
  obtain ⟨⟨e', s₁⟩, moved, he⟩ := Option.map_eq_some_iff.1 h
  cases he
  exact ⟨e, e', found, moved, rfl⟩

/-- When a crew moves, it keeps house itself or one of its branches moves. -/
theorem Execution.move_crew_cases [Tracing H] {policy : Policy} {depth : Nat} {s s' : Store H}
    {env : Env} {c : Crew H} {round : Round} {b : Branches H} {e' : Execution H}
    (h : (crew env c round b).move policy depth s = some (e', s')) :
    moveCrew s env c round b = some (e', s') ∨
      moveCrew s env c round b = none ∧ ∃ i f f' round' going, b.find? i = some f ∧
        f.move (round.toward policy going i) (depth + 1) s = some (f', s') ∧
        e' = crew env c round' (b.set i f') := by
  rw [move] at h
  cases hm : moveCrew s env c round b with
  | some moved =>
    rw [hm] at h
    exact .inl h
  | none =>
    simp only [hm] at h
    split at h
    · cases h
    · obtain ⟨⟨b', s₁⟩, moved, he⟩ := Option.map_eq_some_iff.1 h
      cases he
      obtain ⟨f, f', found, hf, rfl⟩ := moveBranch_cases moved
      exact .inr ⟨rfl, _, f, f', _, _, found, hf, rfl⟩

end ScopedEffects
