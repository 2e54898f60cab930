import ScopedEffects.Data.OrderedMap
import Mathlib.Data.List.Basic

/-! Laws of ordered maps. The keys in their order and the lookup determine a map, so that an equation
between maps is one between lists of keys and one between lookups. A merge keeps the keys that are
there in their places and puts the new ones behind them, and the values that come later win. -/

namespace ScopedEffects

namespace OrderedMap

variable {κ α : Type} {m n o : OrderedMap κ α} {k : κ}

@[simp] theorem keys_empty : (empty : OrderedMap κ α).keys = [] := rfl

theorem nodup (m : OrderedMap κ α) : m.keys.Nodup := m.nodup_keys

theorem length_keys (m : OrderedMap κ α) : m.keys.length = m.size := List.length_map _

@[simp] theorem keys_filterKeys (m : OrderedMap κ α) (p : κ → Bool) :
    (m.filterKeys p).keys = m.keys.filter p := by
  show (m.entries.filter fun e => p e.1).map Prod.fst = (m.entries.map Prod.fst).filter p
  rw [List.filter_map]
  rfl

variable [DecidableEq κ]

theorem get?_eq_some_iff {a : α} : m.get? k = some a ↔ (k, a) ∈ m.entries := by
  obtain ⟨l, distinct⟩ := m
  show (l.find? fun e => e.1 = k).map Prod.snd = some a ↔ (k, a) ∈ l
  induction l with
  | nil => simp
  | cons e rest ih =>
    obtain ⟨fresh, others⟩ := List.nodup_cons.1 distinct
    obtain ⟨j, b⟩ := e
    by_cases hj : j = k
    · subst hj
      have elsewhere : (j, a) ∉ rest := fun h => fresh (List.mem_map.2 ⟨_, h, rfl⟩)
      simp [elsewhere, eq_comm]
    · have other : (k, a) ≠ (j, b) := fun h => hj (congrArg Prod.fst h).symm
      rw [List.find?_cons_of_neg (by simpa using hj), ih others, List.mem_cons]
      exact (or_iff_right other).symm

/-- A map is its keys in their order, each with the value that is found for it. -/
theorem ext_of_keys (keys : m.keys = n.keys) (lookup : ∀ k, m.get? k = n.get? k) : m = n := by
  have paired : ∀ o : OrderedMap κ α,
      o.entries.map (fun e => (e.1, some e.2)) = o.keys.map fun k => (k, o.get? k) := by
    intro o
    rw [OrderedMap.keys, List.map_map]
    refine List.map_congr_left fun e he => ?_
    rw [Function.comp_apply, get?_eq_some_iff.2 he]
  have same : m.entries.map (fun e => (e.1, some e.2)) = n.entries.map fun e => (e.1, some e.2) := by
    rw [paired, paired, keys]
    exact List.map_congr_left fun k _ => by rw [lookup]
  have injective : Function.Injective fun e : κ × α => (e.1, some e.2) := by
    rintro ⟨j, a⟩ ⟨k, b⟩ h
    simpa using h
  obtain ⟨entries, distinct⟩ := m
  obtain ⟨entries', distinct'⟩ := n
  obtain rfl : entries = entries' := List.map_injective_iff.2 injective same
  rfl

/-- A key that is bound keeps its place, and a new one comes last. -/
theorem keys_set (m : OrderedMap κ α) (k : κ) (a : α) :
    (m.set k a).keys = if k ∈ m.keys then m.keys else m.keys ++ [k] := by
  obtain ⟨l, distinct⟩ := m
  show (putEntry k a l).map Prod.fst =
    if k ∈ l.map Prod.fst then l.map Prod.fst else l.map Prod.fst ++ [k]
  clear distinct
  induction l with
  | nil => rfl
  | cons e rest ih =>
    obtain ⟨j, b⟩ := e
    rw [putEntry]
    by_cases hj : j = k
    · subst hj
      simp
    · have other : k ≠ j := fun h => hj h.symm
      rw [if_neg hj, List.map_cons, ih]
      by_cases hk : k ∈ rest.map Prod.fst <;> simp [hk, other]

/-! Merging -/

@[simp] theorem merge_empty (m : OrderedMap κ α) : m.merge empty = m := rfl

/-- A merge whose right side has one more entry in front. -/
theorem merge_cons (m : OrderedMap κ α) (e : κ × α) (rest : List (κ × α))
    (distinct : ((e :: rest).map Prod.fst).Nodup) :
    m.merge ⟨e :: rest, distinct⟩ = (m.set e.1 e.2).merge ⟨rest, (List.nodup_cons.1 distinct).2⟩ :=
  rfl

theorem get?_merge (m n : OrderedMap κ α) (k : κ) :
    (m.merge n).get? k = (n.get? k).or (m.get? k) := by
  obtain ⟨l, distinct⟩ := n
  induction l generalizing m with
  | nil => rfl
  | cons e rest ih =>
    obtain ⟨fresh, others⟩ := List.nodup_cons.1 distinct
    rw [merge_cons, ih _ others, get?_set]
    by_cases hk : k = e.1
    · -- the entry in front is the only one for its key
      have first : (⟨e :: rest, distinct⟩ : OrderedMap κ α).get? k = some e.2 :=
        get?_eq_some_iff.2 (hk ▸ List.mem_cons_self)
      have absent : (⟨rest, others⟩ : OrderedMap κ α).get? k = none := by
        rw [← Option.not_isSome_iff_eq_none, get?_isSome, contains_iff, hk]
        exact fresh
      rw [if_pos hk, first, absent]
      rfl
    · have passed : (⟨e :: rest, distinct⟩ : OrderedMap κ α).get? k =
          (⟨rest, others⟩ : OrderedMap κ α).get? k := by
        show ((e :: rest).find? _).map Prod.snd = _
        rw [List.find?_cons_of_neg (by simpa using fun h => hk h.symm)]
        rfl
      rw [if_neg hk, passed]

theorem keys_merge (m n : OrderedMap κ α) :
    (m.merge n).keys = m.keys ++ n.keys.filter fun k => !m.contains k := by
  obtain ⟨l, distinct⟩ := n
  induction l generalizing m with
  | nil => exact (List.append_nil _).symm
  | cons e rest ih =>
    obtain ⟨fresh, others⟩ := List.nodup_cons.1 distinct
    rw [merge_cons, ih _ others, keys_set]
    -- whether a later key is new does not depend on the entry in front
    have later : (OrderedMap.keys ⟨rest, others⟩).filter (fun k => !(m.set e.1 e.2).contains k) =
        (OrderedMap.keys ⟨rest, others⟩).filter fun k => !m.contains k := by
      refine List.filter_congr fun k hk => ?_
      have other : k ≠ e.1 := fun h => fresh (h ▸ hk)
      rw [Bool.eq_iff_iff, Bool.not_eq_true', Bool.not_eq_true', Bool.eq_false_iff,
        Bool.eq_false_iff, Ne, Ne, contains_iff, contains_iff, mem_keys_set]
      simp [other]
    have front : OrderedMap.keys ⟨e :: rest, distinct⟩ = e.1 :: OrderedMap.keys ⟨rest, others⟩ := rfl
    rw [later, front]
    by_cases he : e.1 ∈ m.keys
    · rw [if_pos he, List.filter_cons_of_neg (by simpa using contains_iff.2 he)]
    · rw [if_neg he, List.filter_cons_of_pos (by simpa [← contains_iff] using he),
        List.append_assoc]
      rfl

theorem contains_merge (m n : OrderedMap κ α) (k : κ) :
    (m.merge n).contains k = (m.contains k || n.contains k) := by
  rw [← get?_isSome, ← get?_isSome, ← get?_isSome, get?_merge, Option.isSome_or, Bool.or_comm]

theorem contains_filterKeys (m : OrderedMap κ α) (p : κ → Bool) (k : κ) :
    (m.filterKeys p).contains k = (p k && m.contains k) := by
  rw [← get?_isSome, ← get?_isSome, get?_filterKeys]
  cases p k <;> simp

theorem empty_merge (m : OrderedMap κ α) : empty.merge m = m := by
  refine ext_of_keys ?_ fun k => ?_
  · rw [keys_merge, keys_empty, List.nil_append]
    exact List.filter_eq_self.2 fun _ _ => rfl
  · rw [get?_merge, get?_empty, Option.or_none]

theorem merge_self (m : OrderedMap κ α) : m.merge m = m := by
  refine ext_of_keys ?_ fun k => ?_
  · have nothing_new : m.keys.filter (fun k => !m.contains k) = [] := by
      refine List.filter_eq_nil_iff.2 fun k hk => ?_
      rw [contains_iff.2 hk]
      exact Bool.false_ne_true
    rw [keys_merge, nothing_new, List.append_nil]
  · rw [get?_merge, Option.or_self]

theorem merge_assoc (m n o : OrderedMap κ α) : (m.merge n).merge o = m.merge (n.merge o) := by
  refine ext_of_keys ?_ fun k => ?_
  · have twice : (fun k => !(m.merge n).contains k) = fun k => !m.contains k && !n.contains k := by
      funext k
      rw [contains_merge, Bool.not_or]
    rw [keys_merge, keys_merge, keys_merge, keys_merge, twice, List.filter_append, List.filter_filter,
      List.append_assoc]
  · rw [get?_merge, get?_merge, get?_merge, get?_merge, Option.or_assoc]

theorem filterKeys_merge (m n : OrderedMap κ α) (p : κ → Bool) :
    (m.merge n).filterKeys p = (m.filterKeys p).merge (n.filterKeys p) := by
  refine ext_of_keys ?_ fun k => ?_
  · rw [keys_filterKeys, keys_merge, keys_merge, List.filter_append, keys_filterKeys,
      keys_filterKeys, List.filter_filter, List.filter_filter]
    congr 1
    refine List.filter_congr fun k _ => ?_
    rw [contains_filterKeys]
    cases p k <;> simp
  · rw [get?_filterKeys, get?_merge, get?_merge, get?_filterKeys, get?_filterKeys]
    split <;> rfl

/-! Merging many, one after the other -/

theorem eraseDups_of_nodup {l : List κ} (distinct : l.Nodup) : l.eraseDups = l := by
  induction l with
  | nil => rfl
  | cons k rest ih =>
    obtain ⟨fresh, distinct⟩ := List.nodup_cons.1 distinct
    have others : rest.filter (fun j => !j == k) = rest := by
      refine List.filter_eq_self.2 fun j hj => ?_
      have other : j ≠ k := fun h => fresh (h ▸ hj)
      simpa using other
    rw [List.eraseDups_cons, others, ih distinct]

/-- All keys of the maps, each at the place where it comes first. -/
theorem keys_foldl_merge (m : OrderedMap κ α) (ms : List (OrderedMap κ α)) :
    (ms.foldl merge m).keys = ((m :: ms).flatMap OrderedMap.keys).eraseDups := by
  induction ms generalizing m with
  | nil => simpa using (eraseDups_of_nodup m.nodup).symm
  | cons n rest ih =>
    have added : n.keys.removeAll m.keys = n.keys.filter fun k => !m.contains k := by
      refine List.filter_congr fun k _ => ?_
      rw [Bool.eq_iff_iff, Bool.not_eq_true', Bool.not_eq_true', Bool.eq_false_iff,
        Bool.eq_false_iff, Ne, Ne, contains_iff, List.elem_iff]
    have both : (m.keys ++ n.keys).eraseDups = (m.merge n).keys := by
      rw [List.eraseDups_append, eraseDups_of_nodup m.nodup, added,
        eraseDups_of_nodup (n.nodup.sublist List.filter_sublist), ← keys_merge]
    have members : ∀ k, k ∈ (m.merge n).keys ↔ k ∈ m.keys ++ n.keys := by
      intro k
      rw [← both, List.mem_eraseDups]
    have past : ∀ l : List κ, l.removeAll (m.merge n).keys = l.removeAll (m.keys ++ n.keys) := by
      refine fun l => List.filter_congr fun k _ => ?_
      rw [Bool.eq_iff_iff, Bool.not_eq_true', Bool.not_eq_true', Bool.eq_false_iff,
        Bool.eq_false_iff, Ne, Ne, List.elem_iff, List.elem_iff, members]
    rw [List.foldl_cons, ih, List.flatMap_cons, List.flatMap_cons, List.flatMap_cons,
      List.eraseDups_append, ← List.append_assoc, List.eraseDups_append, both, past,
      eraseDups_of_nodup (m.merge n).nodup]

/-- Of all values for a key, the last one. -/
theorem get?_foldl_merge (m : OrderedMap κ α) (ms : List (OrderedMap κ α)) (k : κ) :
    (ms.foldl merge m).get? k = (m :: ms).reverse.findSome? fun n => n.get? k := by
  induction ms generalizing m with
  | nil => simp
  | cons n rest ih =>
    have last_two : ([m.merge n].findSome? fun o => o.get? k) =
        ([n].findSome? fun o => o.get? k).or ([m].findSome? fun o => o.get? k) := by
      simp only [List.findSome?_singleton, get?_merge]
    rw [List.foldl_cons, ih]
    simp only [List.reverse_cons, List.append_assoc, List.findSome?_append, last_two]

end OrderedMap

end ScopedEffects
