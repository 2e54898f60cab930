import ScopedEffects.Runner
import ScopedEffects.Proofs.Provider.Bindings

/-! What providers bind after they have been built up. Identities are drawn on the way and have no
influence on the bindings, so that the laws of ordered maps are laws of providers: equations hold of
the bindings with their order. The base provider of a runner is a merge of all that is provided. -/

namespace ScopedEffects

variable {H : Host}

/-- What a construction comes to when its identities are drawn from a supply. -/
def Fresh.result {α : Type} (construction : Fresh α) (s : Supply) : α := (construction.run s).1

theorem Fresh.result_bind {α β : Type} (construction : Fresh α) (next : α → Fresh β) (s : Supply) :
    (construction >>= next : Fresh β).result s =
      (next (construction.result s)).result (construction.run s).2 := rfl

namespace Provider

/-- All that can be asked of a provider agrees: it lists each bound key once, and what is found for a
key is what is listed with it. -/
structure Coherent (p : Provider H) : Prop where
  distinct : p.keys.Nodup
  size : p.keys.length = p.bindings.size
  contains : ∀ k, p.contains k = true ↔ k ∈ p.keys
  bound : ∀ k, (p.factory? k).isSome = p.contains k
  listed : ∀ k f, p.factory? k = some f ↔ (k, f) ∈ p.bindings.entries
  nothing : p.bindings.isEmpty = true ↔ p.keys = []

theorem coherent (p : Provider H) : p.Coherent where
  distinct := p.bindings.nodup
  size := p.bindings.length_keys
  contains _ := OrderedMap.contains_iff
  bound _ := OrderedMap.get?_isSome
  listed _ _ := OrderedMap.get?_eq_some_iff
  nothing := by
    show p.bindings.entries.isEmpty = true ↔ p.bindings.entries.map Prod.fst = []
    rw [List.isEmpty_iff, List.map_eq_nil_iff]

variable (p q : Provider H) (ks : List Key) (s : Supply)

/-- A merge with nothing keeps the provider as it is, and draws no identity. -/
theorem merge_of_isEmpty (h : q.bindings.isEmpty = true) : (p.merge q).run s = (p, s) := by
  unfold merge
  rw [if_pos h]
  rfl

theorem bindings_merge : ((p.merge q).result s).bindings = p.bindings.merge q.bindings := by
  unfold Fresh.result
  by_cases h : q.bindings.isEmpty = true
  · have nothing : q.bindings = .empty := by
      obtain ⟨_, entries, distinct⟩ := q
      obtain rfl : entries = [] := List.isEmpty_iff.1 h
      rfl
    rw [merge_of_isEmpty p q s h, nothing, OrderedMap.merge_empty]
  · unfold merge
    rw [if_neg h]
    rfl

theorem bindings_pick :
    ((p.pick ks).result s).bindings = p.bindings.filterKeys ks.contains := rfl

theorem bindings_without :
    ((p.without ks).result s).bindings = p.bindings.filterKeys fun k => !ks.contains k := rfl

end Provider

/-- The base provider of a plan is the merge of all that it is provided with, in turn. -/
theorem RunnerPlan.bindings_foldlM (plan : RunnerPlan H) (qs : List (Provider H)) (s : Supply) :
    (Fresh.result (qs.foldlM RunnerPlan.provide plan) s).provider.bindings =
      (qs.map Provider.bindings).foldl OrderedMap.merge plan.provider.bindings := by
  induction qs generalizing plan s with
  | nil => rfl
  | cons q rest ih =>
    have first : (Fresh.result (plan.provide q) s).provider.bindings =
        plan.provider.bindings.merge q.bindings := plan.provider.bindings_merge q s
    have later := ih (Fresh.result (plan.provide q) s) ((plan.provide q).run s).2
    rw [first] at later
    rw [List.foldlM_cons]
    exact later

/-- Providers are ordered maps. A change to one key keeps the places of all; a merge lists the keys of
the left provider and then the new ones of the right, and the right one's factories win; it is
associative and idempotent, the provider that binds nothing is neutral on both sides, and a selection
of keys keeps their order and distributes over it. A base provider that is put together in any number
of merges has each key at the place of its first binding, with the factory of its last. -/
theorem Provider.is_ordered_map (a b c : Provider H) (key : Key) (f : Factory H) (ks : List Key)
    (plan : RunnerPlan H) (qs : List (Provider H)) (s : Supply) :
    a.Coherent ∧
    (((a.bind key f).result s).keys = (if a.contains key then a.keys else a.keys ++ [key]) ∧
      ∀ k, ((a.bind key f).result s).factory? k = if k = key then some f else a.factory? k) ∧
    (((a.merge b).result s).keys = a.keys ++ b.keys.filter (fun k => !a.contains k) ∧
      ∀ k, ((a.merge b).result s).factory? k =
        if b.contains k then b.factory? k else a.factory? k) ∧
    ((Fresh.result (do (← a.merge b).merge c) s).bindings =
        (Fresh.result (do a.merge (← b.merge c)) s).bindings ∧
      ((a.merge a).result s).bindings = a.bindings ∧
      (Fresh.result (do a.merge (← Provider.new)) s).bindings = a.bindings ∧
      (Fresh.result (do (← Provider.new).merge a) s).bindings = a.bindings) ∧
    (((a.pick ks).result s).keys = a.keys.filter (· ∈ ks) ∧
      (∀ k, ((a.pick ks).result s).factory? k = if k ∈ ks then a.factory? k else none) ∧
      (Fresh.result (do (← a.merge b).pick ks) s).bindings =
        (Fresh.result (do (← a.pick ks).merge (← b.pick ks)) s).bindings) ∧
    (((a.without ks).result s).keys = a.keys.filter (· ∉ ks) ∧
      (∀ k, ((a.without ks).result s).factory? k = if k ∈ ks then none else a.factory? k) ∧
      (Fresh.result (do (← a.merge b).without ks) s).bindings =
        (Fresh.result (do (← a.without ks).merge (← b.without ks)) s).bindings) ∧
    ((Fresh.result (qs.foldlM RunnerPlan.provide plan) s).provider.keys =
        ((plan.provider :: qs).flatMap Provider.keys).eraseDups ∧
      ∀ k, (Fresh.result (qs.foldlM RunnerPlan.provide plan) s).provider.factory? k =
        (plan.provider :: qs).reverse.findSome? fun q => q.factory? k) := by
  have chosen : (fun k => decide (k ∈ ks)) = ks.contains := by
    funext k
    exact (List.contains_eq_mem k ks).symm
  have others : (fun k => decide (k ∉ ks)) = fun k => !ks.contains k := by
    funext k
    rw [List.contains_eq_mem, decide_not]
  refine ⟨a.coherent, ⟨?_, ?_⟩, ⟨?_, ?_⟩, ⟨?_, ?_, ?_, ?_⟩, ⟨?_, ?_, ?_⟩, ⟨?_, ?_, ?_⟩, ?_, ?_⟩
  · have placed := a.bindings.keys_set key f
    simp only [← OrderedMap.contains_iff] at placed
    exact placed
  · exact fun k => a.bindings.get?_set key k f
  · show ((a.merge b).result s).bindings.keys = _
    rw [bindings_merge]
    exact OrderedMap.keys_merge ..
  · intro k
    show ((a.merge b).result s).bindings.get? k = _
    rw [bindings_merge, OrderedMap.get?_merge, ← b.coherent.bound k]
    show (b.factory? k).or (a.factory? k) = _
    cases b.factory? k <;> rfl
  · rw [Fresh.result_bind, Fresh.result_bind, bindings_merge, bindings_merge, bindings_merge,
      bindings_merge, OrderedMap.merge_assoc]
  · rw [bindings_merge, OrderedMap.merge_self]
  · rw [Fresh.result_bind, bindings_merge]
    exact OrderedMap.merge_empty _
  · rw [Fresh.result_bind, bindings_merge]
    exact OrderedMap.empty_merge _
  · rw [chosen]
    exact OrderedMap.keys_filterKeys ..
  · intro k
    have found := a.bindings.get?_filterKeys ks.contains k
    simp only [List.contains_iff_mem] at found
    exact found
  · rw [Fresh.result_bind, Fresh.result_bind, Fresh.result_bind, bindings_merge, bindings_pick,
      bindings_pick, bindings_pick, bindings_merge, OrderedMap.filterKeys_merge]
  · rw [others]
    exact OrderedMap.keys_filterKeys ..
  · intro k
    have found := a.bindings.get?_filterKeys (fun k => !ks.contains k) k
    simp only [Bool.not_eq_true', Bool.eq_false_iff, Ne, List.contains_iff_mem, ite_not] at found
    exact found
  · rw [Fresh.result_bind, Fresh.result_bind, Fresh.result_bind, bindings_merge, bindings_without,
      bindings_without, bindings_without, bindings_merge, OrderedMap.filterKeys_merge]
  · rw [Provider.keys, RunnerPlan.bindings_foldlM, OrderedMap.keys_foldl_merge, ← List.map_cons,
      List.flatMap_map]
    rfl
  · intro k
    rw [Provider.factory?, RunnerPlan.bindings_foldlM, OrderedMap.get?_foldl_merge, ← List.map_cons,
      ← List.map_reverse, List.findSome?_map]
    rfl

end ScopedEffects
