import ScopedEffects.Proofs.WaitGraph.Edges

/-! The two sides of the graph of waits. The reverse edges mirror the edges, and neither side keeps an
entry under which nothing is left. So a graph in which nothing is counted is empty on both sides. -/

namespace ScopedEffects

theorem OrderedMap.isEmpty_iff_get? {κ α : Type} [DecidableEq κ] {m : OrderedMap κ α} :
    m.isEmpty = true ↔ ∀ k, m.get? k = none := by
  constructor
  · intro h k
    rw [eq_empty_of_isEmpty h]
    rfl
  · intro h
    obtain ⟨entries, nodup⟩ := m
    cases entries with
    | nil => rfl
    | cons e rest =>
      have first := h e.1
      simp [get?] at first

theorem OrderedMap.isEmpty_set {κ α : Type} [DecidableEq κ] (m : OrderedMap κ α) (k : κ) (a : α) :
    (m.set k a).isEmpty = false := by
  rw [Bool.eq_false_iff]
  intro h
  have none := isEmpty_iff_get?.1 h k
  rw [get?_set, if_pos rfl] at none
  cases none

/-- An entry that is changed, or erased when nothing is left of it. -/
theorem OrderedMap.get?_tidied {κ α : Type} [DecidableEq κ] {m : OrderedMap κ α} {k j : κ} {a b : α}
    {gone : Bool} (h : (if gone then m.erase k else m.set k a).get? j = some b) :
    m.get? j = some b ∨ b = a ∧ gone = false := by
  cases gone with
  | true =>
    rw [if_pos rfl, get?_erase] at h
    split at h
    · cases h
    · exact .inl h
  | false =>
    rw [if_neg Bool.false_ne_true, get?_set] at h
    split at h
    · exact .inr ⟨(Option.some.inj h).symm, rfl⟩
    · exact .inl h

namespace WaitGraph

variable {g : WaitGraph}

/-- The keys that wait on `b`. -/
def waitersOf (g : WaitGraph) (b : Key) : List Key := (g.waiters.get? b).getD []

theorem waitersOf_add (g : WaitGraph) (a b y : Key) : (g.add a b).waitersOf y =
    if y = b then (if a ∈ g.waitersOf b then g.waitersOf b else g.waitersOf b ++ [a])
    else g.waitersOf y := by
  unfold waitersOf add
  rw [OrderedMap.get?_set]
  by_cases hy : y = b
  · simp [hy]
  · simp [hy]

theorem get?_withoutWaiter (waiters : OrderedMap Key (List Key)) (a b y : Key) :
    ((withoutWaiter waiters a b).get? y).getD [] =
      if y = b then ((waiters.get? b).getD []).filter (· ≠ a) else (waiters.get? y).getD [] := by
  unfold withoutWaiter
  cases hb : waiters.get? b with
  | none =>
    by_cases hy : y = b
    · simp [hy, hb]
    · simp [hy]
  | some waiting =>
    simp only [Option.getD_some]
    generalize waiting.filter (· ≠ a) = rest
    cases rest with
    | nil =>
      simp only [List.isEmpty_nil, if_true, OrderedMap.get?_erase]
      split <;> rfl
    | cons x more =>
      simp only [List.isEmpty_cons, Bool.false_eq_true, if_false, OrderedMap.get?_set]
      split <;> rfl

/-- Both sides of a graph hold what is counted and nothing else. -/
structure Mirrored (g : WaitGraph) : Prop where
  tight : g.Tight
  waiting : ∀ a t, g.edges.get? a = some t → t.isEmpty = false
  awaited : ∀ b ws, g.waiters.get? b = some ws → ws ≠ []
  mirror : ∀ a b, a ∈ g.waitersOf b ↔ g.Edge a b

theorem mirrored_empty : ({} : WaitGraph).Mirrored := by
  refine ⟨tight_empty, ?_, ?_, ?_⟩
  · rintro a t ⟨⟩
  · rintro b ws ⟨⟩
  · exact fun a b => ⟨fun h => (nomatch h), fun h => (nomatch h)⟩

theorem Mirrored.add (h : g.Mirrored) (a b : Key) : (g.add a b).Mirrored := by
  refine ⟨h.tight.add a b, fun x t ht => ?_, fun y ws hw => ?_, fun x y => ?_⟩
  · simp only [WaitGraph.add, OrderedMap.get?_set] at ht
    split at ht
    · cases ht
      exact OrderedMap.isEmpty_set ..
    · exact h.waiting x t ht
  · simp only [WaitGraph.add, OrderedMap.get?_set] at hw
    split at hw
    · cases hw
      split
      · rename_i there
        exact List.ne_nil_of_mem (List.contains_iff_mem.1 there)
      · simp
    · exact h.awaited y ws hw
  · rw [waitersOf_add, edge_add]
    by_cases hy : y = b
    · subst hy
      simp only [if_true, and_true]
      split
      · rename_i there
        rw [h.mirror]
        exact ⟨.inl, fun e => e.elim id fun hx => hx ▸ (h.mirror a y).1 there⟩
      · rw [List.mem_append, List.mem_singleton, h.mirror]
    · simp only [hy, if_false, and_false, or_false]
      exact h.mirror x y

/-- The waiting key leaves the reverse edges with the last wait of the pair. -/
theorem Tight.waitersOf_remove (h : g.Tight) (a b y : Key) : (g.remove a b).waitersOf y =
    if y = b ∧ g.count a b = 1 then (g.waitersOf b).filter (· ≠ a) else g.waitersOf y := by
  unfold count WaitGraph.remove waitersOf
  cases hb : (g.targets a).get? b with
  | none => simp
  | some n =>
    have pos : 0 < n := h a b n hb
    by_cases more : 1 < n
    · have several : n ≠ 1 := by omega
      simp [more, several]
    · have one : n = 1 := by omega
      subst one
      simp only [lt_irrefl, if_false, Option.getD_some, and_true]
      exact get?_withoutWaiter g.waiters a b y

theorem Tight.edge_remove (h : g.Tight) (a b x y : Key) : (g.remove a b).Edge x y ↔
    g.Edge x y ∧ ¬ (x = a ∧ y = b ∧ g.count a b = 1) := by
  rw [(h.remove a b).edge_iff, h.edge_iff, count_remove]
  by_cases same : x = a ∧ y = b
  · obtain ⟨rfl, rfl⟩ := same
    simp only [and_self, if_true, true_and]
    omega
  · rw [if_neg same]
    tauto

theorem Mirrored.remove (h : g.Mirrored) (a b : Key) : (g.remove a b).Mirrored := by
  refine ⟨h.tight.remove a b, fun x t ht => ?_, fun y ws hw => ?_, fun x y => ?_⟩
  · unfold WaitGraph.remove at ht
    split at ht
    · exact h.waiting x t ht
    · rcases OrderedMap.get?_tidied ht with old | ⟨rfl, left⟩
      · exact h.waiting x t old
      · exact left
  · unfold WaitGraph.remove at hw
    split at hw
    · exact h.awaited y ws hw
    · simp only [withoutWaiter] at hw
      split at hw
      · exact h.awaited y ws hw
      · split at hw
        · exact h.awaited y ws hw
        · rcases OrderedMap.get?_tidied hw with old | ⟨rfl, left⟩
          · exact h.awaited y ws old
          · exact List.isEmpty_eq_false_iff.1 left
  · rw [h.tight.waitersOf_remove, h.tight.edge_remove, ← h.mirror]
    split
    · rename_i last
      obtain ⟨rfl, one⟩ := last
      simp [one]
    · rename_i other
      exact ⟨fun hx => ⟨hx, fun last => other last.2⟩, fun hx => hx.1⟩

/-- A graph is empty when nothing is counted in it. -/
theorem Mirrored.isEmpty_iff (h : g.Mirrored) : g.isEmpty = true ↔ ∀ a b, g.count a b = 0 := by
  rw [isEmpty, Bool.and_eq_true, OrderedMap.isEmpty_iff_get?, OrderedMap.isEmpty_iff_get?]
  constructor
  · intro none a b
    simp [count, targets, none.1 a]
  · intro none
    have no_edge : ∀ a b, ¬ g.Edge a b := fun a b e => by
      have counted := h.tight.edge_iff.1 e
      rw [none] at counted
      exact counted.false
    constructor
    · intro a
      by_contra some
      obtain ⟨t, ht⟩ := Option.ne_none_iff_exists'.1 some
      obtain ⟨⟨b, n⟩, hb⟩ := List.exists_mem_of_ne_nil t.entries <| by
        have filled := h.waiting a t ht
        intro nothing
        simp [OrderedMap.isEmpty, nothing] at filled
      refine no_edge a b ?_
      rw [Edge, targets, ht]
      exact List.mem_map_of_mem hb
    · intro b
      by_contra some
      obtain ⟨ws, hw⟩ := Option.ne_none_iff_exists'.1 some
      obtain ⟨a, ha⟩ := List.exists_mem_of_ne_nil ws (h.awaited b ws hw)
      refine no_edge a b ((h.mirror a b).1 ?_)
      rw [waitersOf, hw]
      exact ha

end WaitGraph

end ScopedEffects
