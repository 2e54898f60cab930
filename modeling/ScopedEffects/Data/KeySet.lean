/-! Finite sets of keys, kept as strictly ascending lists. Keys compare by their code points. -/

namespace ScopedEffects

abbrev Key := String

/-- A key put into an ascending list, at most once. -/
def insertKey (k : Key) : List Key → List Key
  | [] => [k]
  | j :: rest => if k < j then k :: j :: rest else if k = j then j :: rest else j :: insertKey k rest

theorem mem_insertKey {k j : Key} {l : List Key} : j ∈ insertKey k l ↔ j = k ∨ j ∈ l := by
  induction l with
  | nil => simp [insertKey]
  | cons i rest ih =>
    rw [insertKey]
    split
    · simp
    · split
      · rename_i h; subst h; simp
      · simp only [List.mem_cons, ih]; grind

theorem pairwise_insertKey {k : Key} {l : List Key} (h : l.Pairwise (· < ·)) :
    (insertKey k l).Pairwise (· < ·) := by
  induction l with
  | nil => simp [insertKey]
  | cons i rest ih =>
    obtain ⟨hi, hrest⟩ := List.pairwise_cons.1 h
    rw [insertKey]
    split
    · rename_i hk
      refine List.pairwise_cons.2 ⟨fun a ha => ?_, h⟩
      rcases List.mem_cons.1 ha with rfl | ha
      · exact hk
      · exact String.lt_trans hk (hi a ha)
    · split
      · exact h
      · rename_i hlt hne
        have hik : i < k := String.not_le.1 fun hle =>
          hne (String.le_antisymm hle (String.not_lt.1 hlt))
        refine List.pairwise_cons.2 ⟨fun a ha => ?_, ih hrest⟩
        rcases mem_insertKey.1 ha with rfl | ha
        · exact hik
        · exact hi a ha

structure KeySet where
  toList : List Key
  ascending : toList.Pairwise (· < ·)

namespace KeySet

def empty : KeySet := ⟨[], List.Pairwise.nil⟩

instance : Inhabited KeySet := ⟨empty⟩

instance : Membership Key KeySet := ⟨fun s k => k ∈ s.toList⟩

def insert (s : KeySet) (k : Key) : KeySet := ⟨insertKey k s.toList, pairwise_insertKey s.ascending⟩

def union (s t : KeySet) : KeySet := t.toList.foldl insert s

def singleton (k : Key) : KeySet := empty.insert k

/-- The keys that pass a test. -/
def filter (p : Key → Bool) (s : KeySet) : KeySet :=
  ⟨s.toList.filter p, s.ascending.sublist List.filter_sublist⟩

def unions (sets : List KeySet) : KeySet := sets.foldl union empty

theorem mem_def {s : KeySet} {k : Key} : k ∈ s ↔ k ∈ s.toList := Iff.rfl

@[simp] theorem not_mem_empty {k : Key} : ¬ k ∈ empty := by simp [mem_def, empty]

@[simp] theorem mem_insert {s : KeySet} {k j : Key} : j ∈ s.insert k ↔ j = k ∨ j ∈ s := mem_insertKey

@[simp] theorem mem_singleton {k j : Key} : j ∈ singleton k ↔ j = k := by simp [singleton]

@[simp] theorem mem_filter {p : Key → Bool} {s : KeySet} {k : Key} :
    k ∈ s.filter p ↔ k ∈ s ∧ p k = true := List.mem_filter

@[simp] theorem mem_union {s t : KeySet} {k : Key} : k ∈ s.union t ↔ k ∈ s ∨ k ∈ t := by
  obtain ⟨l, h⟩ := t
  suffices ∀ s : KeySet, k ∈ l.foldl insert s ↔ k ∈ s ∨ k ∈ l from this s
  clear h
  induction l with
  | nil => simp
  | cons j rest ih => intro s; rw [List.foldl_cons, ih, mem_insert, List.mem_cons]; grind

end KeySet

end ScopedEffects
