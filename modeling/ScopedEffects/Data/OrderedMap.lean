/-! Finite maps that keep the order in which their keys first came. Writing to a key that is bound
replaces its value where it stands; a new key goes to the end. Keys are pairwise distinct. -/

namespace ScopedEffects

/-- The entries of a map after a write. -/
def putEntry {κ α : Type} [DecidableEq κ] (k : κ) (a : α) : List (κ × α) → List (κ × α)
  | [] => [(k, a)]
  | (j, b) :: rest => if j = k then (k, a) :: rest else (j, b) :: putEntry k a rest

section entries
variable {κ α : Type} [DecidableEq κ]

theorem mem_keys_putEntry {k j : κ} {a : α} {l : List (κ × α)} :
    j ∈ (putEntry k a l).map Prod.fst ↔ j = k ∨ j ∈ l.map Prod.fst := by
  induction l with
  | nil => simp [putEntry]
  | cons e rest ih =>
    obtain ⟨i, b⟩ := e
    rw [putEntry]
    split
    · rename_i h; subst h; simp
    · simp only [List.map_cons, List.mem_cons, ih]; grind

theorem nodup_putEntry {k : κ} {a : α} {l : List (κ × α)} (h : (l.map Prod.fst).Nodup) :
    ((putEntry k a l).map Prod.fst).Nodup := by
  induction l with
  | nil => simp [putEntry]
  | cons e rest ih =>
    obtain ⟨i, b⟩ := e
    rw [List.map_cons, List.nodup_cons] at h
    rw [putEntry]
    split
    · rename_i hk; subst hk; simpa using h
    · rename_i hk
      rw [List.map_cons, List.nodup_cons, mem_keys_putEntry]
      exact ⟨fun h' => h'.elim hk h.1, ih h.2⟩

end entries

structure OrderedMap (κ α : Type) where
  entries : List (κ × α)
  nodup_keys : (entries.map Prod.fst).Nodup

namespace OrderedMap

variable {κ α : Type}

def empty : OrderedMap κ α := ⟨[], List.nodup_nil⟩

instance : Inhabited (OrderedMap κ α) := ⟨empty⟩

def keys (m : OrderedMap κ α) : List κ := m.entries.map Prod.fst

def values (m : OrderedMap κ α) : List α := m.entries.map Prod.snd

def size (m : OrderedMap κ α) : Nat := m.entries.length

def isEmpty (m : OrderedMap κ α) : Bool := m.entries.isEmpty

/-- The entries whose key passes a test, in their order. -/
def filterKeys (p : κ → Bool) (m : OrderedMap κ α) : OrderedMap κ α :=
  ⟨m.entries.filter fun e => p e.1,
    m.nodup_keys.sublist (List.filter_sublist.map Prod.fst)⟩

/-- A function applied to every value. -/
def mapValues {β : Type} (f : κ → α → β) (m : OrderedMap κ α) : OrderedMap κ β :=
  ⟨m.entries.map fun e => (e.1, f e.1 e.2), by
    rw [List.map_map]; exact m.nodup_keys⟩

variable [DecidableEq κ]

def get? (m : OrderedMap κ α) (k : κ) : Option α :=
  (m.entries.find? fun e => e.1 = k).map Prod.snd

def contains (m : OrderedMap κ α) (k : κ) : Bool := m.entries.any fun e => e.1 = k

def set (m : OrderedMap κ α) (k : κ) (a : α) : OrderedMap κ α :=
  ⟨putEntry k a m.entries, nodup_putEntry m.nodup_keys⟩

def erase (m : OrderedMap κ α) (k : κ) : OrderedMap κ α := m.filterKeys (· ≠ k)

/-- The value at a bound key changed by a function. -/
def modify (m : OrderedMap κ α) (k : κ) (f : α → α) : OrderedMap κ α :=
  m.mapValues fun j a => if j = k then f a else a

/-- All entries of `other` written into `m` in their order. -/
def merge (m other : OrderedMap κ α) : OrderedMap κ α :=
  other.entries.foldl (fun acc e => acc.set e.1 e.2) m

theorem get?_set (m : OrderedMap κ α) (k j : κ) (a : α) :
    (m.set k a).get? j = if j = k then some a else m.get? j := by
  obtain ⟨l, h⟩ := m
  simp only [get?, set]
  clear h
  induction l with
  | nil => by_cases hj : j = k <;> simp [putEntry, hj, eq_comm]
  | cons e rest ih =>
    obtain ⟨i, b⟩ := e
    rw [putEntry]
    split
    · rename_i hi; subst hi
      by_cases hj : j = i
      · subst hj; simp
      · have hij : ¬ i = j := fun h => hj h.symm
        simp [hij, hj]
    · rename_i hi
      by_cases hij : i = j
      · subst hij; simp [hi]
      · simp only [List.find?_cons, hij, decide_false]
        exact ih

theorem mem_keys_set {m : OrderedMap κ α} {k j : κ} {a : α} :
    j ∈ (m.set k a).keys ↔ j = k ∨ j ∈ m.keys := mem_keys_putEntry

theorem contains_iff {m : OrderedMap κ α} {k : κ} : m.contains k = true ↔ k ∈ m.keys := by
  simp [contains, keys]

theorem get?_isSome {m : OrderedMap κ α} {k : κ} : (m.get? k).isSome = m.contains k := by
  rw [get?, contains, Option.isSome_map, Bool.eq_iff_iff, List.find?_isSome, List.any_eq_true]

theorem get?_filterKeys (m : OrderedMap κ α) (p : κ → Bool) (k : κ) :
    (m.filterKeys p).get? k = if p k then m.get? k else none := by
  obtain ⟨l, h⟩ := m
  simp only [get?, filterKeys]
  clear h
  induction l with
  | nil => simp
  | cons e rest ih =>
    obtain ⟨i, b⟩ := e
    by_cases hp : p i
    · rw [List.filter_cons_of_pos (by simpa using hp)]
      by_cases hk : i = k
      · subst hk; simp [hp]
      · simp only [List.find?_cons, hk, decide_false]; exact ih
    · rw [List.filter_cons_of_neg (by simpa using hp)]
      by_cases hk : i = k
      · subst hk; rw [ih]; simp [hp]
      · simp only [List.find?_cons, hk, decide_false]; exact ih

theorem get?_erase (m : OrderedMap κ α) (k j : κ) :
    (m.erase k).get? j = if j = k then none else m.get? j := by
  rw [erase, get?_filterKeys]
  by_cases h : j = k <;> simp [h]

theorem get?_modify (m : OrderedMap κ α) (k j : κ) (f : α → α) :
    (m.modify k f).get? j = if j = k then (m.get? j).map f else m.get? j := by
  obtain ⟨l, h⟩ := m
  simp only [get?, modify, mapValues]
  clear h
  induction l with
  | nil => simp
  | cons e rest ih =>
    obtain ⟨i, b⟩ := e
    by_cases hi : i = j
    · subst hi
      by_cases hk : i = k <;> simp [hk]
    · simp only [List.map_cons, List.find?_cons, hi, decide_false]
      exact ih

@[simp] theorem get?_empty (k : κ) : (empty : OrderedMap κ α).get? k = none := rfl

theorem mem_keys_iff {m : OrderedMap κ α} {k : κ} : k ∈ m.keys ↔ ∃ a, m.get? k = some a := by
  rw [← contains_iff, ← get?_isSome, Option.isSome_iff_exists]

theorem mem_values_of_get? {m : OrderedMap κ α} {k : κ} {a : α} (h : m.get? k = some a) :
    a ∈ m.values := by
  obtain ⟨e, he, rfl⟩ := Option.map_eq_some_iff.1 h
  exact List.mem_map_of_mem (List.mem_of_find?_eq_some he)

end OrderedMap

end ScopedEffects
