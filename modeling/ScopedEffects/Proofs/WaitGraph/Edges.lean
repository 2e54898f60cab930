import Mathlib.Logic.Relation
import Mathlib.Tactic
import ScopedEffects.WaitGraph

/-! Counts and edges of the graph of waits. A request that begins counts one more wait of its pair
and leaves all other pairs alone; one that is over counts one less. Edges are what the search for
cycles follows: they come with the first wait of a pair, and none comes when a wait is over. A graph
without cycles stays without cycles as long as no edge is added against a path. -/

namespace ScopedEffects

theorem OrderedMap.eq_empty_of_isEmpty {κ α : Type} {m : OrderedMap κ α} (h : m.isEmpty = true) :
    m = .empty := by
  obtain ⟨l, hl⟩ := m
  cases l with
  | nil => rfl
  | cons e rest => simp [OrderedMap.isEmpty] at h

namespace WaitGraph

open Relation

/-! Counts -/

theorem targets_add (g : WaitGraph) (a b x : Key) :
    (g.add a b).targets x =
      if x = a then (g.targets a).set b (g.count a b + 1) else g.targets x := by
  unfold targets add
  rw [OrderedMap.get?_set]
  split <;> rfl

theorem count_add (g : WaitGraph) (a b x y : Key) :
    (g.add a b).count x y = g.count x y + if x = a ∧ y = b then 1 else 0 := by
  rw [count, targets_add]
  by_cases hx : x = a
  · subst hx
    rw [if_pos rfl, OrderedMap.get?_set]
    by_cases hy : y = b
    · subst hy; simp
    · simp [hy, count]
  · simp [hx, count]

/-- A key that waits on nothing any more leaves the edges. -/
theorem targets_tidy (g : WaitGraph) (a x : Key) (left : OrderedMap Key Nat) :
    (((if left.isEmpty then g.edges.erase a else g.edges.set a left).get? x).getD .empty) =
      if x = a then left else g.targets x := by
  by_cases hl : left.isEmpty = true
  · rw [if_pos hl, OrderedMap.get?_erase]
    by_cases hx : x = a
    · simp [hx, OrderedMap.eq_empty_of_isEmpty hl]
    · simp [hx, targets]
  · rw [if_neg hl, OrderedMap.get?_set]
    by_cases hx : x = a <;> simp [hx, targets]

theorem targets_remove (g : WaitGraph) (a b x : Key) :
    (g.remove a b).targets x = if x = a then lessOne (g.targets a) b else g.targets x := by
  unfold remove
  cases hb : (g.targets a).get? b with
  | none =>
    by_cases hx : x = a
    · subst hx; simp [lessOne, hb]
    · rw [if_neg hx]
  | some n => exact targets_tidy g a x (lessOne (g.targets a) b)

theorem get?_lessOne (t : OrderedMap Key Nat) (b y : Key) :
    ((lessOne t b).get? y).getD 0 = (t.get? y).getD 0 - if y = b then 1 else 0 := by
  unfold lessOne
  cases ht : t.get? b with
  | none =>
    by_cases hy : y = b
    · subst hy; simp [ht]
    · simp [hy]
  | some n =>
    by_cases hy : y = b
    · subst hy
      by_cases hn : 1 < n
      · simp [hn, OrderedMap.get?_set, ht]
      · simp only [hn, if_false, OrderedMap.get?_erase, if_true, ht, Option.getD_none,
          Option.getD_some]
        omega
    · by_cases hn : 1 < n
      · simp [hn, OrderedMap.get?_set, hy]
      · simp [hn, OrderedMap.get?_erase, hy]

/-- One wait of the pair is over, if there was one, and no other. -/
theorem count_remove (g : WaitGraph) (a b x y : Key) :
    (g.remove a b).count x y = g.count x y - if x = a ∧ y = b then 1 else 0 := by
  rw [count, targets_remove]
  by_cases hx : x = a
  · subst hx
    rw [if_pos rfl, get?_lessOne]
    simp [count]
  · simp [hx, count]

/-! Edges -/

def Edge (g : WaitGraph) (a b : Key) : Prop := b ∈ (g.targets a).keys

theorem edge_of_count {g : WaitGraph} {a b : Key} (h : 0 < g.count a b) : g.Edge a b := by
  unfold count at h
  cases hb : (g.targets a).get? b with
  | none => simp [hb] at h
  | some n => exact OrderedMap.mem_keys_iff.2 ⟨n, hb⟩

theorem edge_add {g : WaitGraph} {a b x y : Key} :
    (g.add a b).Edge x y ↔ g.Edge x y ∨ x = a ∧ y = b := by
  unfold Edge
  rw [targets_add]
  by_cases hx : x = a
  · subst hx
    rw [if_pos rfl, OrderedMap.mem_keys_set]
    simp only [true_and, or_comm]
  · simp [hx]

theorem mem_keys_lessOne {t : OrderedMap Key Nat} {b y : Key} (h : y ∈ (lessOne t b).keys) :
    y ∈ t.keys := by
  unfold lessOne at h
  cases ht : t.get? b with
  | none => simpa [ht] using h
  | some n =>
    simp only [ht] at h
    split at h
    · rcases OrderedMap.mem_keys_set.1 h with rfl | hy
      · exact OrderedMap.mem_keys_iff.2 ⟨n, ht⟩
      · exact hy
    · obtain ⟨m, hm⟩ := OrderedMap.mem_keys_iff.1 h
      rw [OrderedMap.get?_erase] at hm
      split at hm
      · cases hm
      · exact OrderedMap.mem_keys_iff.2 ⟨m, hm⟩

theorem edge_of_remove {g : WaitGraph} {a b x y : Key} (h : (g.remove a b).Edge x y) :
    g.Edge x y := by
  unfold Edge at h ⊢
  rw [targets_remove] at h
  by_cases hx : x = a
  · subst hx
    rw [if_pos rfl] at h
    exact mem_keys_lessOne h
  · rwa [if_neg hx] at h

/-! Pairs that are kept -/

/-- Every pair that is kept has a wait under way. -/
def Tight (g : WaitGraph) : Prop := ∀ a b n, (g.targets a).get? b = some n → 0 < n

theorem tight_empty : ({} : WaitGraph).Tight := fun _ _ _ h => nomatch h

theorem Tight.add {g : WaitGraph} (hg : g.Tight) (a b : Key) : (g.add a b).Tight := by
  intro x y n h
  rw [targets_add] at h
  by_cases hx : x = a
  · rw [if_pos hx, OrderedMap.get?_set] at h
    by_cases hy : y = b
    · rw [if_pos hy] at h
      exact Option.some.inj h ▸ Nat.succ_pos _
    · rw [if_neg hy] at h
      exact hg a y n h
  · rw [if_neg hx] at h
    exact hg x y n h

/-- The last wait of a pair takes the pair with it. -/
theorem get?_lessOne_pos {t : OrderedMap Key Nat} (ht : ∀ y n, t.get? y = some n → 0 < n)
    {b y : Key} {n : Nat} (h : (lessOne t b).get? y = some n) : 0 < n := by
  unfold lessOne at h
  cases hb : t.get? b with
  | none =>
    rw [hb] at h
    exact ht y n h
  | some m =>
    simp only [hb] at h
    split at h
    · rename_i more
      rw [OrderedMap.get?_set] at h
      split at h
      · cases h
        exact Nat.sub_pos_of_lt more
      · exact ht y n h
    · rw [OrderedMap.get?_erase] at h
      split at h
      · cases h
      · exact ht y n h

theorem Tight.remove {g : WaitGraph} (hg : g.Tight) (a b : Key) : (g.remove a b).Tight := by
  intro x y n h
  rw [targets_remove] at h
  by_cases hx : x = a
  · rw [if_pos hx] at h
    exact get?_lessOne_pos (hg a) h
  · rw [if_neg hx] at h
    exact hg x y n h

theorem Tight.edge_iff {g : WaitGraph} (hg : g.Tight) {a b : Key} :
    g.Edge a b ↔ 0 < g.count a b := by
  refine ⟨fun h => ?_, edge_of_count⟩
  obtain ⟨n, hn⟩ := OrderedMap.mem_keys_iff.1 h
  rw [count, hn]
  exact hg a b n hn

/-! Cycles -/

/-- No key waits on itself, directly or through others. -/
def Acyclic (g : WaitGraph) : Prop := ∀ a, ¬ TransGen g.Edge a a

theorem acyclic_empty : ({} : WaitGraph).Acyclic := by
  intro a h
  obtain ⟨b, hb, -⟩ := TransGen.head'_iff.1 h
  cases hb

/-- A path in a graph with one more edge either does without the edge, or goes up to it and on from
it. -/
theorem path_add {g : WaitGraph} {a b x y : Key} (h : TransGen (g.add a b).Edge x y) :
    TransGen g.Edge x y ∨ ReflTransGen g.Edge x a ∧ ReflTransGen g.Edge b y := by
  induction h with
  | single h =>
    rcases edge_add.1 h with h | ⟨rfl, rfl⟩
    · exact .inl (.single h)
    · exact .inr ⟨.refl, .refl⟩
  | tail _ h ih =>
    rcases edge_add.1 h with h | ⟨rfl, rfl⟩
    · exact ih.imp (·.tail h) fun p => ⟨p.1, p.2.tail h⟩
    · rcases ih with p | p
      · exact .inr ⟨p.to_reflTransGen, .refl⟩
      · exact .inr ⟨p.1, .refl⟩

theorem Acyclic.add {g : WaitGraph} (hg : g.Acyclic) {a b : Key} (h : ¬ ReflTransGen g.Edge b a) :
    (g.add a b).Acyclic := by
  intro x hx
  rcases path_add hx with p | ⟨p, q⟩
  · exact hg x p
  · exact h (q.trans p)

theorem Acyclic.remove {g : WaitGraph} (hg : g.Acyclic) (a b : Key) : (g.remove a b).Acyclic :=
  fun x hx => hg x (TransGen.mono (fun _ _ => edge_of_remove) _ _ hx)

end WaitGraph

end ScopedEffects
