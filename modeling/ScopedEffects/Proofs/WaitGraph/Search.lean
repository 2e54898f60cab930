import ScopedEffects.Proofs.WaitGraph.Edges

/-! The search for a path misses none, and finds none that is not there. Every key that the search
has met and no longer holds on its stack has all its awaited keys among those met, so when the stack
is empty the keys met are closed under edges. Each key is met once, which is why the number of steps
is enough. -/

namespace ScopedEffects.WaitGraph

open Relation

variable {g : WaitGraph} {goal : Key}

theorem mem_visited_meet (s : Search) (node k : Key) (ks : List Key) :
    k ∈ (s.meet node ks).visited ↔ k ∈ s.visited ∨ k ∈ ks := by
  induction ks generalizing s with
  | nil => simp [Search.meet]
  | cons j rest ih =>
    rw [Search.meet]
    split
    · rename_i hj
      rw [ih, List.mem_cons]
      have hj : j ∈ s.visited := by simpa using hj
      constructor
      · exact fun h => h.imp_right .inr
      · rintro (h | rfl | h)
        · exact .inl h
        · exact .inl hj
        · exact .inr h
    · rw [ih, List.mem_cons, List.mem_cons]
      tauto

theorem mem_stack_meet (s : Search) (node k : Key) (ks : List Key) :
    k ∈ (s.meet node ks).stack ↔ k ∈ s.stack ∨ k ∈ ks ∧ k ∉ s.visited := by
  induction ks generalizing s with
  | nil => simp [Search.meet]
  | cons j rest ih =>
    rw [Search.meet]
    split
    · rename_i hj
      have hj : j ∈ s.visited := by simpa using hj
      rw [ih, List.mem_cons]
      constructor
      · exact fun h => h.imp_right fun p => ⟨.inr p.1, p.2⟩
      · rintro (h | ⟨rfl | h, hk⟩)
        · exact .inl h
        · exact absurd hj hk
        · exact .inr ⟨h, hk⟩
    · rename_i hj
      have hj : j ∉ s.visited := by simpa using hj
      rw [ih, List.mem_cons, List.mem_cons, List.mem_cons]
      constructor
      · rintro ((rfl | h) | ⟨h, hk⟩)
        · exact .inr ⟨.inl rfl, hj⟩
        · exact .inl h
        · exact .inr ⟨.inr h, fun hv => hk (.inr hv)⟩
      · rintro (h | ⟨rfl | h, hk⟩)
        · exact .inl (.inr h)
        · exact .inl (.inl rfl)
        · by_cases hkj : k = j
          · exact .inl (.inl hkj)
          · exact .inr ⟨h, fun hv => hv.elim hkj hk⟩

def awaited (g : WaitGraph) : List Key := g.edges.values.flatMap OrderedMap.keys

theorem mem_awaited {a b : Key} (h : g.Edge a b) : b ∈ g.awaited := by
  unfold Edge targets at h
  cases ha : g.edges.get? a with
  | none => simp [ha, OrderedMap.keys, OrderedMap.empty] at h
  | some t =>
    rw [ha] at h
    exact List.mem_flatMap.2 ⟨t, OrderedMap.mem_values_of_get? ha, h⟩

theorem length_awaited (g : WaitGraph) : g.awaited.length + 2 = g.bound := by
  rw [awaited, bound]
  induction g.edges.values with
  | nil => rfl
  | cons t rest ih =>
    have size : t.keys.length = t.size := List.length_map _
    rw [List.flatMap_cons, List.length_append, List.foldr_cons, ← ih, size, Nat.add_assoc]

/-- How much a search has still to do: the keys it holds, and those it may still meet. -/
def work (g : WaitGraph) (s : Search) : Nat :=
  s.stack.length + (g.awaited.filter fun k => !s.visited.contains k).length

theorem work_meet (g : WaitGraph) (s : Search) (node : Key) (ks : List Key)
    (h : ∀ k ∈ ks, k ∈ g.awaited) : g.work (s.meet node ks) ≤ g.work s := by
  induction ks generalizing s with
  | nil => exact le_rfl
  | cons j rest ih =>
    have hrest : ∀ k ∈ rest, k ∈ g.awaited := fun k hk => h k (List.mem_cons_of_mem _ hk)
    rw [Search.meet]
    split
    · exact ih s hrest
    · rename_i hj
      refine (ih _ hrest).trans ?_
      have hj : j ∉ s.visited := by simpa using hj
      have fewer : (g.awaited.filter fun k => !(j :: s.visited).contains k).length <
          (g.awaited.filter fun k => !s.visited.contains k).length := by
        have split_off : (g.awaited.filter fun k => !(j :: s.visited).contains k) =
            (g.awaited.filter fun k => !s.visited.contains k).filter (· ≠ j) := by
          rw [List.filter_filter]
          refine List.filter_congr fun k _ => ?_
          by_cases hk : k = j <;> simp [hk]
        rw [split_off]
        refine List.length_filter_lt_length_iff_exists.2 ⟨j, ?_, by simp⟩
        exact List.mem_filter.2 ⟨h j List.mem_cons_self, by simpa using hj⟩
      simp only [work, List.length_cons]
      omega

/-- What a search for `goal` has found out: the keys it met and dropped are not the goal, and it has
met all that they wait on. -/
structure Search.Closing (g : WaitGraph) (goal : Key) (s : Search) : Prop where
  held : ∀ k ∈ s.stack, k ∈ s.visited
  dropped : ∀ k ∈ s.visited, k ∉ s.stack → k ≠ goal ∧ ∀ j, g.Edge k j → j ∈ s.visited

theorem Search.Closing.meet {node : Key} {rest visited ks : List Key} {reached : OrderedMap Key Key}
    (h : Search.Closing g goal ⟨node :: rest, visited, reached⟩) (hn : node ≠ goal)
    (all : ∀ j, g.Edge node j → j ∈ ks) :
    Search.Closing g goal (Search.meet ⟨rest, visited, reached⟩ node ks) := by
  constructor
  · intro k hk
    rw [mem_visited_meet]
    rcases (mem_stack_meet _ _ _ _).1 hk with hk | hk
    · exact .inl (h.held k (List.mem_cons_of_mem _ hk))
    · exact .inr hk.1
  · intro k hk hs
    rw [mem_visited_meet] at hk
    rw [mem_stack_meet] at hs
    by_cases hkn : k = node
    · subst hkn
      exact ⟨hn, fun j hj => (mem_visited_meet _ _ _ _).2 (.inr (all j hj))⟩
    · have hv : k ∈ visited := by
        rcases hk with hk | hk
        · exact hk
        · exact not_not.1 fun hv => hs (.inr ⟨hk, hv⟩)
      have hk := h.dropped k hv fun hm =>
        (List.mem_cons.1 hm).elim hkn fun hr => hs (.inl hr)
      exact ⟨hk.1, fun j hj => (mem_visited_meet _ _ _ _).2 (.inl (hk.2 j hj))⟩

/-- A search that ends without a path has met a set of keys that is closed under edges and does not
hold the goal. -/
theorem closed_of_explore (fuel : Nat) (s : Search) (h : s.Closing g goal)
    (hf : g.work s < fuel) (he : g.explore goal fuel s = none) :
    ∃ met : List Key, (∀ k ∈ s.visited, k ∈ met) ∧ goal ∉ met ∧
      ∀ k ∈ met, ∀ j, g.Edge k j → j ∈ met := by
  induction fuel generalizing s with
  | zero => omega
  | succ fuel ih =>
    obtain ⟨stack, visited, reached⟩ := s
    cases stack with
    | nil =>
      refine ⟨visited, fun _ hk => hk, fun hg => ?_, fun k hk => ?_⟩
      · exact (h.dropped goal hg List.not_mem_nil).1 rfl
      · exact (h.dropped k hk List.not_mem_nil).2
    | cons node rest =>
      rw [explore] at he
      by_cases hn : node = goal
      · simp [hn] at he
      · simp only [hn, if_false] at he
        -- one key leaves the stack, and whatever is put there has not been met before
        have less :
            g.work (Search.meet ⟨rest, visited, reached⟩ node (g.targets node).keys) < fuel := by
          have := work_meet g ⟨rest, visited, reached⟩ node _ fun k hk => mem_awaited (a := node) hk
          simp only [work, List.length_cons] at this hf ⊢
          omega
        obtain ⟨met, hmet, hgoal, hclosed⟩ := ih _ (h.meet hn fun _ hj => hj) less he
        exact ⟨met, fun k hk => hmet k ((mem_visited_meet _ _ _ _).2 (.inl hk)), hgoal, hclosed⟩

theorem work_start (g : WaitGraph) (a : Key) : g.work ⟨[a], [a], .empty⟩ < g.bound := by
  have fewer := List.length_filter_le (fun k => !([a] : List Key).contains k) g.awaited
  rw [← length_awaited]
  simp only [work, List.length_singleton]
  omega

theorem not_reachable_of_findPath {a b : Key} (h : g.findPath a b = none) :
    ¬ ReflTransGen g.Edge a b := by
  have start : Search.Closing g b ⟨[a], [a], .empty⟩ := by
    constructor
    · exact fun k hk => hk
    · exact fun k hk hs => absurd hk hs
  have none := Option.map_eq_none_iff.1 h
  obtain ⟨met, hmet, hb, hclosed⟩ := closed_of_explore g.bound _ start (work_start g a) none
  -- the keys met hold `a` and are closed, so they hold all that is reachable from it
  have all : ∀ k, ReflTransGen g.Edge a k → k ∈ met := by
    intro k path
    induction path with
    | refl => exact hmet a (List.mem_singleton.2 rfl)
    | tail _ hj ih => exact hclosed _ ih _ hj
  exact fun path => hb (all b path)

/-- A wait that is not refused goes against no path. -/
theorem not_reachable_of_cycleThrough {a b : Key} (h : g.cycleThrough a b = none) :
    ¬ ReflTransGen g.Edge b a := by
  unfold cycleThrough at h
  by_cases hab : a = b
  · simp [hab] at h
  · rw [if_neg hab] at h
    exact not_reachable_of_findPath (Option.map_eq_none_iff.1 h)

/-- What holds of a graph however waits begin that are not refused, and however waits end. -/
structure Stable (P : WaitGraph → Prop) : Prop where
  add : ∀ {g a b}, P g → g.cycleThrough a b = none → P (g.add a b)
  remove : ∀ {g} a b, P g → P (g.remove a b)

theorem stable_tight : Stable Tight where
  add h _ := h.add _ _
  remove a b h := h.remove a b

theorem stable_acyclic : Stable Acyclic where
  add h hc := h.add (not_reachable_of_cycleThrough hc)
  remove a b h := h.remove a b

theorem exists_cycle_of_path {a b : Key} (h : ReflTransGen g.Edge b a) :
    ∃ cycle, g.cycleThrough a b = some cycle := by
  by_contra hn
  exact not_reachable_of_cycleThrough (Option.eq_none_iff_forall_not_mem.2 fun c hc => hn ⟨c, hc⟩) h

/-! The search finds no path that is not there -/

/-- All that a search holds can be reached from where it began, and so can the goal once it is found.
-/
theorem reachable_of_explore {start : Key} {fuel : Nat} {s : Search} {reached : OrderedMap Key Key}
    (h : ∀ k ∈ s.stack, ReflTransGen g.Edge start k)
    (he : g.explore goal fuel s = some reached) : ReflTransGen g.Edge start goal := by
  induction fuel generalizing s with
  | zero => cases he
  | succ fuel ih =>
    obtain ⟨stack, visited, known⟩ := s
    cases stack with
    | nil => cases he
    | cons node rest =>
      have here : ReflTransGen g.Edge start node := h node List.mem_cons_self
      rw [explore] at he
      by_cases hn : node = goal
      · exact hn ▸ here
      · simp only [hn, if_false] at he
        refine ih (fun k hk => ?_) he
        rcases (mem_stack_meet _ _ _ _).1 hk with hk | ⟨hk, -⟩
        · exact h k (List.mem_cons_of_mem _ hk)
        · exact here.tail hk

theorem reachable_of_findPath {a b : Key} {path : List Key} (h : g.findPath a b = some path) :
    ReflTransGen g.Edge a b := by
  obtain ⟨reached, he, -⟩ := Option.map_eq_some_iff.1 h
  refine reachable_of_explore (fun k hk => ?_) he
  rw [List.mem_singleton.1 hk]

/-- A wait is refused exactly when it would go against a path. -/
theorem cycleThrough_isSome_iff {a b : Key} :
    (g.cycleThrough a b).isSome ↔ ReflTransGen g.Edge b a := by
  constructor
  · intro h
    obtain ⟨cycle, hc⟩ := Option.isSome_iff_exists.1 h
    unfold cycleThrough at hc
    by_cases hab : a = b
    · rw [hab]
    · rw [if_neg hab] at hc
      obtain ⟨path, hp, -⟩ := Option.map_eq_some_iff.1 hc
      exact reachable_of_findPath hp
  · exact fun path => Option.isSome_iff_exists.2 (exists_cycle_of_path path)

end ScopedEffects.WaitGraph
