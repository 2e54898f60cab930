import ScopedEffects.Proofs.WaitGraph.Search

/-! The path that a search comes back with. Each key that was met is the end of a route from the start
along the keys it was reached from, and the keys of a route have all been met; so a key that is met
for the first time prolongs a route by a key that is not on it. Going back from the goal therefore
visits no key twice, and gets to the start. -/

namespace ScopedEffects.WaitGraph

/-- A way from `a` to `b`, both included, that passes no key twice. -/
structure Route (r : Key → Key → Prop) (a b : Key) (path : List Key) : Prop where
  first : path.head? = some a
  last : path.getLast? = some b
  distinct : path.Nodup
  chain : path.IsChain r

namespace Route

variable {r r' : Key → Key → Prop} {a b c : Key} {path : List Key}

theorem single (a : Key) : Route r a a [a] := ⟨rfl, rfl, List.nodup_singleton a, .singleton a⟩

theorem mono (h : Route r a b path) (hr : ∀ x ∈ path, ∀ y ∈ path, r x y → r' x y) :
    Route r' a b path := by
  refine ⟨h.first, h.last, h.distinct, ?_⟩
  exact h.chain.imp_of_mem_imp fun x y hx hy => hr x hx y hy

theorem exists_front (h : Route r a b path) : ∃ front, path = front ++ [b] :=
  ⟨_, (List.dropLast_append_getLast? b h.last).symm⟩

theorem snoc (h : Route r a b path) (hr : r b c) (new : c ∉ path) :
    Route r a c (path ++ [c]) := by
  obtain ⟨front, rfl⟩ := h.exists_front
  constructor
  · rw [List.head?_append_of_ne_nil _ (by simp), h.first]
  · exact List.getLast?_concat
  · exact List.nodup_append.2 ⟨h.distinct, List.nodup_singleton c, fun x hx y hy => by
      rintro rfl
      exact new (List.mem_singleton.1 hy ▸ hx)⟩
  · refine h.chain.append (.singleton c) fun x hx y hy => ?_
    rw [h.last] at hx
    cases hx
    cases hy
    exact hr

/-- A route that ends where it starts is at its end from the start. -/
theorem front_eq_nil {front : List Key} (h : Route r a a (front ++ [a])) : front = [] := by
  cases front with
  | nil => rfl
  | cons x rest =>
    have first := h.first
    cases first
    have twice : a ∉ rest ++ [a] := (List.nodup_cons.1 h.distinct).1
    exact absurd (List.mem_append_right _ (List.mem_singleton_self a)) twice

/-- The last step of a route. -/
theorem last_step {front : List Key} (h : Route r a b (front ++ [b])) (hab : b ≠ a) :
    ∃ p front', front = front' ++ [p] ∧ r p b ∧ Route r a p (front' ++ [p]) := by
  rcases List.eq_nil_or_concat front with rfl | ⟨front', p, rfl⟩
  · have first := h.first
    cases first
    exact absurd rfl hab
  · rw [List.concat_eq_append] at h ⊢
    obtain ⟨chain, -, joint⟩ := List.isChain_append.1 h.chain
    refine ⟨p, front', rfl, joint p List.getLast?_concat b rfl, ?_, List.getLast?_concat, ?_, chain⟩
    · have first := h.first
      rwa [List.head?_append_of_ne_nil _ (by simp)] at first
    · exact (List.nodup_append.1 h.distinct).1

/-- All keys of a route but its first are led to. -/
theorem length_le (h : Route r a b path) (keys : List Key) (hr : ∀ x y, r x y → y ∈ keys) :
    path.length ≤ keys.length + 1 := by
  have within : ∀ x ∈ path, x ∈ a :: keys := by
    intro x hx
    obtain ⟨rest, rfl⟩ : ∃ rest, path = a :: rest := List.head?_eq_some_iff.1 h.first
    rcases List.mem_cons.1 hx with rfl | hx
    · exact List.mem_cons_self
    · obtain ⟨i, hi, rfl⟩ := List.mem_iff_getElem.1 hx
      have step := List.isChain_iff_getElem.1 h.chain i (by simpa using hi)
      exact List.mem_cons_of_mem _ (hr _ _ step)
  have fewer := (List.subperm_of_subset h.distinct within).length_le
  simpa using fewer

end Route

variable {g : WaitGraph} {goal start : Key}

/-- A step of a search from one key to the next: along an edge, and the way it was reached. -/
def Found (g : WaitGraph) (reached : OrderedMap Key Key) (a b : Key) : Prop :=
  g.Edge a b ∧ reached.get? b = some a

/-- Every key that was met is the end of a route from the start, on keys that were met. -/
structure Search.Rooted (g : WaitGraph) (start : Key) (s : Search) : Prop where
  held : ∀ k ∈ s.stack, k ∈ s.visited
  route : ∀ k ∈ s.visited, ∃ path, Route (g.Found s.reached) start k path ∧
    ∀ j ∈ path, j ∈ s.visited

theorem Search.rooted_start (g : WaitGraph) (start : Key) :
    Search.Rooted g start ⟨[start], [start], .empty⟩ := by
  constructor
  · exact fun k hk => hk
  · intro k hk
    rw [List.mem_singleton.1 hk]
    exact ⟨[start], .single start, fun j hj => hj⟩

theorem Search.Rooted.meet {s : Search} {node : Key} {ks : List Key} (h : s.Rooted g start)
    (hn : node ∈ s.visited) (hk : ∀ k ∈ ks, g.Edge node k) : (s.meet node ks).Rooted g start := by
  induction ks generalizing s with
  | nil => exact h
  | cons j rest ih =>
    have edges : ∀ k ∈ rest, g.Edge node k := fun k hr => hk k (List.mem_cons_of_mem _ hr)
    rw [Search.meet]
    split
    · exact ih h hn edges
    · rename_i new
      have new : j ∉ s.visited := by simpa using new
      refine ih ⟨?_, ?_⟩ (List.mem_cons_of_mem _ hn) edges
      · intro k hs
        rcases List.mem_cons.1 hs with rfl | hs
        · exact List.mem_cons_self
        · exact List.mem_cons_of_mem _ (h.held k hs)
      -- the routes there are keep to keys other than `j`, so they are still there
      have kept {k : Key} {path : List Key} (route : Route (g.Found s.reached) start k path)
          (met : ∀ i ∈ path, i ∈ s.visited) :
          Route (g.Found (s.reached.set j node)) start k path := by
        refine route.mono fun x _ y hy found => ⟨found.1, ?_⟩
        have other : y ≠ j := fun same => new (same ▸ met y hy)
        rw [OrderedMap.get?_set, if_neg other]
        exact found.2
      intro k hs
      rcases List.mem_cons.1 hs with rfl | hs
      · obtain ⟨path, route, met⟩ := h.route node hn
        have last : g.Found (s.reached.set k node) node k :=
          ⟨hk k List.mem_cons_self, by rw [OrderedMap.get?_set, if_pos rfl]⟩
        refine ⟨path ++ [k], (kept route met).snoc last fun hp => new (met k hp), fun i hi => ?_⟩
        rcases List.mem_append.1 hi with hi | hi
        · exact List.mem_cons_of_mem _ (met i hi)
        · exact List.mem_cons.2 (.inl (List.mem_singleton.1 hi))
      · obtain ⟨path, route, met⟩ := h.route k hs
        exact ⟨path, kept route met, fun i hi => List.mem_cons_of_mem _ (met i hi)⟩

/-- A search that finds its goal knows a route to it. -/
theorem exists_route_of_explore {fuel : Nat} {s : Search} {reached : OrderedMap Key Key}
    (h : s.Rooted g start) (he : g.explore goal fuel s = some reached) :
    ∃ path, Route (g.Found reached) start goal path := by
  induction fuel generalizing s with
  | zero => cases he
  | succ fuel ih =>
    obtain ⟨stack, visited, known⟩ := s
    cases stack with
    | nil => cases he
    | cons node rest =>
      rw [explore] at he
      have here : node ∈ visited := h.held node List.mem_cons_self
      by_cases hn : node = goal
      · simp only [hn, if_true] at he
        cases he
        obtain ⟨path, route, -⟩ := h.route node here
        exact ⟨path, hn ▸ route⟩
      · simp only [hn, if_false] at he
        have dropped : Search.Rooted g start ⟨rest, visited, known⟩ :=
          ⟨fun k hk => h.held k (List.mem_cons_of_mem _ hk), h.route⟩
        exact ih (dropped.meet here fun k hk => hk) he

/-- Going back along the way a key was reached retraces its route. -/
theorem follow_eq {reached : OrderedMap Key Key} {fuel : Nat} {k : Key} {front : List Key}
    (h : Route (g.Found reached) start k (front ++ [k])) (hf : front.length < fuel)
    (rest : List Key) : follow reached start fuel k (k :: rest) = front ++ k :: rest := by
  induction fuel generalizing k front rest with
  | zero => omega
  | succ fuel ih =>
    rw [follow]
    by_cases hk : k = start
    · subst hk
      rw [if_pos rfl, h.front_eq_nil]
      rfl
    · obtain ⟨p, front', rfl, step, before⟩ := h.last_step hk
      have shorter : front'.length < fuel := by
        rw [List.length_append, List.length_singleton] at hf
        omega
      simp only [if_neg hk, step.2]
      rw [ih before shorter, List.append_assoc]
      rfl

/-- A route passes fewer keys than the number of steps that are taken back. -/
theorem follow_bound {reached : OrderedMap Key Key} {front : List Key}
    (h : Route (g.Found reached) start goal (front ++ [goal])) :
    follow reached start g.bound goal [goal] = front ++ [goal] := by
  have short := h.length_le g.awaited fun x y found => mem_awaited found.1
  rw [List.length_append, List.length_singleton] at short
  have enough : front.length < g.bound := by
    rw [← length_awaited]
    omega
  exact follow_eq h enough []

/-- The path that is found leads from its start to its goal along edges, and passes no key twice. -/
theorem route_of_findPath {a b : Key} {path : List Key} (h : g.findPath a b = some path) :
    Route g.Edge a b path := by
  obtain ⟨reached, he, rfl⟩ := Option.map_eq_some_iff.1 h
  obtain ⟨path, route⟩ := exists_route_of_explore (Search.rooted_start g a) he
  obtain ⟨front, rfl⟩ := route.exists_front
  rw [follow_bound route]
  exact route.mono fun x _ y _ found => found.1

/-- The cycle that a refusal names is a route from the awaited key to the waiting one, and the awaited
key once more. -/
theorem route_of_cycleThrough {a b : Key} {cycle : List Key}
    (h : g.cycleThrough a b = some cycle) : ∃ path, cycle = path ++ [b] ∧ Route g.Edge b a path := by
  unfold cycleThrough at h
  by_cases hab : a = b
  · subst hab
    rw [if_pos rfl] at h
    cases h
    exact ⟨[a], rfl, .single a⟩
  · rw [if_neg hab] at h
    obtain ⟨path, hp, rfl⟩ := Option.map_eq_some_iff.1 h
    exact ⟨path, rfl, route_of_findPath hp⟩

end ScopedEffects.WaitGraph
