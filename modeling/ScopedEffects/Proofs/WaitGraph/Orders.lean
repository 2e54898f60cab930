import ScopedEffects.Proofs.WaitGraph.Paths

/-! Searches in any order. A search goes round by round, and in each round it may meet the awaited
keys of one key in whatever order they are listed. Every such search ends, with a route exactly when
there is one, and what it knows of the keys it met leads back to its start without a gap. -/

namespace ScopedEffects.WaitGraph

open Relation

variable {g : WaitGraph} {start goal : Key} {s s' : Search}

namespace Search

def initial (start : Key) : Search := ⟨[start], [start], .empty⟩

/-- One round of the search for `goal`: the latest key is looked at, and the keys that it waits on
are met in some order. -/
inductive Round (g : WaitGraph) (goal : Key) : Search → Search → Prop
  | look {node rest visited reached ks} (other : node ≠ goal)
      (all : ks.Perm (g.targets node).keys) :
      Round g goal ⟨node :: rest, visited, reached⟩ (meet ⟨rest, visited, reached⟩ node ks)

end Search

/-- Going back from `k` to the start, every key on the way is known to have been reached from another.
The keys passed stand in front of the given path. -/
inductive Retraced (reached : OrderedMap Key Key) (start : Key) :
    Key → List Key → List Key → Prop
  | arrives {path} : Retraced reached start start path path
  | back {k previous path whole} (other : k ≠ start) (known : reached.get? k = some previous)
      (rest : Retraced reached start previous (previous :: path) whole) :
      Retraced reached start k path whole

/-- What a search comes back with, when it has its goal before it or nothing left to look at. -/
inductive Search.Ends (start goal : Key) : Search → Option (List Key) → Prop
  | found {rest visited reached path} (back : Retraced reached start goal [goal] path) :
      Ends start goal ⟨goal :: rest, visited, reached⟩ (some path)
  | exhausted {visited reached} : Ends start goal ⟨[], visited, reached⟩ none

/-- What a search may come back with, in some order. -/
def Finds (g : WaitGraph) (start goal : Key) (answer : Option (List Key)) : Prop :=
  ∃ s, ReflTransGen (Search.Round g goal) (.initial start) s ∧ s.Ends start goal answer

/-- The cycle that a request of `waiting` for `awaited` may be told to close, in some order. -/
inductive Closes (g : WaitGraph) (waiting awaited : Key) : Option (List Key) → Prop
  | self (same : waiting = awaited) : Closes g waiting awaited (some [awaited, awaited])
  | search {answer} (other : waiting ≠ awaited) (finds : g.Finds awaited waiting answer) :
      Closes g waiting awaited (answer.map (· ++ [awaited]))

/-! Rounds -/

theorem work_round (h : Search.Round g goal s s') : g.work s' < g.work s := by
  obtain ⟨-, all⟩ := h
  rename_i node rest visited reached ks
  have no_more : g.work (Search.meet ⟨rest, visited, reached⟩ node ks) ≤
      g.work ⟨rest, visited, reached⟩ :=
    work_meet g _ node ks fun k hk => mem_awaited (a := node) (all.mem_iff.1 hk)
  simp only [work, List.length_cons] at no_more ⊢
  omega

/-- However the keys are met, a search ends. -/
theorem wellFounded_round (g : WaitGraph) (goal : Key) :
    WellFounded fun s' s => Search.Round g goal s s' :=
  Subrelation.wf (fun h => work_round h) (measure g.work).wf

theorem Search.Rooted.round (h : s.Rooted g start) (step : Search.Round g goal s s') :
    s'.Rooted g start := by
  obtain ⟨-, all⟩ := step
  rename_i node rest visited reached ks
  have dropped : Search.Rooted g start ⟨rest, visited, reached⟩ :=
    ⟨fun k hk => h.held k (List.mem_cons_of_mem _ hk), h.route⟩
  exact dropped.meet (h.held node List.mem_cons_self) fun k hk => all.mem_iff.1 hk

theorem Search.Closing.round (h : s.Closing g goal) (step : Search.Round g goal s s') :
    s'.Closing g goal := by
  obtain ⟨other, all⟩ := step
  exact h.meet other fun j hj => all.mem_iff.2 hj

theorem Search.Round.visited (step : Search.Round g goal s s') {k : Key} (hk : k ∈ s.visited) :
    k ∈ s'.visited := by
  obtain ⟨-, -⟩ := step
  exact (mem_visited_meet ..).2 (.inl hk)

/-- What holds of a search that has begun at `start`, whatever it has met so far. -/
structure Search.Sound (g : WaitGraph) (start goal : Key) (s : Search) : Prop where
  rooted : s.Rooted g start
  closing : s.Closing g goal
  visited : start ∈ s.visited

theorem sound_of_rounds (run : ReflTransGen (Search.Round g goal) (.initial start) s) :
    s.Sound g start goal := by
  induction run with
  | refl =>
    refine ⟨Search.rooted_start g start, ⟨fun k hk => hk, fun k hk hs => absurd hk hs⟩, ?_⟩
    exact List.mem_singleton_self start
  | tail _ step ih => exact ⟨ih.rooted.round step, ih.closing.round step, step.visited ih.visited⟩

/-! Going back -/

theorem Retraced.unique {reached : OrderedMap Key Key} {k : Key} {path whole whole' : List Key}
    (h : Retraced reached start k path whole) (h' : Retraced reached start k path whole') :
    whole = whole' := by
  induction h with
  | arrives =>
    cases h' with
    | arrives => rfl
    | back other => exact absurd rfl other
  | back other known _ ih =>
    cases h' with
    | arrives => exact absurd rfl other
    | back _ known' rest' =>
      rw [known] at known'
      cases known'
      exact ih rest'

/-- A route along the keys that were reached is retraced from its end. -/
theorem Route.retraced {reached : OrderedMap Key Key} {k : Key} {front : List Key}
    (h : Route (g.Found reached) start k (front ++ [k])) (rest : List Key) :
    Retraced reached start k (k :: rest) (front ++ k :: rest) := by
  induction hn : front.length generalizing k front rest with
  | zero =>
    cases List.eq_nil_of_length_eq_zero hn
    obtain rfl : k = start := Option.some.inj h.first
    exact .arrives
  | succ n ih =>
    have other : k ≠ start := by
      rintro rfl
      rw [h.front_eq_nil] at hn
      cases hn
    obtain ⟨previous, front', rfl, step, before⟩ := h.last_step other
    have shorter : front'.length = n := by simpa using hn
    refine .back other step.2 ?_
    simpa using ih before (k :: rest) shorter

/-- A search with its goal before it knows a route there, and goes back along it. -/
theorem Search.Sound.exists_route {rest visited : List Key} {reached : OrderedMap Key Key}
    (h : Search.Sound g start goal ⟨goal :: rest, visited, reached⟩) :
    ∃ path, Route g.Edge start goal path ∧ Retraced reached start goal [goal] path := by
  obtain ⟨path, route, -⟩ := h.rooted.route goal (h.rooted.held goal List.mem_cons_self)
  obtain ⟨front, rfl⟩ := route.exists_front
  exact ⟨_, route.mono fun x _ y _ found => found.1, route.retraced []⟩

/-! Ends of searches -/

theorem Route.reachable {r : Key → Key → Prop} {a b : Key} {path : List Key}
    (h : Route r a b path) : ReflTransGen r a b := by
  obtain ⟨rest, rfl⟩ : ∃ rest, path = a :: rest := List.head?_eq_some_iff.1 h.first
  refine List.relationReflTransGen_of_exists_isChain_cons rest h.chain ?_
  exact List.getLast_of_mem_getLast? h.last

/-- A search that has nothing left to look at has met all keys that can be reached, and its goal is
none of them. -/
theorem Search.Sound.not_reachable {visited : List Key} {reached : OrderedMap Key Key}
    (h : Search.Sound g start goal ⟨[], visited, reached⟩) : ¬ ReflTransGen g.Edge start goal := by
  have met : ∀ k, ReflTransGen g.Edge start k → k ∈ visited := by
    intro k path
    induction path with
    | refl => exact h.visited
    | tail _ edge ih => exact (h.closing.dropped _ ih List.not_mem_nil).2 _ edge
  exact fun path => (h.closing.dropped goal (met goal path) List.not_mem_nil).1 rfl

theorem Finds.right {answer : Option (List Key)} (h : g.Finds start goal answer) :
    (answer.isSome = true ↔ ReflTransGen g.Edge start goal) ∧
      ∀ path, answer = some path → Route g.Edge start goal path := by
  obtain ⟨s, run, ends⟩ := h
  have sound := sound_of_rounds run
  cases ends with
  | found back =>
    obtain ⟨path, route, retraced⟩ := sound.exists_route
    cases back.unique retraced
    exact ⟨iff_of_true rfl route.reachable, fun path same => Option.some.inj same ▸ route⟩
  | exhausted => exact ⟨iff_of_false Bool.false_ne_true sound.not_reachable, nofun⟩

/-- A search goes on to its next round, or it ends. -/
theorem round_or_ends (run : ReflTransGen (Search.Round g goal) (.initial start) s) :
    (∃ s', Search.Round g goal s s') ∨ ∃ answer, s.Ends start goal answer := by
  have sound := sound_of_rounds run
  obtain ⟨stack, visited, reached⟩ := s
  cases stack with
  | nil => exact .inr ⟨none, .exhausted⟩
  | cons node rest =>
    by_cases here : node = goal
    · subst here
      obtain ⟨path, -, retraced⟩ := sound.exists_route
      exact .inr ⟨some path, .found retraced⟩
    · exact .inl ⟨_, .look here (.refl _)⟩

/-! The search in the order of the edges -/

/-- The search in the order in which edges are kept goes round by round. -/
theorem rounds_of_explore (goal : Key) {fuel : Nat} (enough : g.work s < fuel) :
    ∃ s', ReflTransGen (Search.Round g goal) s s' ∧
      ((∃ rest, s'.stack = goal :: rest ∧ g.explore goal fuel s = some s'.reached) ∨
        s'.stack = [] ∧ g.explore goal fuel s = none) := by
  induction fuel generalizing s with
  | zero => exact absurd enough (Nat.not_lt_zero _)
  | succ fuel ih =>
    obtain ⟨stack, visited, reached⟩ := s
    cases stack with
    | nil => exact ⟨_, .refl, .inr ⟨rfl, rfl⟩⟩
    | cons node rest =>
      rw [explore]
      by_cases here : node = goal
      · simp only [here, if_true]
        exact ⟨_, .refl, .inl ⟨rest, rfl, rfl⟩⟩
      · have round : Search.Round g goal ⟨node :: rest, visited, reached⟩ _ := .look here (.refl _)
        have less := work_round round
        obtain ⟨s', run, ends⟩ := ih (less.trans_le (Nat.le_of_lt_succ enough))
        simp only [here, if_false]
        exact ⟨s', run.head round, ends⟩

theorem finds_findPath (g : WaitGraph) (a b : Key) : g.Finds a b (g.findPath a b) := by
  obtain ⟨⟨stack, visited, reached⟩, run, ends⟩ := rounds_of_explore b (work_start g a)
  have sound := sound_of_rounds run
  refine ⟨_, run, ?_⟩
  unfold findPath
  rcases ends with ⟨rest, same, explored⟩ | ⟨same, explored⟩
  · cases same
    rw [explored, Option.map_some]
    obtain ⟨path, route, -⟩ := sound.rooted.route b (sound.rooted.held b List.mem_cons_self)
    obtain ⟨front, rfl⟩ := route.exists_front
    rw [follow_bound route]
    exact .found (route.retraced [])
  · cases same
    rw [explored, Option.map_none]
    exact .exhausted

/-! Cycles -/

/-- One more wait is on a cycle exactly when it goes against a path. -/
theorem reachable_add_iff {a b : Key} :
    ReflTransGen (g.add a b).Edge b a ↔ ReflTransGen g.Edge b a := by
  constructor
  · intro h
    rcases reflTransGen_iff_eq_or_transGen.1 h with rfl | path
    · exact .refl
    · rcases path_add path with path | ⟨path, -⟩
      · exact path.to_reflTransGen
      · exact path
  · exact fun path => path.lift id fun x y edge => edge_add.2 (.inl edge)

theorem closes_cycleThrough (g : WaitGraph) (waiting awaited : Key) :
    g.Closes waiting awaited (g.cycleThrough waiting awaited) := by
  unfold cycleThrough
  by_cases same : waiting = awaited
  · rw [if_pos same]
    exact .self same
  · rw [if_neg same]
    exact .search same (finds_findPath g awaited waiting)

theorem Closes.right {waiting awaited : Key} {cycle : Option (List Key)}
    (h : g.Closes waiting awaited cycle) :
    (cycle.isSome = true ↔ ReflTransGen (g.add waiting awaited).Edge awaited waiting) ∧
      ∀ keys, cycle = some keys →
        ∃ path, keys = path ++ [awaited] ∧ Route g.Edge awaited waiting path := by
  rw [reachable_add_iff]
  cases h with
  | self same =>
    subst same
    refine ⟨iff_of_true rfl .refl, fun keys named => ?_⟩
    cases named
    exact ⟨[waiting], rfl, .single waiting⟩
  | search _ finds =>
    obtain ⟨reaches, routes⟩ := finds.right
    refine ⟨by rw [Option.isSome_map, reaches], fun keys named => ?_⟩
    obtain ⟨path, found, rfl⟩ := Option.map_eq_some_iff.1 named
    exact ⟨path, rfl, routes path found⟩

/-- In whatever order the search meets the keys of a graph, it ends after finitely many rounds, and
never without an answer: it finds a way back from its goal to its start over the keys it has reached.
The answer is a route exactly when the goal can be reached, and it leads from the start to the goal
along edges and passes no key twice. A request is told of a cycle exactly when its wait would be on
one, and the cycle leads from the awaited key along edges to the waiting one, and back. The search in
the order of the edges is one of these. -/
theorem search_finds_routes_in_any_order (g : WaitGraph) (a b : Key) :
    (WellFounded fun s' s => Search.Round g b s s') ∧
    (∀ s, ReflTransGen (Search.Round g b) (.initial a) s →
      (∃ s', Search.Round g b s s') ∨ ∃ answer, s.Ends a b answer) ∧
    (∀ answer, g.Finds a b answer →
      (answer.isSome = true ↔ ReflTransGen g.Edge a b) ∧
      ∀ path, answer = some path → Route g.Edge a b path) ∧
    g.Finds a b (g.findPath a b) ∧
    (∀ cycle, g.Closes a b cycle →
      (cycle.isSome = true ↔ ReflTransGen (g.add a b).Edge b a) ∧
      ∀ keys, cycle = some keys → ∃ path, keys = path ++ [b] ∧ Route g.Edge b a path) ∧
    g.Closes a b (g.cycleThrough a b) :=
  ⟨wellFounded_round g b, fun _ run => round_or_ends run, fun _ finds => finds.right,
    finds_findPath g a b, fun _ closes => closes.right, closes_cycleThrough g a b⟩

end ScopedEffects.WaitGraph
