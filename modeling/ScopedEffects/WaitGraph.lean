import ScopedEffects.Data.OrderedMap
import ScopedEffects.Data.KeySet

/-! The waits of factories on keys. An edge `a → b` counts the requests for `b` that the factory of
`a` has under way. The reverse edges name for each key the keys that wait on it. A request that
would close a cycle is found by a depth-first search along the edges. -/

namespace ScopedEffects

structure WaitGraph where
  /-- For each waiting key, the keys it waits on, and by how many requests. -/
  edges : OrderedMap Key (OrderedMap Key Nat) := .empty
  /-- For each awaited key, the keys that wait on it. -/
  waiters : OrderedMap Key (List Key) := .empty

namespace WaitGraph

instance : Inhabited WaitGraph := ⟨{}⟩

/-- The keys that `a` waits on. -/
def targets (g : WaitGraph) (a : Key) : OrderedMap Key Nat := (g.edges.get? a).getD .empty

/-- How many requests of `a` for `b` are under way. -/
def count (g : WaitGraph) (a b : Key) : Nat := ((g.targets a).get? b).getD 0

def isEmpty (g : WaitGraph) : Bool := g.edges.isEmpty && g.waiters.isEmpty

/-- One more request of `a` for `b`. -/
def add (g : WaitGraph) (a b : Key) : WaitGraph :=
  let waiting := (g.waiters.get? b).getD []
  { edges := g.edges.set a ((g.targets a).set b (g.count a b + 1))
    waiters := g.waiters.set b (if waiting.contains a then waiting else waiting ++ [a]) }

/-- The awaited keys of one key when one wait on `b` is over. -/
def lessOne (targets : OrderedMap Key Nat) (b : Key) : OrderedMap Key Nat :=
  match targets.get? b with
  | none => targets
  | some n => if 1 < n then targets.set b (n - 1) else targets.erase b

/-- The reverse edges without that from `b` to `a`. -/
def withoutWaiter (waiters : OrderedMap Key (List Key)) (a b : Key) : OrderedMap Key (List Key) :=
  match waiters.get? b with
  | none => waiters
  | some waiting =>
    let rest := waiting.filter (· ≠ a)
    if rest.isEmpty then waiters.erase b else waiters.set b rest

/-- One request of `a` for `b` is over. Nothing changes when there was none. -/
def remove (g : WaitGraph) (a b : Key) : WaitGraph :=
  match (g.targets a).get? b with
  | none => g
  | some n =>
    let left := lessOne (g.targets a) b
    { edges := if left.isEmpty then g.edges.erase a else g.edges.set a left
      waiters := if 1 < n then g.waiters else withoutWaiter g.waiters a b }

/-- A search under way: the keys to look at, the latest first, and how each key that was met was
reached. -/
structure Search where
  stack : List Key
  visited : List Key
  reached : OrderedMap Key Key

/-- Meets the keys that `node` waits on. -/
def Search.meet (s : Search) (node : Key) : List Key → Search
  | [] => s
  | k :: rest =>
    if s.visited.contains k then s.meet node rest
    else Search.meet ⟨k :: s.stack, k :: s.visited, s.reached.set k node⟩ node rest

/-- The keys from `start` to the end of `path`, found by going back along `reached`. -/
def follow (reached : OrderedMap Key Key) (start : Key) : Nat → Key → List Key → List Key
  | 0, _, path => path
  | fuel + 1, current, path =>
    if current = start then path
    else
      match reached.get? current with
      | none => path
      | some previous => follow reached start fuel previous (previous :: path)

/-- The search for `goal`; it returns how the keys on the way were reached. -/
def explore (g : WaitGraph) (goal : Key) : Nat → Search → Option (OrderedMap Key Key)
  | 0, _ => none
  | fuel + 1, s =>
    match s.stack with
    | [] => none
    | node :: rest =>
      if node = goal then some s.reached
      else explore g goal fuel (Search.meet { s with stack := rest } node (g.targets node).keys)

/-- More steps than the search can take: each key is met once. -/
def bound (g : WaitGraph) : Nat := g.edges.values.foldr (fun t n => t.size + n) 2

/-- A path along the edges, from `start` to `goal`, both included. -/
def findPath (g : WaitGraph) (start goal : Key) : Option (List Key) :=
  (g.explore goal g.bound ⟨[start], [start], .empty⟩).map fun reached =>
    follow reached start g.bound goal [goal]

/-- The cycle that a request of `waiting` for `awaited` would close. It starts and ends at
`awaited`. -/
def cycleThrough (g : WaitGraph) (waiting awaited : Key) : Option (List Key) :=
  if waiting = awaited then some [awaited, awaited]
  else (g.findPath awaited waiting).map (· ++ [awaited])

example : (((({} : WaitGraph).add "A" "B").add "B" "C").add "A" "D").cycleThrough "C" "A" =
    some ["A", "B", "C", "A"] := by decide +kernel

end WaitGraph

end ScopedEffects
