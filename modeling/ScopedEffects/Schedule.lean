import ScopedEffects.Program

/-! How branches that run side by side take turns. A poll asks branches to go on, and each goes on until
it blocks or settles. A branch that another one wakes after it was asked waits for the next poll, or,
in a crew, for its next turn. -/

namespace ScopedEffects

/-- How the branches of a crew and the sides of a task take turns in a move. -/
structure Policy where
  /-- Picks one from the queue of those that can move, for each level of nested branches. -/
  pick : (depth : Nat) → (queue : List Nat) → Option Nat
  /-- Does a crew at this level end its poll although branches that can move are left? It does not
  before one of them has been asked. -/
  yields : (depth : Nat) → Bool := fun _ => false
  /-- Does a poll begin with the move? -/
  anew : Bool := false

namespace Policy

/-- The branch at the head of the queue moves, and a crew does not yield. Branches woken at one instant
go on in the order of their numbers; an executor that wakes them in another order follows another
policy. -/
def standard : Policy := { pick := fun _ queue => queue.head? }

/-- The branch that the policy picks, if it is one of the queue. -/
def choose (p : Policy) (depth : Nat) (queue : List Nat) : Option Nat :=
  (p.pick depth queue).filter queue.contains

theorem mem_of_choose {p : Policy} {depth i : Nat} {queue : List Nat}
    (h : p.choose depth queue = some i) : i ∈ queue := by
  have := (Option.filter_eq_some_iff.1 h).2
  simpa using this

end Policy

/-- A policy for each move of a run. -/
abbrev Schedule := (move : Nat) → Policy

namespace Schedule

/-- The standard policy in every move. -/
def standard : Schedule := fun _ => .standard

/-- The schedule of the moves after the first few. -/
def after (schedule : Schedule) (moves : Nat) : Schedule := fun t => schedule (t + moves)

theorem after_after (schedule : Schedule) (m n : Nat) :
    (schedule.after m).after n = schedule.after (n + m) :=
  funext fun t => congrArg schedule (Nat.add_assoc t n m)

end Schedule

/-- Which of several branches the latest poll has asked to go on. -/
structure Poll where
  /-- The instant of the poll. -/
  instant : Clock := 0
  /-- The branches that it has asked, the latest first. -/
  asked : List Nat := []

namespace Poll

/-- The branches that the present poll has asked. -/
def polled (q : Poll) (anew : Bool) (now : Clock) : List Nat :=
  if anew || q.instant != now then [] else q.asked

/-- Does a poll that asks each branch once let branch `i` go on? One that has been asked already goes on
while it is the latest. -/
def admits (q : Poll) (anew : Bool) (now : Clock) (i : Nat) (ready going : Bool) : Bool :=
  let polled := q.polled anew now
  if polled.contains i then polled.head? == some i && going else ready

/-- The poll when branch `i` has moved. Those of `missed` have been asked in vain before it. -/
def ask (q : Poll) (anew : Bool) (now : Clock) (missed : List Nat) (going : Bool) (i : Nat) : Poll :=
  let polled := q.polled anew now
  ⟨now, if polled.head? == some i && going then polled else i :: (missed ++ polled)⟩

/-- How branch `i` moves. A branch that the poll comes to begins a poll of its own. -/
def toward (q : Poll) (p : Policy) (going : Bool) (i : Nat) : Policy :=
  { p with anew := p.anew || q.asked.head? != some i || !going }

end Poll

/-- The turns of the branches of a crew. -/
structure Round extends Poll where
  /-- The branches in the order in which they go on. -/
  queue : List Nat := []

/-- The queue when the branches of `ready`, and no others, can move: those already queued go first, and
those that have become ready since follow in the order of their numbers. -/
def refill (queue ready : List Nat) : List Nat :=
  queue.filter ready.contains ++ ready.filter fun i => !queue.contains i

theorem mem_refill {queue ready : List Nat} {i : Nat} : i ∈ refill queue ready ↔ i ∈ ready := by
  simp only [refill, List.mem_append, List.mem_filter, List.contains_eq_mem, decide_eq_true_eq,
    Bool.not_eq_true', decide_eq_false_iff_not]
  by_cases h : i ∈ queue <;> simp [h]

/-- The queue after branch `i` has moved, when the branches of `ready`, and no others, can move. The
branch stays at the head while its turn goes on, and waits behind the others when it can move again. -/
def requeue (queue ready : List Nat) (going : Bool) (i : Nat) : List Nat :=
  let line := if going then i :: queue.erase i else queue.erase i ++ [i]
  line.filter ready.contains

namespace Round

/-- One more branch goes on behind those that can move. -/
def enqueue (r : Round) (ready : List Nat) (i : Nat) : Round :=
  { r with queue := refill r.queue ready ++ [i] }

/-- A branch has settled: a poll of the others begins. -/
def restart (r : Round) : Round := { r with asked := [] }

end Round

end ScopedEffects
