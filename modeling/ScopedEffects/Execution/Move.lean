import ScopedEffects.Execution.Crew
import ScopedEffects.Execution.Resume

/-! How executions move. One move enters a node, moves a task, goes on with a step, or lets a
combinator take in or absorb a branch. An execution that cannot move waits for time to pass or for a
signal. -/

namespace ScopedEffects

variable {H : Host}

namespace Execution

mutual

/-- Can the execution move? -/
def ready (s : Store H) : Execution H → Bool
  | enter .. => true
  | task guard t =>
    t.ended || t.canMove s ||
      match guard with
      | .signal g => s.isFired g
      | _ => false
  | pause till env .. => s.isFired env.signal || till ≤ s.now
  | frame _ f above => above.ended || above.ready s || f.expired s.now
  | crew env c _ branches =>
    branches.isEmpty || branches.panic?.isSome || branches.exit?.isSome ||
      (c.next? env branches.length).isSome || !(readyBranches s branches).isEmpty
  | settled _ | unwound _ => false

/-- The branches that can move. -/
def readyBranches (s : Store H) : Branches H → List Nat
  | .nil => []
  | .cons i e rest => if e.ready s then i :: readyBranches s rest else readyBranches s rest

end

mutual

/-- Does the poll that has reached the execution let it go on? The branch of a crew that was asked last
goes on as its own poll lets it. The poll asks others that can move, and that one again, until it has
asked as many branches as there are, or the crew yields. -/
def going (policy : Policy) (depth : Nat) (s : Store H) : Execution H → Bool
  | enter .. => true
  | task guard t =>
    t.ended || t.goesOn policy.anew s ||
      match guard with
      | .signal g => s.isFired g
      | _ => false
  | pause till env .. => s.isFired env.signal || till ≤ s.now
  | frame _ f above => above.ended || above.going policy (depth + 1) s || f.expired s.now
  | crew env c round branches =>
    let polled := round.polled policy.anew s.now
    let asks := fun i => policy.anew || !polled.isEmpty || round.asked.head? != some i
    branches.isEmpty || branches.panic?.isSome || branches.exit?.isSome ||
      (c.next? env branches.length).isSome ||
      (round.asked.head?.any fun i => branchGoing policy (depth + 1) s i branches) ||
      ((readyBranches s branches).any asks && polled.length < branches.length &&
        (polled.isEmpty || !policy.yields depth))
  | settled _ | unwound _ => false

/-- Does the poll let the branch with the given index go on? -/
def branchGoing (policy : Policy) (depth : Nat) (s : Store H) (index : Nat) : Branches H → Bool
  | .nil => false
  | .cons i e rest =>
    if i = index then e.going policy depth s else branchGoing policy depth s index rest

end

/-- One move of a task under a guard. -/
def moveTask (policy : Policy) (depth : Nat) (s : Store H) (guard : Guard) (t : Task H) :
    Option (Execution H × Store H) :=
  match t.outcome? with
  | some (.ok exit) => some (settled exit, s)
  | some (.error p) =>
    match guard with
    | .bare => some (unwound p, s)
    | _ => some (ofPanic p, s)
  | none =>
    if guard.interrupts s (t.goesOn policy.anew s) then some (settled (.error .aborted), t.drop s)
    else if t.canMove s then (t.step policy depth s).map fun (t, s) => (task guard t, s)
    else none

/-- What a crew does by itself, before any of its branches moves. -/
def moveCrew (s : Store H) (env : Env) (c : Crew H) (round : Round) (branches : Branches H) :
    Option (Execution H × Store H) :=
  match branches.panic?, branches.exit?, c.next? env branches.length with
  | some p, _, _ => some (ofPanic p, branches.drop s)
  | none, some (i, exit), _ =>
    let (c, s) := c.absorb i exit s
    some (crew env c round.restart (branches.erase i), s)
  | none, none, some (i, n, c) =>
    some (crew env c (round.enqueue (readyBranches s branches) i) (branches.push i (enter n env)), s)
  | none, none, none => if branches.isEmpty then some (settled (c.conclude env s), s) else none

mutual

/-- One move of an execution. A timeout whose time is over ends once the poll has let the execution
above it go on. -/
def move [Tracing H] (policy : Policy) (depth : Nat) (s : Store H) :
    Execution H → Option (Execution H × Store H)
  | enter node env => some (start env s node)
  | task guard t => moveTask policy depth s guard t
  | pause till env inner policy attempt =>
    if s.isFired env.signal then some (settled (.error .aborted), s)
    else if till ≤ s.now then
      some (frame env (.retry inner policy attempt) (enter inner env), s)
    else none
  | frame env f above =>
    match above.exit?, above.panic? with
    | some exit, _ => some (f.resume env exit s)
    | none, some p => some (unwound p, s)
    | none, none =>
      if f.expired s.now && !above.going policy (depth + 1) s then f.expire env above s
      else
        (above.move policy (depth + 1) s).map fun (above, s) => (frame env f above, s)
  | crew env c round branches =>
    match moveCrew s env c round branches with
    | some moved => some moved
    | none =>
      let line := refill round.queue (readyBranches s branches)
      match policy.choose depth line with
      | none => none
      | some i =>
        let goes := branchGoing policy (depth + 1) s i branches
        (moveBranch (round.toward policy goes i) (depth + 1) s i branches).map fun (branches, s') =>
          let stays := branchGoing { policy with anew := false } (depth + 1) s' i branches
          (crew env c
            { round.ask policy.anew s.now [] goes i with
              queue := requeue line (readyBranches s' branches) stays i } branches, s')
  | settled _ | unwound _ => none

/-- One move of the branch with the given index. -/
def moveBranch [Tracing H] (policy : Policy) (depth : Nat) (s : Store H) (index : Nat) :
    Branches H → Option (Branches H × Store H)
  | .nil => none
  | .cons i e rest =>
    if i = index then (e.move policy depth s).map fun (e, s) => (.cons i e rest, s)
    else (moveBranch policy depth s index rest).map fun (rest, s) => (.cons i e rest, s)

end

mutual

/-- The instants at which a timer fires that the execution waits for. -/
def deadlines (s : Store H) : Execution H → List Clock
  | task _ t => t.deadlines s
  | pause till .. => [till]
  | frame _ f above => f.timers ++ above.deadlines s
  | crew _ _ _ branches => branchDeadlines s branches
  | _ => []

def branchDeadlines (s : Store H) : Branches H → List Clock
  | .nil => []
  | .cons _ e rest => e.deadlines s ++ branchDeadlines s rest

end

end Execution

end ScopedEffects
