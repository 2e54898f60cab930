import ScopedEffects.Resolution

/-! How tasks move. One move of a task starts or ends one thing that its program does, or moves what
the task waits for: whoever waits for a resolution drives its factory's task, and finds it where the
last one left it. A resolution that is being driven is not driven again from within. A task that
cannot move is blocked until time passes or a signal fires. A task that can move may still have to wait
for the next poll: when one of its sides wakes another that the poll has already asked. -/

namespace ScopedEffects

namespace Task

variable {H : Host}

/-- Can the task move? `slotReady` says so of the resolution that a request waits for. -/
def ready (s : Store H) (slotReady : Wait → Bool) : Task H → Bool
  | run (.done _) => false
  | run (.panic _) => false
  | run _ => true
  | sleeping till _ => till ≤ s.now
  | watching g _ => s.isFired g
  | waiting w _ => slotReady w
  | both l r _ _ =>
    l.panic?.isSome || r.panic?.isSome || (l.ended && r.ended) ||
      l.ready s slotReady || r.ready s slotReady
  | first l r _ _ => l.ended || r.ended || l.ready s slotReady || r.ready s slotReady

/-- One step of a program, other than one that has ended. -/
def advance (s : Store H) : Program H → Option (Task H × Store H)
  | .done _ => none
  | .panic _ => none
  | .act update next => some (run (next s.now s.user), { s with user := update s.now s.user })
  | .fire g next => some (run next, s.fire g)
  | .isFired g next => some (run (next (s.isFired g)), s)
  | .record e next => some (run next, s.record e)
  | .sleep d next => some (sleeping (s.now + d.ticks) next, s)
  | .awaitSignal g next => some (watching g next, s)
  | .get via key next =>
    match s.request via key with
    | (.refused f, s) => some (run (next (.error f)), s)
    | (.waiting w, s) => some (waiting w next, s)
  | .both l r next => some (both (run l) (run r) {} next, s)
  | .first l r next => some (first (run l) (run r) {} next, s)

/-- Does the poll that has reached the task let it go on? A poll asks the left side first and each side
once; `anew` says that it begins. `slotGoing` says so of the resolution that a request waits for. -/
def going (anew : Bool) (s : Store H) (slotReady slotGoing : Wait → Bool) : Task H → Bool
  | run (.done _) => false
  | run (.panic _) => false
  | run _ => true
  | sleeping till _ => till ≤ s.now
  | watching g _ => s.isFired g
  | waiting w _ => slotGoing w
  | both l r poll _ =>
    l.panic?.isSome || r.panic?.isSome || (l.ended && r.ended) ||
      poll.admits anew s.now 0 (l.ready s slotReady) (l.going anew s slotReady slotGoing) ||
      poll.admits anew s.now 1 (r.ready s slotReady) (r.going anew s slotReady slotGoing)
  | first l r poll _ =>
    l.ended || r.ended ||
      poll.admits anew s.now 0 (l.ready s slotReady) (l.going anew s slotReady slotGoing) ||
      poll.admits anew s.now 1 (r.ready s slotReady) (r.going anew s slotReady slotGoing)

/-- How the resolutions that requests wait for are driven. -/
structure Driving (H : Host) where
  ready : Store H → Wait → Bool
  going : Bool → Store H → Wait → Bool
  move : Policy → Nat → Wait → Store H → Option (Store H)

/-- Does the poll that has reached the side of a task let it go on? -/
def Driving.lets (d : Driving H) (anew : Bool) (s : Store H) (t : Task H) : Bool :=
  t.going anew s (d.ready s) (d.going anew s)

/-- The numbers of the two sides, as far as each is wanted. -/
def sides (left right : Bool) : List Nat := (if left then [0] else []) ++ (if right then [1] else [])

/-- The sides that move next: those that the poll lets go on, or any that can move when it is over. -/
def line (anew : Bool) (s : Store H) (d : Driving H) (poll : Poll) (left right : Task H) : List Nat :=
  let admitted := sides
    (poll.admits anew s.now 0 (left.ready s (d.ready s)) (d.lets anew s left))
    (poll.admits anew s.now 1 (right.ready s (d.ready s)) (d.lets anew s right))
  if admitted.isEmpty then sides (left.ready s (d.ready s)) (right.ready s (d.ready s)) else admitted

/-- The left side, when a poll has passed it because it cannot move. -/
def missed (anew : Bool) (s : Store H) (d : Driving H) (poll : Poll) (left : Task H) : List Nat :=
  if (poll.polled anew s.now).contains 0 || left.ready s (d.ready s) then [] else [0]

/-- One move of a task. -/
def move (policy : Policy) (d : Driving H) (depth : Nat) (s : Store H) :
    Task H → Option (Task H × Store H)
  | run p => advance s p
  | sleeping till next => if till ≤ s.now then some (run next, s) else none
  | watching g next => if s.isFired g then some (run next, s) else none
  | waiting w next =>
    match s.answer? w with
    | some o => some (run (next o), s.finishWait w)
    | none => (d.move policy (depth + 1) w s).map fun s => (waiting w next, s)
  | both l r poll next =>
    match l.panic?, r.panic?, l.exit?, r.exit? with
    | some p, _, _, _ => some (run (.panic p), r.drop s)
    | _, some p, _, _ => some (run (.panic p), l.drop s)
    | _, _, some a, some b => some (run (next a b), s)
    | _, _, _, _ =>
      let anew := policy.anew
      match policy.choose depth (line anew s d poll l r) with
      | some 0 =>
        let goes := d.lets anew s l
        (l.move (poll.toward policy goes 0) d (depth + 1) s).map fun (l, s') =>
          (both l r (poll.ask anew s.now [] goes 0) next, s')
      | some _ =>
        let goes := d.lets anew s r
        (r.move (poll.toward policy goes 1) d (depth + 1) s).map fun (r, s') =>
          (both l r (poll.ask anew s.now (missed anew s d poll l) goes 1) next, s')
      | none => none
  | first l r poll next =>
    match l.outcome?, r.outcome? with
    | some (.ok e), _ => some (run (next false e), r.drop s)
    | some (.error p), _ => some (run (.panic p), r.drop s)
    | none, some (.ok e) => some (run (next true e), l.drop s)
    | none, some (.error p) => some (run (.panic p), l.drop s)
    | none, none =>
      let anew := policy.anew
      match policy.choose depth (line anew s d poll l r) with
      | some 0 =>
        let goes := d.lets anew s l
        (l.move (poll.toward policy goes 0) d (depth + 1) s).map fun (l, s') =>
          (first l r (poll.ask anew s.now [] goes 0) next, s')
      | some _ =>
        let goes := d.lets anew s r
        (r.move (poll.toward policy goes 1) d (depth + 1) s).map fun (r, s') =>
          (first l r (poll.ask anew s.now (missed anew s d poll l) goes 1) next, s')
      | none => none

end Task

namespace Store

variable {H : Host}

/-- Can the resolution that a request waits for move, or has it settled? Those in `busy` are being
driven already. The number bounds how many resolutions are followed from one to the next. -/
def slotReady : Nat → List Place → Store H → Wait → Bool
  | 0, _, _, _ => false
  | fuel + 1, busy, s, w =>
    match s.slot? w.scope w.key with
    | none => false
    | some (.settled _) => true
    | some (.running t) =>
      !busy.contains w.place && (t.ended || t.ready s (slotReady fuel (w.place :: busy) s))

/-- Does the poll that has reached the resolution let it go on, or has it settled? -/
def slotGoing : Nat → List Place → Bool → Store H → Wait → Bool
  | 0, _, _, _, _ => false
  | fuel + 1, busy, anew, s, w =>
    match s.slot? w.scope w.key with
    | none => false
    | some (.settled _) => true
    | some (.running t) =>
      let line := w.place :: busy
      !busy.contains w.place &&
        (t.ended || t.going anew s (slotReady fuel line s) (slotGoing fuel line anew s))

/-- One move of the resolution that a request waits for. -/
def moveSlot : Nat → List Place → Policy → Nat → Wait → Store H → Option (Store H)
  | 0, _, _, _, _, _ => none
  | fuel + 1, busy, policy, depth, w, s =>
    if busy.contains w.place then none
    else
      match s.slot? w.scope w.key with
      | some (.running t) =>
        match t.outcome? with
        | some o => some (s.setSlot w.scope w.key (.settled (s.slotOutcome w o)))
        | none =>
          let line := w.place :: busy
          (t.move policy ⟨slotReady fuel line, slotGoing fuel line, moveSlot fuel line⟩ depth s).map
            fun (t, s) => s.setSlot w.scope w.key (.running t)
      | _ => none

/-- More than the number of resolutions that can wait on one another. -/
def chase (s : Store H) : Nat := s.slotCount + 1

/-- The instants at which a timer fires that a task waits for, through other resolutions too. -/
def timersOf : Nat → Store H → Task H → List Clock
  | 0, _, t => t.timers
  | fuel + 1, s, t =>
    t.timers ++ t.waits.flatMap fun w =>
      match s.slot? w.scope w.key with
      | some (.running u) => timersOf fuel s u
      | _ => []

end Store

namespace Task

variable {H : Host}

/-- How the resolutions are driven that the tasks of a store wait for. -/
def driving (s : Store H) : Driving H :=
  ⟨Store.slotReady s.chase [], Store.slotGoing s.chase [], Store.moveSlot s.chase []⟩

/-- Can the task move? -/
def canMove (t : Task H) (s : Store H) : Bool := t.ready s (s.slotReady s.chase [])

/-- Does the poll that has reached the task let it go on? -/
def goesOn (t : Task H) (anew : Bool) (s : Store H) : Bool := (driving s).lets anew s t

/-- One move of the task. -/
def step (policy : Policy) (depth : Nat) (t : Task H) (s : Store H) : Option (Task H × Store H) :=
  t.move policy (driving s) depth s

/-- The instants at which a timer fires that the task waits for. -/
def deadlines (t : Task H) (s : Store H) : List Clock := s.timersOf s.chase t

end Task

end ScopedEffects
