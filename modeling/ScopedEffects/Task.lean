import ScopedEffects.Program
import ScopedEffects.Schedule

/-! Programs under way. A task is a program together with what it is waiting for at the moment. A
program that runs others side by side becomes a task with a task for each of them. -/

namespace ScopedEffects

/-- A request under way for the instance of `key`, served by the context `scope`. It counts as a wait
of the key `requester` when a factory of that same context made it. -/
structure Wait where
  scope : Scope
  key : Key
  requester : Option Key
  deriving DecidableEq, Repr

/-- The resolution that a request waits for. -/
def Wait.place (w : Wait) : Place := (w.scope, w.key)

inductive Task (H : Host) where
  | run (p : Program H)
  | sleeping (till : Clock) (next : Program H)
  | watching (signal : Signal) (next : Program H)
  | waiting (w : Wait) (next : Except (Failure H) (AnyInstance H) → Program H)
  | both (left right : Task H) (poll : Poll) (next : Exit H → Exit H → Program H)
  | first (left right : Task H) (poll : Poll) (next : Bool → Exit H → Program H)

namespace Task

variable {H : Host}

/-- How the task has ended: it settled, or it panicked. -/
def outcome? : Task H → Option (Except Panic (Exit H))
  | run (.done e) => some (.ok e)
  | run (.panic p) => some (.error p)
  | _ => none

def exit? (t : Task H) : Option (Exit H) :=
  match t.outcome? with
  | some (.ok e) => some e
  | _ => none

def panic? (t : Task H) : Option Panic :=
  match t.outcome? with
  | some (.error p) => some p
  | _ => none

def ended (t : Task H) : Bool := t.outcome?.isSome

/-- The requests that the task has under way. -/
def waits : Task H → List Wait
  | waiting w _ => [w]
  | both l r _ _ => l.waits ++ r.waits
  | first l r _ _ => l.waits ++ r.waits
  | _ => []

/-- The instants at which the task's timers fire. -/
def timers : Task H → List Clock
  | sleeping t _ => [t]
  | both l r _ _ => l.timers ++ r.timers
  | first l r _ _ => l.timers ++ r.timers
  | _ => []

end Task

end ScopedEffects
