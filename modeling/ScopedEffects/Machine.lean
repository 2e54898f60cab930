import ScopedEffects.Execution.Move

/-! The machine: an execution, the store it works on, and alarms that fire signals from outside. Time
stands still while the execution can move. When it cannot, the alarms that are due fire; when none is
due either, the clock goes straight to the next instant at which something happens. User code that goes
on outside the execution it belongs to has no place here, nor has the time that a move itself takes. -/

namespace ScopedEffects

/-- A signal to be fired at an instant. -/
structure Alarm where
  instant : Clock
  signal : Signal
  deriving DecidableEq, Repr

structure Machine (H : Host) where
  store : Store H
  execution : Execution H
  alarms : List Alarm := []

/-- How a run of the machine ended. -/
inductive Ending where
  | settled
  /-- Nothing can move and no timer is pending. -/
  | stuck
  /-- The allowed time or number of moves is used up. -/
  | unfinished
  deriving DecidableEq, Repr

namespace Machine

variable {H : Host}

/-- Fires the alarms that are due. -/
def ring (m : Machine H) : Machine H :=
  let due := m.alarms.filter fun a => a.instant ≤ m.store.now
  { m with
    store := m.store.fireAll (due.map Alarm.signal)
    alarms := m.alarms.filter fun a => m.store.now < a.instant }

def alarmDue (m : Machine H) : Bool := m.alarms.any fun a => a.instant ≤ m.store.now

/-- The next instant after the present at which something happens. -/
def nextInstant? (m : Machine H) : Option Clock :=
  ((m.execution.deadlines m.store ++ m.alarms.map Alarm.instant).filter (m.store.now < ·)).min?

/-- The policy of the next move: a poll begins with it unless the latest one goes on. -/
def polling (policy : Policy) (m : Machine H) : Policy :=
  { policy with anew := !m.execution.going { policy with anew := false } 0 m.store }

/-- One move of the machine: of the execution, of an alarm, or of the clock. -/
def move? [Tracing H] (policy : Policy) (m : Machine H) : Option (Machine H) :=
  match m.execution.move (m.polling policy) 0 m.store with
  | some (e, s) => some { m with execution := e, store := s }
  | none =>
    if m.alarmDue then some m.ring
    else m.nextInstant?.map fun t => { m with store := { m.store with now := t } }

/-- Runs the machine until its execution has ended, for a number of moves and up to an instant. The
schedule has a policy for each move. -/
def run [Tracing H] (schedule : Schedule) (horizon : Clock) : Nat → Machine H → Ending × Machine H
  | 0, m => (.unfinished, m)
  | fuel + 1, m =>
    if m.execution.ended then (.settled, m)
    else if horizon < m.store.now then (.unfinished, m)
    else
      match m.move? (schedule 0) with
      | some m => run (schedule.after 1) horizon fuel m
      | none => (.stuck, m)

end Machine

end ScopedEffects
