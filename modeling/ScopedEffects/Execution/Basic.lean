import ScopedEffects.Effect.Node
import ScopedEffects.Progress

/-! Executions: effects under way. An execution is a tree. Its leaves are nodes about to be entered,
tasks of user code, and pauses between attempts; a frame is a step that waits for the execution above
it; a crew is a combinator with its branches. -/

namespace ScopedEffects

/-- What an execution runs in: the context that resolves its services, the signal that cancels it,
and the cap for combinators without one of their own. -/
structure Env where
  scope : Scope
  signal : Signal
  concurrency : Option Nat
  deriving DecidableEq, Repr, Inhabited

/-- What surrounds a task of user code. -/
inductive Guard where
  /-- The task is abandoned once the signal has fired, unless the poll lets it go on. A panic is a
  failure. -/
  | signal (g : Signal)
  /-- A panic is a failure. -/
  | caught
  /-- A panic goes on to the execution that waits. -/
  | bare
  deriving DecidableEq, Repr

/-- Is the task abandoned now? `going` says that the poll lets it go on. -/
def Guard.interrupts {H : Host} (s : Store H) (going : Bool) : Guard → Bool
  | signal g => s.isFired g && !going
  | _ => false

/-- A step that waits for the execution above it to settle. -/
inductive Frame (H : Host) where
  | map (code : Value H → Code H (Next H (Node H)))
  | withService (token : Token H)
      (pair : Value H → Except (Failure H) (Instance H token.kind → Value H))
  | recover (code : Failure H → Code H (Option (Node H)))
  | tap (code : Value H → Code H (Except (Failure H) (Node H)))
  /-- Waits for the effect that a tap runs. -/
  | tapped (v : Value H)
  | tapError (code : Failure H → Code H (Node H))
  | tapErrored (f : Failure H)
  | ensuring (code : Code H (Node H))
  /-- Waits for a finalizer, and then settles as the inner effect did. -/
  | ensured (exit : Exit H)
  | timeout (deadline : Clock) (after : Duration) (child : Signal) (fallback : Option (Node H))
  /-- The time is over: the cancelled inner effect is awaited, its exit is dropped. -/
  | draining (after : Duration) (fallback : Option (Node H))
  | retry (inner : Node H) (policy : RetryPolicy H) (attempt : Nat)
  /-- Waits for the tracer of a span. -/
  | acquire (inner : Node H) (name : String) (attributes : List (String × String))
  /-- Waits until the tracer lets the body of its span begin. -/
  | entered (inner : Node H) (tracer : TracerChoice H) (name : String)
  /-- Waits for the body of a span. -/
  | body (tracer : TracerChoice H) (name : String)

/-- What a combinator remembers of its branches. -/
inductive Crew (H : Host) where
  /-- The branches that are not admitted yet, the values so far, and the failure with the lowest
  index. -/
  | all (cap : Option Nat) (collect : List (Value H) → Exit H) (pending : List (Nat × Node H))
      (values : List (Option (Value H))) (failure : Option (Nat × Failure H))
  /-- The signal of the branches, their failures so far, and the first value. -/
  | any (child : Signal) (errors : List (Option (Failure H))) (won : Option (Value H))
  /-- The signal of the branches, and the first exit. -/
  | race (child : Signal) (won : Option (Exit H))

mutual

inductive Execution (H : Host) where
  | enter (node : Node H) (env : Env)
  | task (guard : Guard) (t : Task H)
  /-- The delay before another attempt. -/
  | pause (till : Clock) (env : Env) (inner : Node H) (policy : RetryPolicy H) (attempt : Nat)
  | frame (env : Env) (f : Frame H) (above : Execution H)
  | crew (env : Env) (c : Crew H) (round : Round) (branches : Branches H)
  | settled (exit : Exit H)
  /-- A panic that no step catches is on its way out. -/
  | unwound (p : Panic)

/-- Branches under way, with their indices. -/
inductive Branches (H : Host) where
  | nil
  | cons (index : Nat) (e : Execution H) (rest : Branches H)

end

namespace Execution

variable {H : Host}

def exit? : Execution H → Option (Exit H)
  | settled e => some e
  | _ => none

def panic? : Execution H → Option Panic
  | unwound p => some p
  | _ => none

/-- Has the execution settled or panicked? -/
def ended : Execution H → Bool
  | settled _ | unwound _ => true
  | _ => false

/-- An execution of a program that is abandoned when the signal fires. -/
def ofProgram (env : Env) (p : Program H) : Execution H := .task (.signal env.signal) (.run p)

def ofPanic (p : Panic) : Execution H := .settled (.error (.ofPanic p))

mutual

/-- The requests under way in an execution. -/
def waits : Execution H → List Wait
  | task _ t => t.waits
  | frame _ _ above => above.waits
  | crew _ _ _ branches => branchWaits branches
  | _ => []

def branchWaits : Branches H → List Wait
  | .nil => []
  | .cons _ e rest => e.waits ++ branchWaits rest

end

end Execution

namespace Branches

variable {H : Host}

def isEmpty : Branches H → Bool
  | nil => true
  | cons .. => false

def length : Branches H → Nat
  | nil => 0
  | cons _ _ rest => rest.length + 1

/-- The first branch that has panicked. -/
def panic? : Branches H → Option Panic
  | nil => none
  | cons _ e rest => e.panic?.or rest.panic?

/-- The first branch that has settled. -/
def exit? : Branches H → Option (Nat × Exit H)
  | nil => none
  | cons i e rest => (e.exit?.map (i, ·)).or rest.exit?

def erase (index : Nat) : Branches H → Branches H
  | nil => nil
  | cons i e rest => if i = index then rest else cons i e (rest.erase index)

/-- One more branch at the end. -/
def push (index : Nat) (e : Execution H) : Branches H → Branches H
  | nil => cons index e nil
  | cons i f rest => cons i f (rest.push index e)

/-- All branches of a list, from an index on, about to be entered. -/
def ofNodes (env : Env) : Nat → List (Node H) → Branches H
  | _, [] => nil
  | i, n :: rest => cons i (.enter n env) (ofNodes env (i + 1) rest)

end Branches

/-- Drops an execution: its requests are over, and nothing further of it happens. -/
def Execution.drop {H : Host} (e : Execution H) (s : Store H) : Store H :=
  e.waits.foldl Store.finishWait s

def Branches.drop {H : Host} (b : Branches H) (s : Store H) : Store H :=
  (Execution.branchWaits b).foldl Store.finishWait s

end ScopedEffects
