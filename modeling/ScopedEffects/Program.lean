import ScopedEffects.Trace
import ScopedEffects.Value

/-! User code. Synchronous code sees the clock and the state that all user code shares, and answers
or panics. A program is asynchronous user code, given as a tree: each node is one thing that the
program does or waits for, with the rest of the program as a function of what comes back. A program
settles like an effect, with a value or a failure, or it panics. -/

namespace ScopedEffects

/-- The time, in milliseconds. -/
abbrev Clock := Nat

/-- What synchronous code leaves behind: the shared state, the signals it fires, and an answer. -/
structure Reply (H : Host) (α : Type) where
  state : H.State
  fired : List Signal
  answer : Except Panic α

abbrev Code (H : Host) (α : Type) := Clock → H.State → Reply H α

namespace Reply

variable {H : Host} {α β : Type}

def map (f : α → β) (r : Reply H α) : Reply H β := ⟨r.state, r.fired, r.answer.map f⟩

end Reply

namespace Code

variable {H : Host} {α β : Type}

/-- Code that only answers. -/
def pure (a : α) : Code H α := fun _ s => ⟨s, [], .ok a⟩

def panic (p : Panic) : Code H α := fun _ s => ⟨s, [], .error p⟩

def map (f : α → β) (c : Code H α) : Code H β := fun now s => (c now s).map f

/-- Code that runs after other code, on its answer. -/
def bind (c : Code H α) (f : α → Code H β) : Code H β := fun now s =>
  let r := c now s
  match r.answer with
  | .error p => ⟨r.state, r.fired, .error p⟩
  | .ok a =>
    let t := f a now r.state
    ⟨t.state, r.fired ++ t.fired, t.answer⟩

/-- Code on the value of a step, at the shape that the step expects. -/
def onValue (a : Shape H.Plain) (v : Value H) (fail : Failure H → α) (f : a.El H → Code H α) :
    Code H α :=
  match v.take a with
  | .ok x => f x
  | .error e => pure (fail e)

end Code

/-- What a factory is handed while it makes the instance of `key`. -/
structure Resolver where
  scope : Scope
  signal : Signal
  key : Key
  deriving DecidableEq, Repr

def Resolver.describe (r : Resolver) : String := Text.record "Resolver" [("key", Text.quote r.key)]

/-- Through what an instance is requested: a context that is held, or a resolver that may have
outlived its context. -/
inductive Access where
  | context (scope : Scope)
  | resolver (r : Resolver)
  deriving DecidableEq, Repr

inductive Program (H : Host) where
  /-- Settles. -/
  | done (exit : Exit H)
  | panic (p : Panic)
  /-- Changes the shared state and goes on with what it saw before the change. -/
  | act (update : Clock → H.State → H.State) (next : Clock → H.State → Program H)
  | fire (signal : Signal) (next : Program H)
  | isFired (signal : Signal) (next : Bool → Program H)
  /-- Writes to the trace. -/
  | record (event : Event) (next : Program H)
  | sleep (duration : Duration) (next : Program H)
  /-- Waits until the signal has fired. -/
  | awaitSignal (signal : Signal) (next : Program H)
  /-- Waits for the instance bound to a key. -/
  | get (via : Access) (key : Key) (next : Except (Failure H) (AnyInstance H) → Program H)
  /-- Runs two programs side by side and waits for both. -/
  | both (left right : Program H) (next : Exit H → Exit H → Program H)
  /-- Runs two programs side by side until one settles, and drops the other. The flag says that the
  right one has settled. -/
  | first (left right : Program H) (next : Bool → Exit H → Program H)

namespace Program

variable {H : Host}

/-- A program that goes on after another has settled. -/
def bind (k : Exit H → Program H) : Program H → Program H
  | .done e => k e
  | .panic p => .panic p
  | .act u next => .act u fun now s => bind k (next now s)
  | .fire g next => .fire g (bind k next)
  | .isFired g next => .isFired g fun b => bind k (next b)
  | .record e next => .record e (bind k next)
  | .sleep d next => .sleep d (bind k next)
  | .awaitSignal g next => .awaitSignal g (bind k next)
  | .get via key next => .get via key fun r => bind k (next r)
  | .both l r next => .both l r fun a b => bind k (next a b)
  | .first l r next => .first l r fun side e => bind k (next side e)

/-- Synchronous code as a program that does not wait. -/
def ofCode (c : Code H (Program H)) : Program H :=
  .act (fun now s => (c now s).state) fun now s =>
    let r := c now s
    let rest := match r.answer with
      | .ok p => p
      | .error p => .panic p
    r.fired.foldr .fire rest

/-- Requests an instance at the kind of a token. -/
def getAs (via : Access) (t : Token H)
    (next : Except (Failure H) (Instance H t.kind) → Program H) : Program H :=
  .get via t.key fun r => next (r.bind t.view)

end Program

end ScopedEffects
