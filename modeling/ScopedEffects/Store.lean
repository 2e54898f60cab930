import ScopedEffects.Provider
import ScopedEffects.Task
import ScopedEffects.WaitGraph

/-! What all executions share: the clock, the state of user code, the signals that have fired, and
the contexts. A context caches one resolution for each key that its provider binds. It lives as long
as someone holds it, or as long as the context below it lives, which keeps the layers opened over
it. -/

namespace ScopedEffects

/-- The one resolution of a key in a context: its factory is under way, or has settled. -/
inductive Slot (H : Host) where
  | running (task : Task H)
  | settled (outcome : Except (Failure H) (AnyInstance H))

structure Context (H : Host) where
  provider : Provider H
  signal : Signal
  slots : OrderedMap Key (Slot H) := .empty
  waiting : WaitGraph := {}
  /-- How many handles of the context are held. -/
  handles : Nat := 0

structure Store (H : Host) where
  now : Clock := 0
  user : H.State
  fired : List Signal := []
  /-- Numbers of signals and of base contexts that are still free. -/
  signals : Supply := {}
  bases : Supply := {}
  contexts : OrderedMap Scope (Context H) := .empty
  /-- The trace, the latest event first. -/
  trace : List Event := []
  /-- The random draws to come, each between minus one and one. Without one, zero is drawn. -/
  draws : List Binary64 := []

namespace Store

variable {H : Host}

def record (s : Store H) (e : Event) : Store H := { s with trace := e :: s.trace }

/-! Signals -/

/-- Has the signal, or one it descends from, been fired? -/
def isFired (s : Store H) (g : Signal) : Bool := s.fired.any g.descendsFrom

def fire (s : Store H) (g : Signal) : Store H :=
  if s.isFired g then s else { s with fired := g :: s.fired }

def fireAll (s : Store H) (gs : List Signal) : Store H := gs.foldl fire s

/-- A new signal that descends from no other. -/
def newSignal (s : Store H) : Signal × Store H :=
  let (n, rest) := fresh.run s.signals
  (.root n, { s with signals := rest })

/-- A new signal that fires with `g`. -/
def childSignal (s : Store H) (g : Signal) : Signal × Store H :=
  let (n, rest) := fresh.run s.signals
  (g.child n, { s with signals := rest })

/-- Runs synchronous code. -/
def perform {α : Type} (s : Store H) (c : Code H α) : Except Panic α × Store H :=
  let r := c s.now s.user
  (r.answer, { s with user := r.state }.fireAll r.fired)

/-! Contexts -/

def context? (s : Store H) (c : Scope) : Option (Context H) := s.contexts.get? c

def changeContext (s : Store H) (c : Scope) (f : Context H → Context H) : Store H :=
  { s with contexts := s.contexts.modify c f }

/-- A fresh context over a provider, with one handle. -/
def openBase (s : Store H) (p : Provider H) (g : Signal) : Scope × Store H :=
  let (n, rest) := fresh.run s.bases
  let scope : Scope := ⟨n, []⟩
  (scope, { s with
    bases := rest
    contexts := s.contexts.set scope { provider := p, signal := g, handles := 1 } })

def retain (s : Store H) (c : Scope) : Store H :=
  s.changeContext c fun x => { x with handles := x.handles + 1 }

def release (s : Store H) (c : Scope) : Store H :=
  s.changeContext c fun x => { x with handles := x.handles - 1 }

/-- Is the context held, or kept by a context below it that lives? -/
def livesAt (s : Store H) (base : Nat) : List Nat → Bool
  | [] => held []
  | p :: below => held (p :: below) || (s.context? ⟨base, p :: below⟩).isSome && livesAt s base below
where
  held (layers : List Nat) : Bool :=
    match s.context? ⟨base, layers⟩ with
    | some c => 0 < c.handles
    | none => false

def lives (s : Store H) (c : Scope) : Bool := s.livesAt c.base c.layers

/-- The context of a provider layered over `c`. One provider opens one layer over a context. -/
def layer (s : Store H) (c : Scope) (p : Provider H) : Scope × Store H :=
  let scope := c.push p.identity
  match s.context? scope, s.context? c with
  | none, some below =>
    let opened := s.record (.openingLayer p.keys)
    (scope, { opened with
      contexts := opened.contexts.set scope { provider := p, signal := below.signal } })
  | _, _ => (scope, s)

/-- How many layers have been opened directly over a context. -/
def layerCount (s : Store H) (c : Scope) : Nat :=
  (s.contexts.keys.filter fun k => k.parent? = some c).length

/-- Is the key bound in the context or in one below it? -/
def providesAt (s : Store H) (base : Nat) (key : Key) : List Nat → Bool
  | [] => bound []
  | p :: below => bound (p :: below) || (s.livesAt base below && providesAt s base key below)
where
  bound (layers : List Nat) : Bool :=
    match s.context? ⟨base, layers⟩ with
    | some c => c.provider.contains key
    | none => false

def provides (s : Store H) (c : Scope) (key : Key) : Bool := s.providesAt c.base key c.layers

/-- The context in words: its provider, whether it is a layer, and the layers opened over it. -/
def describe (s : Store H) (c : Scope) : String :=
  match s.context? c with
  | none => ""
  | some x => Text.record "Context" [("provider", x.provider.describe),
      ("layered", toString c.parent?.isSome), ("layers", toString (s.layerCount c))]

def slot? (s : Store H) (c : Scope) (key : Key) : Option (Slot H) :=
  (s.context? c).bind fun x => x.slots.get? key

def setSlot (s : Store H) (c : Scope) (key : Key) (slot : Slot H) : Store H :=
  s.changeContext c fun x => { x with slots := x.slots.set key slot }

/-- How many resolutions the contexts hold. -/
def slotCount (s : Store H) : Nat := s.contexts.values.foldr (fun c n => c.slots.size + n) 0

end Store

end ScopedEffects
