import ScopedEffects.Effect.Node

/-! Effects: lazy descriptions of computations that produce a value of a known shape or fail. Building
an effect runs nothing. Each operation returns a new effect on top of the given one, and keeps the
set of keys that a provider has to bind before the effect can run. -/

namespace ScopedEffects

structure Effect (H : Host) (a : Shape H.Plain) where
  node : Node H
  requires : KeySet

namespace Effect

variable {H : Host} {a b : Shape H.Plain}

/-! Sources -/

def succeed (x : a.El H) : Effect H a := ⟨.sync (Code.pure (.ok ⟨a, x⟩)), .empty⟩

def fail (f : Failure H) : Effect H a := ⟨.sync (Code.pure (.error f)), .empty⟩

/-- Synchronous code, run anew each time. -/
def sync (code : Code H (Except (Failure H) (a.El H))) : Effect H a :=
  ⟨.sync (code.map fun r => r.map (⟨a, ·⟩)), .empty⟩

/-- A program of the shape `a`; when the signal fires it is abandoned. -/
def ofProgram (code : Code H (Program H)) : Effect H a := ⟨.program code, .empty⟩

/-- A program that is told the signal and winds down by itself. -/
def cancellable (code : Signal → Code H (Program H)) : Effect H a := ⟨.cancellable code, .empty⟩

/-- Builds the effect only when it runs. -/
def suspend (code : Code H (Effect H a)) : Effect H a := ⟨.suspend (code.map Effect.node), .empty⟩

def sleep (d : Duration) : Effect H .unit :=
  ofProgram (.pure (.sleep d (.done (.ok ⟨.unit, ()⟩))))

/-- The instance bound to a token. -/
def service (t : Token H) : Effect H (.shared t.kind) := ⟨.service t, .singleton t.key⟩

/-! Combinators -/

/-- The keys that some of the effects require. -/
def requirementsOf (es : List (Effect H a)) : KeySet := .unions (es.map Effect.requires)

/-- All values, in the order of the effects; at most `cap` effects run at a time. -/
def gather (cap : Option Nat) (es : List (Effect H a)) : Effect H (.list a) :=
  ⟨.all cap (Value.takeAll a) (es.map Effect.node), requirementsOf es⟩

def all (es : List (Effect H a)) : Effect H (.list a) := gather none es

/-- Building fails when no effect may run. -/
def allWithConcurrency (es : List (Effect H a)) (cap : Nat) : Except Panic (Effect H (.list a)) :=
  if cap = 0 then .error (.text "Effect::all concurrency must be at least 1")
  else .ok (gather (some cap) es)

/-- The first value; building fails when there is no effect. -/
def any (es : List (Effect H a)) : Except Panic (Effect H a) :=
  if es.isEmpty then .error (.text "Effect::any needs at least one effect")
  else .ok ⟨.any (es.map Effect.node), requirementsOf es⟩

/-- The first settlement; building fails when there is no effect. -/
def race (es : List (Effect H a)) : Except Panic (Effect H a) :=
  if es.isEmpty then .error (.text "Effect::race needs at least one effect")
  else .ok ⟨.race (es.map Effect.node), requirementsOf es⟩

/-! Continuations after a value -/

def map (e : Effect H a) (f : a.El H → Code H (b.El H)) : Effect H b :=
  ⟨.map e.node fun v => Code.onValue a v .fail fun x => (f x).map fun y => .value ⟨b, y⟩, e.requires⟩

def tryMap (e : Effect H a) (f : a.El H → Code H (Except (Failure H) (b.El H))) : Effect H b :=
  ⟨.map e.node fun v => Code.onValue a v .fail fun x => (f x).map fun
    | .ok y => .value ⟨b, y⟩
    | .error g => .fail g, e.requires⟩

/-- Goes on with a program of the shape `b`. -/
def thenProgram (e : Effect H a) (f : a.El H → Code H (Program H)) : Effect H b :=
  ⟨.map e.node fun v => Code.onValue a v .fail fun x => (f x).map .program, e.requires⟩

def andThen (e : Effect H a) (f : a.El H → Code H (Effect H b)) : Effect H b :=
  ⟨.map e.node fun v => Code.onValue a v .fail fun x => (f x).map fun g => .effect g.node,
    e.requires⟩

/-- Pairs the value with the instance bound to a token. -/
def zipService (e : Effect H a) (t : Token H) : Effect H (.pair a (.shared t.kind)) :=
  ⟨.withService e.node t fun v => (v.take a).map fun x i => ⟨.pair a (.shared t.kind), (x, i)⟩,
    e.requires.insert t.key⟩

/-- Goes on with the instance bound to a token. -/
def withService (e : Effect H a) (t : Token H)
    (f : a.El H → Instance H t.kind → Code H (Effect H b)) : Effect H b :=
  (e.zipService t).andThen fun p => f p.1 p.2

/-! Continuations after a failure -/

/-- Recovers from failures that are no defects; the handler may decline. -/
def recover (e : Effect H a) (handler : Failure H → Code H (Option (Effect H a))) : Effect H a :=
  ⟨.recover e.node fun f => (handler f).map (Option.map Effect.node), e.requires⟩

def catchAll (e : Effect H a) (handler : Failure H → Code H (Effect H a)) : Effect H a :=
  e.recover fun f => (handler f).map some

/-- Recovers from failures of one key. -/
def catchKey (e : Effect H a) (key : Key) (handler : Failure H → Code H (Effect H a)) :
    Effect H a :=
  e.recover fun f => if f.key = key then (handler f).map some else .pure none

/-- Recovers from domain failures of one family. -/
def catchTag (e : Effect H a) (tag : FailureTag H) (handler : H.El tag.type → Code H (Effect H a)) :
    Effect H a :=
  e.recover fun f =>
    match tag.payload? f with
    | some p => (handler p).map some
    | none => .pure none

/-! Side effects -/

/-- Runs an effect after a success. Its value is dropped; its failure replaces the value. -/
def tap (e : Effect H a) (f : a.El H → Code H (Effect H b)) : Effect H a :=
  ⟨.tap e.node fun v =>
    match v.at? a with
    | some x => (f x).map fun g => .ok g.node
    | none => Code.pure (.error (.ofMessage ("tap expected a value of type " ++ H.shapeName a))),
    e.requires⟩

/-- Runs an effect after any failure. -/
def tapError (e : Effect H a) (f : Failure H → Code H (Effect H b)) : Effect H a :=
  ⟨.tapError e.node fun g => (f g).map Effect.node, e.requires⟩

/-- Runs an effect exactly once when `e` settles. -/
def ensuring (e : Effect H a) (f : Code H (Effect H b)) : Effect H a :=
  ⟨.ensuring e.node (f.map Effect.node), e.requires⟩

/-! Scheduling -/

def timeout (e : Effect H a) (after : Duration) : Effect H a :=
  ⟨.timeout e.node after none, e.requires⟩

/-- Settles with a fallback when the time is over. -/
def timeoutOr (e : Effect H a) (after : Duration) (fallback : Effect H a) : Effect H a :=
  ⟨.timeout e.node after (some fallback.node), e.requires.union fallback.requires⟩

def retry (e : Effect H a) (policy : RetryPolicy H) : Effect H a :=
  ⟨.retry e.node policy, e.requires⟩

/-! Environment -/

/-- Layers a provider over the context for this effect alone. -/
def provide (e : Effect H a) (p : Provider H) : Effect H a :=
  ⟨.provide e.node p, e.requires.filter fun k => !p.contains k⟩

/-- Runs the effect inside a span of the tracer that is bound. -/
def span (e : Effect H a) (name : String) (attributes : List (String × String)) : Effect H a :=
  ⟨.span e.node name attributes, e.requires.insert (Token.tracer H).key⟩

def describe (e : Effect H a) : String :=
  Text.record "Effect" [("output", Text.quote (H.shapeName a)),
    ("requires", Text.quoteSet e.requires.toList)]

end Effect

end ScopedEffects
