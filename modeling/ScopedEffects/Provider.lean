import ScopedEffects.Data.OrderedMap
import ScopedEffects.Program

/-! Providers: immutable, ordered registries of factories. Building a provider never calls a factory.
Every change makes a new provider with an identity of its own and leaves the old one as it was; a
merge with an empty provider changes nothing, and keeps the identity. -/

namespace ScopedEffects

/-- How the instance bound to a key comes about: it is there already, or a program makes it. -/
inductive Factory (H : Host) where
  | constant (i : AnyInstance H)
  | make (k : Kind H.Plain) (start : Resolver → Program H)

/-- The program that a factory runs for a resolver. -/
def Factory.program {H : Host} (r : Resolver) : Factory H → Program H
  | .constant i => .done (.ok ⟨.shared i.1, i.2⟩)
  | .make _ start => start r

/-- The instance that a factory's program settled with. -/
def Factory.instance {H : Host} (r : Resolver) :
    Factory H → Exit H → Except (Failure H) (AnyInstance H)
  | .constant i, _ => .ok i
  | .make k _, exit => do
    let v ← exit
    let x ← v.take (.bare k)
    return ⟨k, ⟨.made r.scope r.key, x⟩⟩

structure Provider (H : Host) where
  identity : Nat
  bindings : OrderedMap Key (Factory H)

namespace Provider

variable {H : Host}

/-- A provider that binds nothing. -/
def new : Fresh (Provider H) := return ⟨← fresh, .empty⟩

/-- Binds a key to a factory; a key that is bound keeps its place. -/
def bind (p : Provider H) (key : Key) (f : Factory H) : Fresh (Provider H) :=
  return ⟨← fresh, p.bindings.set key f⟩

/-- Binds a token to a constant. All contexts hand out the same instance. -/
def value (p : Provider H) (t : Token H) (x : t.kind.El H) : Fresh (Provider H) := do
  p.bind t.key (.constant ⟨t.kind, ⟨.constant (← fresh), x⟩⟩)

/-- Binds a token to a factory. -/
def provide (p : Provider H) (t : Token H) (start : Resolver → Program H) : Fresh (Provider H) :=
  p.bind t.key (.make t.kind start)

/-- Binds the tracer that spans use. -/
def tracer (p : Provider H) (t : TracerChoice H) : Fresh (Provider H) := p.value (.tracer H) t

/-- The bindings of both; where both bind a key, those of `other`. -/
def merge (p other : Provider H) : Fresh (Provider H) :=
  if other.bindings.isEmpty then return p
  else return ⟨← fresh, p.bindings.merge other.bindings⟩

/-- Only the listed keys. -/
def pick (p : Provider H) (keys : List Key) : Fresh (Provider H) :=
  return ⟨← fresh, p.bindings.filterKeys keys.contains⟩

/-- All but the listed keys. -/
def without (p : Provider H) (keys : List Key) : Fresh (Provider H) :=
  return ⟨← fresh, p.bindings.filterKeys fun k => !keys.contains k⟩

def contains (p : Provider H) (key : Key) : Bool := p.bindings.contains key

/-- The bound keys, in the order in which they were first bound. -/
def keys (p : Provider H) : List Key := p.bindings.keys

def factory? (p : Provider H) (key : Key) : Option (Factory H) := p.bindings.get? key

def describe (p : Provider H) : String := Text.record "Provider" [("keys", Text.quoteList p.keys)]

end Provider

end ScopedEffects
