import ScopedEffects.Data.KeySet

/-! Identities. A signal is identified by its lineage, so that a signal descends from another exactly
when its lineage ends in the other's. A context is identified by the run it belongs to and by the
providers that were layered over the base, the innermost first. -/

namespace ScopedEffects

/-- A cancellation signal: its own number, then those of its ancestors. -/
structure Signal where
  lineage : List Nat
  deriving DecidableEq, Repr, Inhabited

namespace Signal

/-- A signal that descends from no other. -/
def root (n : Nat) : Signal := ⟨[n]⟩

/-- A signal that fires with `s`, and can be fired alone. -/
def child (s : Signal) (n : Nat) : Signal := ⟨n :: s.lineage⟩

def descendsFrom (s ancestor : Signal) : Bool := ancestor.lineage.isSuffixOf s.lineage

end Signal

/-- A context: the number of its base, and the providers layered over it. -/
structure Scope where
  base : Nat
  layers : List Nat
  deriving DecidableEq, Repr, Inhabited

namespace Scope

/-- The scope that a provider of the given identity opens over `s`. -/
def push (s : Scope) (provider : Nat) : Scope := ⟨s.base, provider :: s.layers⟩

/-- The scope below, if there is one. -/
def parent? (s : Scope) : Option Scope :=
  match s.layers with
  | [] => none
  | _ :: below => some ⟨s.base, below⟩

@[simp] theorem parent?_push (s : Scope) (p : Nat) : (s.push p).parent? = some s := rfl

end Scope

/-- Where the instance of a key is resolved: a context, and the key in it. -/
abbrev Place := Scope × Key

/-- Where a shared instance comes from. Instances are the same object exactly when they share their
origin: a constant is made once, by the binding that holds it, and any other instance is made by the
one factory call for its key in its context. -/
inductive Origin where
  | constant (id : Nat)
  | made (scope : Scope) (key : Key)
  deriving DecidableEq, Repr

/-- A supply of numbers that have not been used as identities. -/
structure Supply where
  next : Nat := 0
  deriving Repr, Inhabited

/-- A computation that may draw fresh identities. -/
abbrev Fresh (α : Type) := StateM Supply α

def fresh : Fresh Nat := modifyGet fun s => (s.next, ⟨s.next + 1⟩)

end ScopedEffects
