/-! The types that user code brings. A host names its plain types and says what their elements are.
A kind is a plain type or the tracer: what a service can be. Effects produce values whose shapes are
built from kinds, lists, pairs and shared services. -/

namespace ScopedEffects

/-- What a service can be, over the names of the plain types. -/
inductive Kind (τ : Type) where
  | plain (t : τ)
  | tracer
  deriving DecidableEq

/-- The types of the values that effects produce. -/
inductive Shape (τ : Type) where
  | unit
  | bare (k : Kind τ)
  | list (a : Shape τ)
  | pair (a b : Shape τ)
  | shared (k : Kind τ)
  deriving DecidableEq

/-- What user code brings: its plain types, the state its closures share, its tracers, and the names
under which its types appear in messages. -/
structure Host where
  Plain : Type
  decPlain : DecidableEq Plain
  El : Plain → Type
  State : Type
  Tracer : Type
  shapeName : Shape Plain → String
  kindName : Kind Plain → String

instance (H : Host) : DecidableEq H.Plain := H.decPlain

/-- A host whose only plain type are the numbers, and whose code shares a count. -/
def Host.counting : Host where
  Plain := Unit
  decPlain := inferInstance
  El _ := Nat
  State := Nat
  Tracer := Empty
  shapeName _ := "u64"
  kindName _ := "u64"

/-- A value of some plain type. -/
abbrev PlainValue (H : Host) : Type := (t : H.Plain) × H.El t

/-- The value, when it has the type `t`. -/
def PlainValue.at? {H : Host} (t : H.Plain) (v : PlainValue H) : Option (H.El t) :=
  if h : v.1 = t then some (h ▸ v.2) else none

end ScopedEffects
