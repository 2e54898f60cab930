import ScopedEffects.Failure
import ScopedEffects.Identity

/-! Values, instances and tokens. The machine handles values without knowing their shapes; a value
is taken back at the shape that a step expects, and a mismatch is an unexpected failure. The same
holds of the instances that contexts cache and of the tokens that ask for them. -/

namespace ScopedEffects

/-- The tracer bound to the tracer token: the one that writes to the trace, or one of the host. -/
inductive TracerChoice (H : Host) where
  | standard
  | custom (t : H.Tracer)

/-- The elements of a kind. -/
def Kind.El (H : Host) : Kind H.Plain → Type
  | .plain t => H.El t
  | .tracer => TracerChoice H

/-- A shared instance: what it holds, and which object it is. -/
structure Instance (H : Host) (k : Kind H.Plain) where
  origin : Origin
  value : k.El H

/-- An instance of some kind. -/
abbrev AnyInstance (H : Host) : Type := (k : Kind H.Plain) × Instance H k

/-- The values of a shape. -/
def Shape.El (H : Host) : Shape H.Plain → Type
  | .unit => Unit
  | .bare k => k.El H
  | .list a => List (Shape.El H a)
  | .pair a b => Shape.El H a × Shape.El H b
  | .shared k => Instance H k

/-- The shape of the elements of a plain type. -/
abbrev Shape.plain {τ : Type} (t : τ) : Shape τ := .bare (.plain t)

/-- A value of some shape. -/
abbrev Value (H : Host) : Type := (a : Shape H.Plain) × a.El H

/-- How an effect settles. -/
abbrev Exit (H : Host) : Type := Except (Failure H) (Value H)

namespace Value

variable {H : Host}

def at? (a : Shape H.Plain) (v : Value H) : Option (a.El H) :=
  if h : v.1 = a then some (h ▸ v.2) else none

@[simp] theorem at?_mk (a : Shape H.Plain) (x : a.El H) : at? a ⟨a, x⟩ = some x := by simp [at?]

/-- The value at the shape that a step expects. -/
def take (a : Shape H.Plain) (v : Value H) : Except (Failure H) (a.El H) :=
  match v.at? a with
  | some x => .ok x
  | none => .error (.ofMessage
      ("effect produced a value of another type (expected " ++ H.shapeName a ++ ")"))

@[simp] theorem take_mk (a : Shape H.Plain) (x : a.El H) : take a ⟨a, x⟩ = .ok x := by simp [take]

/-- All values at one shape, as a list. The first that has another shape decides the failure. -/
def takeAll (a : Shape H.Plain) (vs : List (Value H)) : Exit H :=
  (vs.mapM (take a)).map fun xs => ⟨.list a, xs⟩

end Value

/-- A named capability of a kind. Two tokens of one key are the same identity. -/
structure Token (H : Host) where
  key : Key
  kind : Kind H.Plain

namespace Token

variable {H : Host}

def same (a b : Token H) : Bool := a.key == b.key

def describe (t : Token H) : String := Text.delimited "Token(" ")" [Text.quote t.key]

/-- The instance at the token's kind; a binding of another kind fails this request. -/
def view (t : Token H) (i : AnyInstance H) : Except (Failure H) (Instance H t.kind) :=
  if h : i.1 = t.kind then .ok (h ▸ i.2)
  else .error (.ofMessage ("token " ++ t.key ++
    " is bound to a value of another type (expected " ++ H.kindName t.kind ++ ")"))

/-- The token under which a tracer is bound. -/
def tracer (H : Host) : Token H := ⟨"Tracer", .tracer⟩

end Token

end ScopedEffects
