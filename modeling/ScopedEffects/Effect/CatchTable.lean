import ScopedEffects.Effect.Basic

/-! Tables of handlers, one for each key of a failure. A later entry for a key replaces the earlier
one. An entry for a family of domain failures applies only where the payload has its type. -/

namespace ScopedEffects

/-- Handlers by key. A handler may decline a failure of its key. -/
structure CatchTable (H : Host) (a : Shape H.Plain) where
  handlers : OrderedMap Key (Failure H → Code H (Option (Effect H a)))

namespace CatchTable

variable {H : Host} {a : Shape H.Plain}

def empty : CatchTable H a := ⟨.empty⟩

/-- Handles every failure of a key. -/
def on (t : CatchTable H a) (key : Key) (handler : Failure H → Code H (Effect H a)) :
    CatchTable H a :=
  ⟨t.handlers.set key fun f => (handler f).map some⟩

/-- Handles the domain failures of a family. -/
def onTag (t : CatchTable H a) (tag : FailureTag H) (handler : H.El tag.type → Code H (Effect H a)) :
    CatchTable H a :=
  ⟨t.handlers.set tag.key fun f =>
    match tag.payload? f with
    | some p => (handler p).map some
    | none => .pure none⟩

def describe (t : CatchTable H a) : String :=
  Text.record "CatchMap" [("keys", Text.quoteList t.handlers.keys)]

end CatchTable

/-- Recovers with the handler that a table holds for the failure's key. -/
def Effect.catchTable {H : Host} {a : Shape H.Plain} (e : Effect H a) (t : CatchTable H a) :
    Effect H a :=
  e.recover fun f =>
    match t.handlers.get? f.key with
    | some handler => handler f
    | none => .pure none

end ScopedEffects
