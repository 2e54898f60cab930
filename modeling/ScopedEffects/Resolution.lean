import ScopedEffects.Store

/-! Resolution of keys. A key is served by the nearest context, from the one asked down, whose
provider binds it. The first request there installs the factory's program, and all later ones join
it. A request of a factory that would close a cycle of waits within its context is refused; any other
is recorded as a wait until it is over. -/

namespace ScopedEffects

/-- Where a request is served, or why it is not. -/
inductive Serving where
  | found (scope : Scope)
  | unbound
  /-- The context below is gone. -/
  | gone
  deriving DecidableEq, Repr

/-- What becomes of a request at once. -/
inductive Admission (H : Host) where
  | refused (f : Failure H)
  | waiting (w : Wait)

namespace Store

variable {H : Host}

/-- The nearest context that binds the key, from the given layers down. -/
def servingAt (s : Store H) (base : Nat) (key : Key) : List Nat → Serving
  | [] => if bound [] then .found ⟨base, []⟩ else .unbound
  | p :: below =>
    if bound (p :: below) then .found ⟨base, p :: below⟩
    else if s.livesAt base below then servingAt s base key below
    else .gone
where
  bound (layers : List Nat) : Bool :=
    match s.context? ⟨base, layers⟩ with
    | some c => c.provider.contains key
    | none => false

def serving (s : Store H) (c : Scope) (key : Key) : Serving := s.servingAt c.base key c.layers

/-- Joins the resolution of a key in the context that serves it, or starts it. -/
def join (s : Store H) (c : Scope) (key : Key) : Store H :=
  match s.context? c with
  | none => s
  | some x =>
    if x.slots.contains key then s.record (.joiningResolution key)
    else
      match x.provider.factory? key with
      | none => s
      | some f =>
        let task := Task.run (f.program ⟨c, x.signal, key⟩)
        (s.record (.invokingFactory key)).setSlot c key (.running task)

/-- A request for `key` at the context that serves it, by the factory of `requester` if one made it
in that same context. -/
def enlist (s : Store H) (c : Scope) (key : Key) (requester : Option Key) : Admission H × Store H :=
  match requester, s.context? c with
  | some a, some x =>
    match x.waiting.cycleThrough a key with
    | some cycle => (.refused (.circularDependency cycle), s.record (.refusingCircular key a))
    | none =>
      let counted := s.changeContext c fun x => { x with waiting := x.waiting.add a key }
      (.waiting ⟨c, key, some a⟩, counted.join c key)
  | _, _ => (.waiting ⟨c, key, none⟩, s.join c key)

/-- A request made at the context `c`. A request that falls through to a context below is nobody's
wait there. -/
def resolve (s : Store H) (c : Scope) (key : Key) (requester : Option Key) :
    Admission H × Store H :=
  match s.serving c key with
  | .found d => s.enlist d key (if d = c then requester else none)
  | .unbound => (.refused (.tokenNotProvided key), s)
  | .gone => (.refused .aborted, s)

/-- A request for an instance. A resolver whose context is gone serves nothing. -/
def request (s : Store H) (via : Access) (key : Key) : Admission H × Store H :=
  match via with
  | .context c => s.resolve c key none
  | .resolver r =>
    if s.lives r.scope then s.resolve r.scope key (some r.key) else (.refused .aborted, s)

/-- A request is over, because it was answered or because it was dropped. -/
def finishWait (s : Store H) (w : Wait) : Store H :=
  match w.requester with
  | none => s
  | some a =>
    if s.lives w.scope then
      s.changeContext w.scope fun x => { x with waiting := x.waiting.remove a w.key }
    else s

/-- The outcome of the resolution that a request waits for, once it has settled. -/
def answer? (s : Store H) (w : Wait) : Option (Except (Failure H) (AnyInstance H)) :=
  match s.slot? w.scope w.key with
  | some (.settled o) => some o
  | _ => none

/-- The outcome of a resolution whose program has ended. A panic is an unexpected failure. -/
def slotOutcome (s : Store H) (w : Wait) (ended : Except Panic (Exit H)) :
    Except (Failure H) (AnyInstance H) :=
  match ended, s.context? w.scope with
  | .error p, _ => .error (.ofPanic p)
  | .ok e, some x =>
    match x.provider.factory? w.key with
    | some f => f.instance ⟨w.scope, x.signal, w.key⟩ e
    | none => .error .aborted
  | .ok _, none => .error .aborted

end Store

/-- Drops a task: all its requests are over, and nothing further of it happens. -/
def Task.drop {H : Host} (t : Task H) (s : Store H) : Store H := t.waits.foldl Store.finishWait s

end ScopedEffects
