import ScopedEffects.Duration
import ScopedEffects.Json.Reader
import ScopedEffects.Text.Quoted

/-! Settings of a runtime, and their JSON form: an object, or a list in the order of the fields. A
field that is absent takes its default, a field that is not known is skipped, and a known field may
come only once. -/

namespace ScopedEffects

structure Settings where
  label : String := "weft"
  deadlineMillis : Option Nat := none
  defaultConcurrency : Option Nat := none
  deriving DecidableEq, Repr, Inhabited

namespace Settings

def deadline (s : Settings) : Option Duration := s.deadlineMillis.map Duration.ofMillis

/-- Why settings are refused. -/
inductive Refusal where
  | noConcurrency
  | noTime
  deriving DecidableEq, Repr

def Refusal.message : Refusal → String
  | .noConcurrency => "Invalid runtime config: default_concurrency must be at least 1"
  | .noTime => "Invalid runtime config: deadline_ms must be positive"

/-- The first fault of settings that cannot be run with. -/
def refusal? (s : Settings) : Option Refusal :=
  if s.defaultConcurrency = some 0 then some .noConcurrency
  else if s.deadlineMillis = some 0 then some .noTime
  else none

open Json Json.Reader

/-- The members of an object read so far; a member that was read is `some`. -/
structure Members where
  label : Option String := none
  deadlineMillis : Option (Option Nat) := none
  defaultConcurrency : Option (Option Nat) := none

def Members.settings (m : Members) : Settings :=
  { label := m.label.getD ({} : Settings).label
    deadlineMillis := m.deadlineMillis.getD none
    defaultConcurrency := m.defaultConcurrency.getD none }

/-- The colon between a name and its value. -/
def colon : Reader Unit := do
  match ← peekToken with
  | none => fault .ended
  | some ':' => advance
  | some _ => fault .malformed

/-- Fails when a member has come before. -/
def once {α : Type} (earlier : Option α) : Reader Unit :=
  if earlier.isSome then fault .shape else pure ()

/-- One member, its name's opening quote at hand. -/
def member (m : Members) : Reader Members := do
  advance
  let name ← stringBody
  if name = "label" then
    once m.label
    colon
    return { m with label := some (← Reader.string) }
  else if name = "deadline_ms" then
    once m.deadlineMillis
    colon
    return { m with deadlineMillis := some (← nullable word) }
  else if name = "default_concurrency" then
    once m.defaultConcurrency
    colon
    return { m with defaultConcurrency := some (← nullable word) }
  else
    colon
    skip
    return m

/-- The members up to the closing brace, which is consumed. `first` says that none has come yet. -/
def members : Nat → Bool → Members → Reader Members
  | 0, _, _ => fault .ended
  | fuel + 1, first, m => do
    match ← peekToken with
    | none => fault .ended
    | some '\x7d' => advance; return m
    | some c =>
      if first then
        if c = '"' then members fuel false (← member m) else fault .malformed
      else if c = ',' then
        advance
        match ← peekToken with
        | none => fault .ended
        | some '"' => members fuel false (← member m)
        | some _ => fault .malformed
      else fault .malformed

/-- The next element of a list, if there is one. -/
def element {α : Type} (first : Bool) (reader : Reader α) : Reader (Option α) := do
  match ← peekToken with
  | none => fault .ended
  | some ']' => return none
  | some c =>
    if first then return some (← reader)
    else if c = ',' then
      advance
      match ← peekToken with
      | none => fault .ended
      | some ']' => fault .malformed
      | some _ => return some (← reader)
    else fault .malformed

/-- The fields in their order, up to the closing bracket, which is consumed. -/
def elements : Reader Settings := do
  let label ← element true Reader.string
  let deadline ← element label.isNone (nullable word)
  let concurrency ← element label.isNone (nullable word)
  match ← peekToken with
  | none => fault .ended
  | some ']' => advance
  | some _ => fault .malformed
  return (Members.mk label deadline concurrency).settings

def reader : Reader Settings := do
  match ← peekToken with
  | none => fault .ended
  | some '[' => advance; elements
  | some '\x7b' =>
    advance
    return (← members (← budget) true {}).settings
  | some _ => mismatch

def ofJson (text : String) : Except Fault Settings := reader.run text

end Settings

end ScopedEffects
