import ScopedEffects.Json.Reader

/-! Identifiers of runs: numbers of 128 bits, written as 26 digits in base 32. The digits are the
decimal digits and the capital letters without I, L, O and U, in ascending order, so that texts and
numbers sort alike. Reading takes either case, and drops the bits of the first digit that do not
fit. -/

namespace ScopedEffects

structure RunId where
  value : Nat
  value_lt : value < Nat.pow 2 128
  deriving DecidableEq

namespace RunId

/-- The number modulo `2 ^ 128`. -/
def ofNat (n : Nat) : RunId := ⟨n % Nat.pow 2 128, Nat.mod_lt _ (by decide)⟩

def alphabet : List Char := "0123456789ABCDEFGHJKMNPQRSTVWXYZ".toList

/-- How many digits a text has. -/
def width : Nat := 26

def digit (n : Nat) : Char := alphabet.getD (n % 32) '0'

/-- The last `count` digits of a number, the most significant first. -/
def digitsOf (n : Nat) : Nat → List Char
  | 0 => []
  | count + 1 => digitsOf (n / 32) count ++ [digit n]

/-- The text without the leading word. -/
def text (id : RunId) : String := String.ofList (digitsOf id.value width)

def render (id : RunId) : String := "run-" ++ id.text

/-- The JSON text, a string. -/
def toJson (id : RunId) : String := "\"" ++ id.text ++ "\""

def digitValue? (c : Char) : Option Nat := alphabet.findIdx? (· = c.toUpper)

/-- The number with the given digits, or nothing when one of them is no digit. -/
def valueOf? (digits : List Char) : Option Nat :=
  digits.foldlM (fun n c => (digitValue? c).map (n * 32 + ·)) 0

def ofText? (s : String) : Option RunId :=
  if s.toList.length = width then (valueOf? s.toList).map ofNat else none

/-- Reads a JSON text that holds one string. -/
def ofJson? (s : String) : Option RunId :=
  match Json.Reader.string.run s with
  | .ok t => ofText? t
  | .error _ => none

instance : LT RunId := ⟨fun a b => a.value < b.value⟩

instance : LE RunId := ⟨fun a b => a.value ≤ b.value⟩

instance (a b : RunId) : Decidable (a ≤ b) := inferInstanceAs (Decidable (a.value ≤ b.value))

/-- Identifiers in ascending order. -/
def sort (ids : List RunId) : List RunId := ids.mergeSort fun a b => decide (a ≤ b)

example : (ofText? "01arz3ndektsv4rrffq69g5fav").map render = some "run-01ARZ3NDEKTSV4RRFFQ69G5FAV" ∧
    (ofText? "80000000000000000000000000").map value = some 0 := by decide +kernel

end RunId

end ScopedEffects
