import ScopedEffects.Number.Binary64

/-! Lengths of time, in whole nanoseconds. The text of a duration uses the largest unit that leaves
a nonzero whole part. A duration can be read from a number of seconds, rounded to the nearest
nanosecond; what exceeds the longest duration becomes the longest one. -/

namespace ScopedEffects

structure Duration where
  nanos : Nat
  deriving DecidableEq, Repr, Inhabited

namespace Duration

def zero : Duration := ⟨0⟩

/-- The longest duration: `2 ^ 64` seconds less one nanosecond. -/
def longest : Duration := ⟨Nat.pow 2 64 * Nat.pow 10 9 - 1⟩

def ofMillis (ms : Nat) : Duration := ⟨ms * 1000000⟩

/-- The ticks of a clock of milliseconds that cover the duration. -/
def ticks (d : Duration) : Nat := (d.nanos + 999999) / 1000000

def isZero (d : Duration) : Bool := d.nanos == 0

/-- The digits after the point, of a remainder below a unit of `10 ^ places` nanoseconds. -/
def fraction (places remainder : Nat) : String :=
  let digits := Nat.toDigits 10 remainder
  let padded := List.replicate (places - digits.length) '0' ++ digits
  let kept := (padded.reverse.dropWhile (· == '0')).reverse
  if kept.isEmpty then "" else "." ++ String.ofList kept

/-- A number of nanoseconds in units of `10 ^ places` nanoseconds. -/
def inUnit (places : Nat) (name : String) (nanos : Nat) : String :=
  let unit := Nat.pow 10 places
  toString (nanos / unit) ++ fraction places (nanos % unit) ++ name

def render (d : Duration) : String :=
  if Nat.pow 10 9 ≤ d.nanos then inUnit 9 "s" d.nanos
  else if Nat.pow 10 6 ≤ d.nanos then inUnit 6 "ms" d.nanos
  else if Nat.pow 10 3 ≤ d.nanos then inUnit 3 "µs" d.nanos
  else inUnit 0 "ns" d.nanos

/-- The duration in seconds: the whole seconds and the rest are rounded, and then their sum. -/
def seconds (d : Duration) : Binary64 :=
  (Binary64.ofNat (d.nanos / Nat.pow 10 9)).add
    ((Binary64.ofNat (d.nanos % Nat.pow 10 9)).div (Binary64.ofNat (Nat.pow 10 9)))

/-- The duration nearest to a number of seconds. A number that is not above zero gives the empty
duration, and one that is too large the longest. -/
def ofSeconds : Binary64 → Duration
  | .finite false m e =>
    let (num, den) := Binary64.magnitude m e
    ⟨min (Binary64.roundDiv (num * Nat.pow 10 9) den) longest.nanos⟩
  | .infinite false => longest
  | _ => zero

example : [zero, ⟨999⟩, ⟨1001⟩, ofMillis 20, ofMillis 1500, longest].map render =
    ["0ns", "999ns", "1.001µs", "20ms", "1.5s", "18446744073709551615.999999999s"] := by
  decide +kernel

end Duration

end ScopedEffects
