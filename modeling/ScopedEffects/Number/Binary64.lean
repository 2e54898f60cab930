/-! Binary floating-point numbers of 64 bits, as exact integers. A finite number is a mantissa below
`2 ^ 53` times a power of two not below `2 ^ -1074`. Each operation computes its exact result as a
ratio and rounds it once, to nearest with ties to even. -/

namespace ScopedEffects

inductive Binary64 where
  | nan
  | infinite (negative : Bool)
  | finite (negative : Bool) (mantissa : Nat) (exponent : Int)
  deriving DecidableEq, Repr, Inhabited

namespace Binary64

/-- The quotient rounded to the nearest natural number, a tie to the even one. -/
def roundDiv (num den : Nat) : Nat :=
  let quotient := num / den
  let twice := 2 * (num % den)
  if twice < den then quotient
  else if den < twice then quotient + 1
  else if quotient % 2 = 0 then quotient else quotient + 1

/-- The exponent of the largest power of two not above `num / den`. -/
def floorLog (num den : Nat) : Int :=
  let guess : Int := (num.log2 : Int) - den.log2
  let enough :=
    if 0 ≤ guess then den * Nat.pow 2 guess.toNat ≤ num
    else den ≤ num * Nat.pow 2 (-guess).toNat
  if enough then guess else guess - 1

def zero (negative : Bool) : Binary64 := .finite negative 0 (-1074)

/-- A mantissa of at most 53 bits, or the next power of two, at an exponent that is in range. -/
def pack (negative : Bool) (mantissa : Nat) (exponent : Int) : Binary64 :=
  let (m, e) :=
    if mantissa = Nat.pow 2 53 then (Nat.pow 2 52, exponent + 1) else (mantissa, exponent)
  if 971 < e then .infinite negative else .finite negative m e

/-- The number nearest to `num / den`, for a positive `den`. -/
def ofRatio (negative : Bool) (num den : Nat) : Binary64 :=
  if num = 0 then zero negative else
    let e := max (floorLog num den - 52) (-1074)
    let m :=
      if 0 ≤ e then roundDiv num (den * Nat.pow 2 e.toNat)
      else roundDiv (num * Nat.pow 2 (-e).toNat) den
    pack negative m e

/-- The number nearest to `mantissa * 2 ^ exponent`. An exponent that decides the result alone is
not expanded. -/
def ofDyadic (negative : Bool) (mantissa : Nat) (exponent : Int) : Binary64 :=
  let top := (mantissa.log2 : Int) + exponent
  if mantissa = 0 || top < -1080 then zero negative
  else if 1030 < top then .infinite negative
  else if 0 ≤ exponent then ofRatio negative (mantissa * Nat.pow 2 exponent.toNat) 1
  else ofRatio negative mantissa (Nat.pow 2 (-exponent).toNat)

/-- The number nearest to `digits * 10 ^ exponent`. -/
def ofDecimal (negative : Bool) (digits : Nat) (exponent : Int) : Binary64 :=
  let places := (Nat.toDigits 10 digits).length
  if digits = 0 || exponent + places < -400 then zero negative
  else if 400 < exponent + places then .infinite negative
  else if 0 ≤ exponent then ofRatio negative (digits * Nat.pow 10 exponent.toNat) 1
  else ofRatio negative digits (Nat.pow 10 (-exponent).toNat)

def ofNat (n : Nat) : Binary64 := ofRatio false n 1

def one : Binary64 := ofNat 1

def isFinite : Binary64 → Bool
  | finite .. => true
  | _ => false

/-- The numerator and the denominator of a finite number's magnitude. -/
def magnitude (mantissa : Nat) (exponent : Int) : Nat × Nat :=
  if 0 ≤ exponent then (mantissa * Nat.pow 2 exponent.toNat, 1)
  else (mantissa, Nat.pow 2 (-exponent).toNat)

def abs : Binary64 → Binary64
  | nan => nan
  | infinite _ => infinite false
  | finite _ m e => finite false m e

def neg : Binary64 → Binary64
  | nan => nan
  | infinite s => infinite !s
  | finite s m e => finite (!s) m e

def isNegative : Binary64 → Bool
  | nan => false
  | infinite s => s
  | finite s _ _ => s

/-- Is the number above zero? -/
def isPositive : Binary64 → Bool
  | nan => false
  | infinite s => !s
  | finite s m _ => !s && m != 0

def mul : Binary64 → Binary64 → Binary64
  | finite s m e, finite t n f => ofDyadic (s != t) (m * n) (e + f)
  | infinite s, finite t n _ => if n = 0 then nan else infinite (s != t)
  | finite s m _, infinite t => if m = 0 then nan else infinite (s != t)
  | infinite s, infinite t => infinite (s != t)
  | _, _ => nan

def div : Binary64 → Binary64 → Binary64
  | finite s m e, finite t n f =>
    if n = 0 then (if m = 0 then nan else infinite (s != t))
    else
      let (a, b) := magnitude m e
      let (c, d) := magnitude n f
      ofRatio (s != t) (a * d) (b * c)
  | infinite s, finite t _ _ => infinite (s != t)
  | finite s _ _, infinite t => zero (s != t)
  | _, _ => nan

/-- A finite number as an integer multiple of `2 ^ -1074`. -/
def units (negative : Bool) (mantissa : Nat) (exponent : Int) : Int :=
  let n : Int := mantissa * Nat.pow 2 (exponent + 1074).toNat
  if negative then -n else n

def add : Binary64 → Binary64 → Binary64
  | finite s m e, finite t n f =>
    let sum := units s m e + units t n f
    if sum = 0 then zero (s && t)
    else ofDyadic (decide (sum < 0)) sum.natAbs (-1074)
  | infinite s, infinite t => if s = t then infinite s else nan
  | infinite s, finite .. => infinite s
  | finite .., infinite t => infinite t
  | _, _ => nan

/-- Strictly below, never for a NaN. -/
def lt : Binary64 → Binary64 → Bool
  | finite s m e, finite t n f => decide (units s m e < units t n f)
  | infinite s, infinite t => s && !t
  | infinite s, finite .. => s
  | finite .., infinite t => !t
  | _, _ => false

/-- The nearest number between two bounds; a number within them, and a NaN, stays as it is. -/
def clamp (low high x : Binary64) : Binary64 :=
  if lt x low then low else if lt high x then high else x

/-- One divided by the number. -/
def recip (x : Binary64) : Binary64 := div one x

/-- The doubles nearest to a tenth, to the largest finite value, and below half the least one. -/
example : ofDecimal false 1 (-1) = .finite false 7205759403792794 (-56) ∧
    ofDecimal true 17976931348623157 292 = .finite true (2 ^ 53 - 1) 971 ∧
    ofDecimal false 17976931348623159 292 = .infinite false ∧
    ofDecimal false 2 (-324) = .finite false 0 (-1074) ∧
    ofDecimal false 3 (-324) = .finite false 1 (-1074) := by decide +kernel

end Binary64

end ScopedEffects
