import ScopedEffects.Number.Binary64

/-! The shortest decimal text of a binary floating-point number: the fewest digits that read back as
the same number, and of those the nearest. Of two that are equally near, the layout chooses. A number
whose exponent of ten lies within the layout's bounds is written out with at least one digit after
the point, any other with an exponent. -/

namespace ScopedEffects.Binary64

/-- Which powers of ten are written out, and which of two equally near texts is taken. -/
structure Layout where
  least : Int
  greatest : Int
  /-- The larger of the two, and not the one with the even last digit. -/
  tiesUp : Bool

/-- Magnitudes from `10 ^ -4` up to below `10 ^ 16` are written out. -/
def plainLayout : Layout := ⟨-4, 15, true⟩

/-- The quotient rounded to the nearest natural number, a tie as the layout says. -/
def Layout.round (layout : Layout) (num den : Nat) : Nat :=
  if layout.tiesUp && 2 * (num % den) == den then num / den + 1 else roundDiv num den

/-- Do `digits * 10 ^ exponent` and the number `mantissa * 2 ^ binary` agree after rounding? -/
def readsBack (mantissa : Nat) (binary : Int) (digits : Nat) (exponent : Int) : Bool :=
  ofDecimal false digits exponent == .finite false mantissa binary

/-- The digits and the exponent of ten of the shortest text with at least `count` digits, the
leading digit standing at `10 ^ top`. -/
def shortestFrom (layout : Layout) (mantissa : Nat) (binary : Int) (top : Int) :
    Nat → Nat → Nat × Int
  | 0, _ => (0, 0)
  | fuel + 1, count =>
    let exponent := top - (count - 1 : Nat)
    let (num, den) := magnitude mantissa binary
    let (scaledNum, scaledDen) :=
      if 0 ≤ exponent then (num, den * Nat.pow 10 exponent.toNat)
      else (num * Nat.pow 10 (-exponent).toNat, den)
    let below := scaledNum / scaledDen
    let nearest := layout.round scaledNum scaledDen
    let other := if nearest = below then below + 1 else below
    if readsBack mantissa binary nearest exponent then (nearest, exponent)
    else if readsBack mantissa binary other exponent then (other, exponent)
    else shortestFrom layout mantissa binary top fuel (count + 1)

/-- The exponent of the largest power of ten not above a positive number. -/
def decimalTop (mantissa : Nat) (binary : Int) : Int :=
  let (num, den) := magnitude mantissa binary
  if den ≤ num then ((Nat.toDigits 10 (num / den)).length : Int) - 1
  else
    let inverse := (Nat.toDigits 10 (den / num)).length
    if num * Nat.pow 10 (inverse - 1) < den then -(inverse : Int) else 1 - (inverse : Int)

/-- Seventeen digits always suffice, so the search has fuel to spare. -/
def shortest (layout : Layout) (mantissa : Nat) (binary : Int) : Nat × Int :=
  shortestFrom layout mantissa binary (decimalTop mantissa binary) 20 1

/-- Digits without the zeros at their end; each zero dropped raises the exponent. -/
def trimZeros (exponent : Int) : List Char → List Char × Int
  | '0' :: rest => trimZeros (exponent + 1) rest
  | digits => (digits.reverse, exponent)

/-- The text of a positive number of the given digits, the last at `10 ^ exponent`. -/
def place (layout : Layout) (digits : List Char) (exponent : Int) : String :=
  let top := exponent + digits.length - 1
  if layout.least ≤ top ∧ top ≤ layout.greatest then
    if 0 ≤ exponent then String.ofList (digits ++ List.replicate exponent.toNat '0') ++ ".0"
    else if 0 ≤ top then
      let whole := (top + 1).toNat
      String.ofList (digits.take whole) ++ "." ++ String.ofList (digits.drop whole)
    else "0." ++ String.ofList (List.replicate (-top - 1).toNat '0' ++ digits)
  else
    let fraction := if digits.length ≤ 1 then "" else "." ++ String.ofList (digits.drop 1)
    String.ofList (digits.take 1) ++ fraction ++ "e" ++ toString top

def renderWith (layout : Layout) : Binary64 → String
  | nan => "NaN"
  | infinite s => if s then "-inf" else "inf"
  | finite s m e =>
    let sign := if s then "-" else ""
    if m = 0 then sign ++ "0.0" else
      let (digits, exponent) := shortest layout m e
      let (trimmed, lifted) := trimZeros exponent (Nat.toDigits 10 digits).reverse
      sign ++ place layout trimmed lifted

def render : Binary64 → String := renderWith plainLayout

example : [ofNat 1, ofDecimal false 5 (-1), zero true, ofDecimal false 1 300,
    ofDecimal false 1 (-300), ofDecimal false 1 (-4), ofDecimal true 12345 (-9), ofNat (10 ^ 15),
    ofNat (10 ^ 16), ofDecimal false 3333 (-4), .finite false 1 (-1074),
    .finite false (2 ^ 53 - 1) 971, .finite false (2 ^ 52) (-77)].map render =
    ["1.0", "0.5", "-0.0", "1e300", "1e-300", "0.0001", "-1.2345e-5", "1000000000000000.0", "1e16",
      "0.3333", "5e-324", "1.7976931348623157e308", "2.9802322387695313e-8"] := by decide +kernel

end ScopedEffects.Binary64
