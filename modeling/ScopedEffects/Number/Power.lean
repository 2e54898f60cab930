import ScopedEffects.Number.Binary64

/-! Integer powers of binary floating-point numbers, by repeated squaring: the number is squared once
for each bit of the exponent, and the squares at the bits that are set are multiplied from the least
bit on. Every product is rounded. -/

namespace ScopedEffects

namespace Binary64

/-- The product `r`, and `x` as one more factor where the lowest bit of the exponent is set. -/
def takeBit (r x : Binary64) (n : Nat) : Binary64 := if n % 2 = 1 then r.mul x else r

/-- The product `r`, with the powers of `x` for so many of the lowest bits of the exponent. -/
def powFrom (r x : Binary64) (n : Nat) : (bits : Nat) → Binary64
  | 0 => r
  | bits + 1 => powFrom (takeBit r x n) (x.mul x) (n / 2) bits

/-- The power for an exponent not below zero. -/
def pow (x : Binary64) (n : Nat) : Binary64 := powFrom one x n (n.log2 + 1)

/-- The power for any exponent; a negative one takes the reciprocal of the rounded power. -/
def zpow (x : Binary64) (n : Int) : Binary64 :=
  if 0 ≤ n then x.pow n.toNat else (x.pow n.natAbs).recip

example : (ofNat 2).zpow (-2) = ofDecimal false 25 (-2) ∧
    (ofNat 10).pow 22 = ofDecimal false 1 22 ∧
    (ofDecimal false 11 (-1)).pow 2147483647 = .infinite false ∧
    (ofDecimal false 1 (-1)).pow 2147483647 = zero false ∧
    (ofNat 1).neg.pow 2147483647 = one.neg := by decide +kernel

end Binary64

end ScopedEffects
