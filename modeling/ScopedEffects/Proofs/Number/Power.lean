import ScopedEffects.Number.Power
import ScopedEffects.Proofs.Number.Rounding

/-! Powers keep the order, although every product is rounded. A product grows with its factors, and a
number that has been rounded is not changed by being rounded again. So the product of the lower
squares, in any selection, never exceeds the next square, and of two exponents it is the highest bit
in which they differ that decides which power is the greater. -/

namespace ScopedEffects

namespace Binary64

variable {x y z w r r' : Binary64}

/-! Products of numbers that are not below one -/

theorem mul_comm (x y : Binary64) : x.mul y = y.mul x := by
  cases x with
  | nan => cases y <;> rfl
  | infinite s =>
    cases y with
    | nan => rfl
    | infinite t => exact congrArg infinite (bne_comm ..)
    | finite t n f => rw [infinite_mul, mul_infinite, bne_comm]
  | finite s m e =>
    cases y with
    | nan => rfl
    | infinite t => rw [infinite_mul, mul_infinite, bne_comm]
    | finite t n f => rw [mul_finite, mul_finite, bne_comm, Nat.mul_comm, Int.add_comm]

theorem signed_of_one_le (hx : 1 ≤ x.value) : x.Signed false :=
  signed_of_pos (lt_of_lt_of_le one_pos hx)

/-- Products grow with both factors. -/
theorem mul_le_mul (hx : 1 ≤ x.value) (hy : 1 ≤ y.value) (hxz : x.value ≤ z.value)
    (hyw : y.value ≤ w.value) : (x.mul y).value ≤ (z.mul w).value := by
  calc (x.mul y).value ≤ (x.mul w).value :=
        mul_mono x (signed_of_one_le hy) (signed_of_one_le (hy.trans hyw)) hyw
    _ = (w.mul x).value := by rw [mul_comm]
    _ ≤ (w.mul z).value := mul_mono w (signed_of_one_le hx) (signed_of_one_le (hx.trans hxz)) hxz
    _ = (z.mul w).value := by rw [mul_comm]

theorem one_le_mul (hx : 1 ≤ x.value) (hy : 1 ≤ y.value) : 1 ≤ (x.mul y).value := by
  have hone : one.mul one = one := by decide +kernel
  calc 1 = (one.mul one).value := by rw [hone, value_one]
    _ ≤ (x.mul y).value := mul_le_mul value_one.ge value_one.ge (value_one ▸ hx) (value_one ▸ hy)

/-- The number is infinite, or a rational that rounding does not change. -/
def Rounded (x : Binary64) : Prop := x.value = ⊤ ∨ ∃ q : ℚ, Fits q ∧ x.value = q

theorem rounded_mul (hx : 1 ≤ x.value) (hy : 1 ≤ y.value) : (x.mul y).Rounded := by
  have hxpos := lt_of_lt_of_le one_pos hx
  have hypos := lt_of_lt_of_le one_pos hy
  cases signed_of_one_le hx with
  | infinite =>
    left
    rw [value_infinite_mul (signed_of_one_le hy), if_neg hypos.ne']
  | finite m e =>
    cases signed_of_one_le hy with
    | infinite =>
      left
      rw [mul_comm, value_infinite_mul (.finite m e), if_neg hxpos.ne']
    | finite n f => exact fits_ofDyadic (m * n) (e + f)

theorem Rounded.one_mul (h : y.Rounded) (hy : 1 ≤ y.value) : (one.mul y).value = y.value := by
  rw [one_eq]
  cases signed_of_one_le hy with
  | infinite => rfl
  | finite n f =>
    have hfits : Fits (n * 2 ^ f) := by
      rcases h with htop | ⟨q, hq, heq⟩
      · exact absurd htop WithTop.coe_ne_top
      · have heq : (n * 2 ^ f : ℚ) = q := WithTop.coe_injective heq
        rwa [heq]
    have hunit : ((2 ^ 52 * n : Nat) : ℚ) * 2 ^ (-52 + f) = n * 2 ^ f := by
      rw [zpow_add₀ two_ne_zero]
      push_cast
      norm_num
      ring
    have hvalue := value_ofDyadic_of_fits (m := 2 ^ 52 * n) (e := -52 + f) (hunit ▸ hfits)
    rwa [hunit] at hvalue

/-- A factor that is not below one does not make a rounded number less. -/
theorem Rounded.le_mul (h : y.Rounded) (hy : 1 ≤ y.value) (hx : 1 ≤ x.value) :
    y.value ≤ (x.mul y).value := by
  calc y.value = (one.mul y).value := (h.one_mul hy).symm
    _ ≤ (x.mul y).value := mul_le_mul value_one.ge hy (value_one ▸ hx) le_rfl

/-! The lowest bits of two exponents -/

section PowFrom

variable {n k bits : Nat}

/-- Beyond the bits of the exponent nothing is taken in. -/
theorem powFrom_succ_of_lt (h : n < 2 ^ bits) :
    powFrom r x n (bits + 1) = powFrom r x n bits := by
  induction bits generalizing r x n with
  | zero =>
    have hn : n = 0 := by omega
    rw [hn]
    rfl
  | succ bits ih => rw [powFrom, ih (by omega), powFrom]

theorem pow_eq (x : Binary64) (h : n.log2 < bits) : x.pow n = powFrom one x n bits := by
  induction bits, h using Nat.le_induction with
  | base => rfl
  | succ bits hle ih =>
    have hn : n < 2 ^ bits := Nat.lt_log2_self.trans_le (Nat.pow_le_pow_right two_pos hle)
    rw [ih, powFrom_succ_of_lt hn]

theorem one_le_takeBit (hr : 1 ≤ r.value) (hx : 1 ≤ x.value) (n : Nat) :
    1 ≤ (takeBit r x n).value := by
  unfold takeBit
  split
  · exact one_le_mul hr hx
  · exact hr

/-- With its bit taken in, a product that did not exceed a square does not exceed the next one. -/
theorem takeBit_le (hr : 1 ≤ r.value) (h : r.value ≤ x.value) (hx : x.Rounded) (n : Nat) :
    (takeBit r x n).value ≤ (x.mul x).value := by
  have hone := hr.trans h
  unfold takeBit
  split
  · exact mul_le_mul hr hone h le_rfl
  · exact h.trans (hx.le_mul hone hone)

/-- Where the exponents differ in the lowest bit only, or not at all. -/
theorem takeBit_mono (hr : 1 ≤ r.value) (hr' : 1 ≤ r'.value) (h : r.value ≤ x.value)
    (hx : x.Rounded) (hnk : n ≤ k) (hhalf : n / 2 = k / 2) (hsame : n = k → r.value ≤ r'.value) :
    (takeBit r x n).value ≤ (takeBit r' x k).value := by
  have hone := hr.trans h
  rcases hnk.eq_or_lt with rfl | hlt
  · unfold takeBit
    split
    · exact mul_le_mul hr hone (hsame rfl) le_rfl
    · exact hsame rfl
  · have hn : ¬ n % 2 = 1 := by omega
    have hk : k % 2 = 1 := by omega
    rw [takeBit, takeBit, if_neg hn, if_pos hk]
    exact h.trans (hx.le_mul hone hr')

theorem powFrom_mono (hr : 1 ≤ r.value) (hr' : 1 ≤ r'.value) (h : r.value ≤ x.value)
    (hx : x.Rounded) (hnk : n ≤ k) (hk : k < 2 ^ bits) (hsame : n = k → r.value ≤ r'.value) :
    (powFrom r x n bits).value ≤ (powFrom r' x k bits).value := by
  induction bits generalizing r r' x n k with
  | zero =>
    have hk : k = 0 := by omega
    exact hsame (by omega)
  | succ bits ih =>
    have hone := hr.trans h
    rw [powFrom, powFrom]
    exact ih (one_le_takeBit hr hone n) (one_le_takeBit hr' hone k) (takeBit_le hr h hx n)
      (rounded_mul hone hone) (Nat.div_le_div_right hnk) (by omega)
      fun hhalf => takeBit_mono hr hr' h hx hnk hhalf hsame

end PowFrom

/-- The powers of a number that is not below one grow with the exponent. -/
theorem pow_mono (hx : 1 ≤ x.value) {n k : Nat} (h : n ≤ k) :
    (x.pow n).value ≤ (x.pow k).value := by
  have hone : 1 ≤ one.value := value_one.ge
  obtain ⟨bits, hbits⟩ : ∃ bits, bits = n.log2 + k.log2 := ⟨_, rfl⟩
  have hk : k / 2 < 2 ^ bits := by
    have hlog : k < 2 ^ (k.log2 + 1) := Nat.lt_log2_self
    have hle : 2 ^ k.log2 ≤ 2 ^ bits := Nat.pow_le_pow_right two_pos (by omega)
    omega
  have hnbits : n.log2 < bits + 1 := by omega
  have hkbits : k.log2 < bits + 1 := by omega
  rw [pow_eq x hnbits, pow_eq x hkbits, powFrom, powFrom]
  -- with the first bit, the number itself is rounded
  have hfirst : ∀ n, (takeBit one x n).value ≤ (x.mul x).value := by
    intro n
    unfold takeBit
    split
    · exact mul_le_mul hone hx (value_one ▸ hx) le_rfl
    · exact value_one ▸ one_le_mul hx hx
  refine powFrom_mono (one_le_takeBit hone hx n) (one_le_takeBit hone hx k) (hfirst n)
    (rounded_mul hx hx) (Nat.div_le_div_right h) hk fun hhalf => ?_
  rcases h.eq_or_lt with rfl | hlt
  · exact le_rfl
  · have hn : ¬ n % 2 = 1 := by omega
    rw [takeBit, if_neg hn, value_one]
    exact one_le_takeBit hone hx k

theorem one_le_pow (hx : 1 ≤ x.value) (n : Nat) : 1 ≤ (x.pow n).value := by
  calc 1 = (x.pow 0).value := value_one.symm
    _ ≤ (x.pow n).value := pow_mono hx (Nat.zero_le n)

theorem zpow_nonneg {n : Int} (h : 0 ≤ n) : x.zpow n = x.pow n.toNat := if_pos h

theorem zpow_neg {n : Int} (h : n < 0) : x.zpow n = (x.pow n.natAbs).recip :=
  if_neg (not_le.mpr h)

theorem recip_le_one (hx : 1 ≤ x.value) : x.recip.value ≤ 1 := by
  have hone : one.recip = one := by decide +kernel
  calc x.recip.value ≤ one.recip.value :=
        recip_anti (value_one ▸ one_pos) (value_one.symm ▸ hx)
    _ = 1 := by rw [hone, value_one]

/-- The powers of a number that is not below one grow with the exponent, also from a negative one,
whose power is the reciprocal of a power that has been rounded. -/
theorem zpow_mono (hx : 1 ≤ x.value) {a b : Int} (h : a ≤ b) :
    (x.zpow a).value ≤ (x.zpow b).value := by
  rcases le_or_gt 0 a with ha | ha
  · rw [zpow_nonneg ha, zpow_nonneg (ha.trans h)]
    exact pow_mono hx (by omega)
  · rw [zpow_neg ha]
    rcases le_or_gt 0 b with hb | hb
    · rw [zpow_nonneg hb]
      exact (recip_le_one (one_le_pow hx _)).trans (one_le_pow hx _)
    · rw [zpow_neg hb]
      exact recip_anti (lt_of_lt_of_le one_pos (one_le_pow hx _)) (pow_mono hx (by omega))

theorem signed_zpow (hx : 1 ≤ x.value) (n : Int) : (x.zpow n).Signed false := by
  rcases le_or_gt 0 n with hn | hn
  · rw [zpow_nonneg hn]
    exact signed_of_pos (lt_of_lt_of_le one_pos (one_le_pow hx _))
  · rw [zpow_neg hn]
    exact signed_recip (lt_of_lt_of_le one_pos (one_le_pow hx _))

end Binary64

end ScopedEffects
