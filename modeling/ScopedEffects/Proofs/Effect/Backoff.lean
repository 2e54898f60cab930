import ScopedEffects.Effect.Retry
import ScopedEffects.Proofs.Number.Power

/-! The delays of a retry policy that does not spread them. With a multiplier not below one the
seconds before each attempt grow with the attempt, as long as the exponent does: the exponent is a
signed number of 32 bits, and goes on from its least value after `2 ^ 31` attempts. Seconds that are
too many for a duration make the longest one, but seconds too many for a floating-point number make
none at all. -/

namespace ScopedEffects

namespace Duration

/-- A finite number of seconds is rounded to nanoseconds, and cut off at the longest duration. -/
theorem ofSeconds_finite (m : Nat) (e : Int) :
    ∃ a b : Nat, 0 < b ∧ (a : ℚ) / b = m * 2 ^ e * 10 ^ 9 ∧
      (ofSeconds (.finite false m e)).nanos = min (Binary64.roundDiv a b) longest.nanos := by
  obtain ⟨hden, heq⟩ := Binary64.magnitude_eq m e
  refine ⟨(Binary64.magnitude m e).1 * 10 ^ 9, (Binary64.magnitude m e).2, hden, ?_, rfl⟩
  rw [← heq]
  push_cast
  ring

end Duration

namespace RetryPolicy

open Binary64 (value)

variable {H : Host} {p : RetryPolicy H} {x y : Binary64}

theorem delayOf_top (h : x.value = ⊤) : delayOf x = .zero := by
  cases x with
  | nan => rfl
  | infinite negative => rfl
  | finite negative m e => cases negative <;> exact absurd h WithTop.coe_ne_top

theorem delayOf_not_pos (h : ¬ 0 < x.value) : delayOf x = .zero := by
  cases x with
  | nan => rfl
  | infinite negative => rfl
  | finite negative m e =>
    cases negative with
    | true => rfl
    | false =>
      have hm : m = 0 := not_not.mp (mt Binary64.value_pos_iff.mpr h)
      rw [hm]
      rfl

theorem delayOf_finite {m : Nat} (e : Int) (hm : m ≠ 0) :
    delayOf (.finite false m e) = .ofSeconds (.finite false m e) := by
  have hpos : (Binary64.finite false m e).isPositive = true := by
    simpa [Binary64.isPositive] using hm
  simp only [delayOf, hpos, Binary64.isFinite, Bool.and_true, if_true]

theorem delayOf_mono (h : x.value ≤ y.value) (hy : y.value ≠ ⊤) :
    (delayOf x).nanos ≤ (delayOf y).nanos := by
  by_cases hx : 0 < x.value
  · have hpos := lt_of_lt_of_le hx h
    cases Binary64.signed_of_pos hpos with
    | infinite => exact absurd rfl hy
    | finite n f =>
      cases Binary64.signed_of_pos hx with
      | infinite => exact absurd (top_le_iff.mp h) hy
      | finite m e =>
        have hle : (m * 2 ^ e : ℚ) ≤ n * 2 ^ f := WithTop.coe_le_coe.mp h
        obtain ⟨a, b, hb, hab, heq⟩ := Duration.ofSeconds_finite m e
        obtain ⟨c, d, hd, hcd, heq'⟩ := Duration.ofSeconds_finite n f
        rw [delayOf_finite e (Binary64.value_pos_iff.mp hx),
          delayOf_finite f (Binary64.value_pos_iff.mp hpos), heq, heq']
        refine min_le_min_right _ (Binary64.roundDiv_mono hb hd ?_)
        rw [hab, hcd]
        gcongr
  · rw [delayOf_not_pos hx]
    exact Nat.zero_le _

theorem delayOf_long (h : ((2 ^ 64 : ℚ) : WithTop ℚ) ≤ x.value) (htop : x.value ≠ ⊤) :
    delayOf x = .longest := by
  have hpos : 0 < x.value :=
    lt_of_lt_of_le (WithTop.coe_lt_coe.mpr (by positivity : (0 : ℚ) < 2 ^ 64)) h
  cases Binary64.signed_of_pos hpos with
  | infinite => exact absurd rfl htop
  | finite m e =>
    have hle : (2 ^ 64 : ℚ) ≤ m * 2 ^ e := WithTop.coe_le_coe.mp h
    obtain ⟨a, b, hb, hab, heq⟩ := Duration.ofSeconds_finite m e
    have hround : 2 ^ 64 * 10 ^ 9 ≤ Binary64.roundDiv a b := by
      refine Binary64.le_roundDiv_of_le hb ?_
      rw [hab]
      calc ((2 ^ 64 * 10 ^ 9 : Nat) : ℚ) = 2 ^ 64 * 10 ^ 9 := by norm_num
        _ ≤ m * 2 ^ e * 10 ^ 9 := by gcongr
    have hlongest : Duration.longest.nanos ≤ Binary64.roundDiv a b :=
      le_trans (Nat.sub_le _ 1) hround
    rw [delayOf_finite e (Binary64.value_pos_iff.mp hpos)]
    exact congrArg Duration.mk (heq.trans (min_eq_right hlongest))

/-- The delay before an attempt where nothing is added at random. -/
def plainDelay (p : RetryPolicy H) (attempt : Nat) : Duration := delayOf (p.baseSeconds attempt)

theorem nextDelay_of_plain (hj : p.jitter.isPositive = false) (attempt : Nat) (draw : Binary64) :
    p.nextDelay attempt draw = .ok (p.plainDelay attempt) := by
  simp only [nextDelay, seconds, hj, Bool.false_and, Bool.false_eq_true, if_false, plainDelay]

theorem exponent_mono {n k : Nat} (h : n ≤ k) (hk : k < 2 ^ 32) (hhalf : k ≤ 2 ^ 31 ∨ 2 ^ 31 < n) :
    exponent n ≤ exponent k := by
  simp only [exponent, Nat.pow_eq]
  split <;> split <;> omega

/-- After `2 ^ 31` attempts the exponent starts again from below zero. -/
theorem exponent_wraps {n k : Nat} (hn : n ≤ 2 ^ 31) (hk : 2 ^ 31 < k) (hk' : k < 2 ^ 32) :
    exponent k ≤ exponent n := by
  simp only [exponent, Nat.pow_eq]
  split <;> split <;> omega

theorem baseSeconds_mono (hm : 1 ≤ p.multiplier.value) {n k : Nat} (h : exponent n ≤ exponent k) :
    (p.baseSeconds n).value ≤ (p.baseSeconds k).value :=
  Binary64.mul_mono _ (Binary64.signed_zpow hm _) (Binary64.signed_zpow hm _)
    (Binary64.zpow_mono hm h)

/-- With no random part and a multiplier not below one, delays never shrink while the exponent goes
up, until the seconds are too many for a floating-point number: from there on no delay is left. Once
the exponent has gone below zero, no delay is above one from before. -/
theorem backoff_grows_until_overflow (p : RetryPolicy H) (hj : p.jitter.isPositive = false)
    (hm : 1 ≤ p.multiplier.value) :
    (∀ n draw, p.nextDelay n draw = .ok (p.plainDelay n)) ∧
      (∀ n k, n ≤ k → k < 2 ^ 32 → (k ≤ 2 ^ 31 ∨ 2 ^ 31 < n) →
        ((p.baseSeconds k).value ≠ ⊤ → (p.plainDelay n).nanos ≤ (p.plainDelay k).nanos) ∧
        ((p.baseSeconds n).value = ⊤ →
          (p.baseSeconds k).value = ⊤ ∧ p.plainDelay n = .zero ∧ p.plainDelay k = .zero)) ∧
      (∀ n, ((2 ^ 64 : ℚ) : WithTop ℚ) ≤ (p.baseSeconds n).value → (p.baseSeconds n).value ≠ ⊤ →
        p.plainDelay n = .longest) ∧
      ∀ n k, n ≤ 2 ^ 31 → 2 ^ 31 < k → k < 2 ^ 32 → (p.baseSeconds n).value ≠ ⊤ →
        (p.plainDelay k).nanos ≤ (p.plainDelay n).nanos := by
  refine ⟨nextDelay_of_plain hj, ?_, fun n hlong htop => delayOf_long hlong htop, ?_⟩
  · intro n k h hk hhalf
    have hbase := baseSeconds_mono (p := p) hm (exponent_mono h hk hhalf)
    refine ⟨fun htop => delayOf_mono hbase htop, fun htop => ?_⟩
    have htop' : (p.baseSeconds k).value = ⊤ := top_le_iff.mp (htop ▸ hbase)
    exact ⟨htop', delayOf_top htop, delayOf_top htop'⟩
  · intro n k hn hk hk' htop
    exact delayOf_mono (baseSeconds_mono hm (exponent_wraps hn hk hk')) htop

/-- Doubling a second, the longest delay is before attempt 1024, none before attempt 1025, and a
quarter of a second before the last attempt that there can be. -/
theorem doubling_grows_until_overflow :
    let p : RetryPolicy Host.counting := .exponential 5 (.ofMillis 1000)
    p.jitter.isPositive = false ∧ 1 ≤ p.multiplier.value ∧
      (p.plainDelay 1).nanos ≤ (p.plainDelay 1024).nanos ∧
      p.plainDelay 1 = .ofMillis 1000 ∧ p.plainDelay 1024 = .longest ∧ p.plainDelay 1025 = .zero ∧
      (p.plainDelay 4294967295).nanos ≤ (p.plainDelay 1).nanos ∧
      p.plainDelay 4294967295 = .ofMillis 250 := by
  intro p
  have hj : p.jitter.isPositive = false := rfl
  have htwo : p.multiplier = .finite false (2 ^ 52) (-51) := by decide +kernel
  have hm : 1 ≤ p.multiplier.value := by
    rw [htwo]
    exact WithTop.coe_le_coe.mpr (by norm_num : (1 : ℚ) ≤ (2 ^ 52 : Nat) * 2 ^ (-51 : Int))
  obtain ⟨-, hgrows, hlong, hwraps⟩ := backoff_grows_until_overflow p hj hm
  have hfirst : p.baseSeconds 1 = .finite false (2 ^ 52) (-52) := by decide +kernel
  have hlast : p.baseSeconds 1024 = .finite false (2 ^ 52) 971 := by decide +kernel
  have hover : p.baseSeconds 1025 = .infinite false := by decide +kernel
  have hmax : ((2 ^ 64 : ℚ) : WithTop ℚ) ≤ (p.baseSeconds 1024).value := by
    rw [hlast]
    refine WithTop.coe_le_coe.mpr ?_
    calc (2 ^ 64 : ℚ) = (2 ^ 52 : Nat) * 2 ^ (12 : Int) := by norm_num
      _ ≤ (2 ^ 52 : Nat) * 2 ^ (971 : Int) := by
        gcongr
        norm_num
  have hfinite : (p.baseSeconds 1).value ≠ ⊤ := by
    rw [hfirst]
    exact WithTop.coe_ne_top
  have hfinite' : (p.baseSeconds 1024).value ≠ ⊤ := by
    rw [hlast]
    exact WithTop.coe_ne_top
  refine ⟨hj, hm, (hgrows 1 1024 (by decide) (by decide) (.inl (by decide))).1 hfinite',
    by decide +kernel, hlong 1024 hmax hfinite', ?_,
    hwraps 1 4294967295 (by decide) (by decide) (by decide) hfinite, by decide +kernel⟩
  exact ((hgrows 1025 1025 le_rfl (by decide) (.inl (by decide))).2 (by rw [hover]; rfl)).2.1

end RetryPolicy

end ScopedEffects
