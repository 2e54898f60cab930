import ScopedEffects.Number.Binary64
import Mathlib.Data.Int.Log
import Mathlib.Tactic

/-! Rounding keeps the order. The value of a floating-point number is a rational, or above all of
them for the positive infinity. A ratio is rounded at the place that its leading power of two
decides: two ratios with the same place are rounded to multiples of one unit, and of two with
different places a power of two lies between the results. -/

namespace ScopedEffects

namespace Binary64

/-- What the number is worth, where it is not below zero. -/
def value : Binary64 → WithTop ℚ
  | infinite false => ⊤
  | finite false m e => ((m * 2 ^ e : ℚ) : WithTop ℚ)
  | _ => 0

/-- Is a number with the given sign. -/
inductive Signed (negative : Bool) : Binary64 → Prop where
  | infinite : Signed negative (.infinite negative)
  | finite (m : Nat) (e : Int) : Signed negative (.finite negative m e)

theorem value_finite (m : Nat) (e : Int) :
    (finite false m e).value = ((m * 2 ^ e : ℚ) : WithTop ℚ) := rfl

theorem value_nonneg (x : Binary64) : 0 ≤ x.value := by
  cases x with
  | nan => exact le_rfl
  | infinite negative =>
    cases negative
    · exact le_top
    · exact le_rfl
  | finite negative m e =>
    cases negative
    · rw [value_finite]
      exact_mod_cast (by positivity : (0 : ℚ) ≤ m * 2 ^ e)
    · exact le_rfl

theorem value_zero : (zero false).value = 0 := by
  rw [zero, value_finite, Nat.cast_zero, zero_mul]
  rfl

theorem value_of_minus {x : Binary64} (h : x.Signed true) : x.value = 0 := by
  cases h <;> rfl

theorem signed_of_pos {x : Binary64} (h : 0 < x.value) : x.Signed false := by
  cases x with
  | nan => exact absurd h (lt_irrefl _)
  | infinite negative =>
    cases negative
    · exact .infinite
    · exact absurd h (lt_irrefl _)
  | finite negative m e =>
    cases negative
    · exact .finite m e
    · exact absurd h (lt_irrefl _)

section RoundDiv

variable {num den num' den' : Nat}

/-- The quotient or the number after it: the nearer of the two, or the even one. -/
theorem roundDiv_cases (num den : Nat) :
    (roundDiv num den = num / den ∧
        (2 * (num % den) < den ∨ 2 * (num % den) = den ∧ num / den % 2 = 0)) ∨
      (roundDiv num den = num / den + 1 ∧
        (den < 2 * (num % den) ∨ 2 * (num % den) = den ∧ (num / den + 1) % 2 = 0)) := by
  simp only [roundDiv]
  split
  · exact .inl ⟨rfl, .inl ‹_›⟩
  · split
    · exact .inr ⟨rfl, .inl ‹_›⟩
    · have tie : 2 * (num % den) = den := by omega
      split
      · exact .inl ⟨rfl, .inr ⟨tie, ‹_›⟩⟩
      · exact .inr ⟨rfl, .inr ⟨tie, by omega⟩⟩

/-- At most half a unit off, and even where it is exactly half a unit. -/
theorem roundDiv_near (num : Nat) (h : 0 < den) :
    ((num : ℚ) / den ≤ roundDiv num den + 1 / 2 ∧ (roundDiv num den : ℚ) - 1 / 2 ≤ num / den) ∧
      (((num : ℚ) / den = roundDiv num den + 1 / 2 ∨ (num : ℚ) / den = roundDiv num den - 1 / 2) →
        roundDiv num den % 2 = 0) := by
  have hden : (0 : ℚ) < den := by exact_mod_cast h
  have hrest : ((num % den : Nat) : ℚ) < den := by exact_mod_cast Nat.mod_lt num h
  have hnonneg : (0 : ℚ) ≤ (num % den : Nat) := Nat.cast_nonneg _
  have hnum : (num : ℚ) = den * (num / den : Nat) + (num % den : Nat) := by
    exact_mod_cast (Nat.div_add_mod num den).symm
  rw [div_le_iff₀ hden, le_div_iff₀ hden, div_eq_iff hden.ne', div_eq_iff hden.ne', hnum]
  rcases roundDiv_cases num den with ⟨hr, hlow | ⟨htie, heven⟩⟩ | ⟨hr, hhigh | ⟨htie, heven⟩⟩ <;>
    rw [hr]
  · have hlow : 2 * ((num % den : Nat) : ℚ) < den := by exact_mod_cast hlow
    refine ⟨⟨by linarith, by linarith⟩, ?_⟩
    rintro (half | half) <;> linarith
  · have htie : 2 * ((num % den : Nat) : ℚ) = den := by exact_mod_cast htie
    exact ⟨⟨by linarith, by linarith⟩, fun _ => heven⟩
  · have hhigh : (den : ℚ) < 2 * (num % den : Nat) := by exact_mod_cast hhigh
    push_cast
    refine ⟨⟨by linarith, by linarith⟩, ?_⟩
    rintro (half | half) <;> linarith
  · have htie : 2 * ((num % den : Nat) : ℚ) = den := by exact_mod_cast htie
    push_cast
    exact ⟨⟨by linarith, by linarith⟩, fun _ => heven⟩

theorem roundDiv_mono (h : 0 < den) (h' : 0 < den') (hle : (num : ℚ) / den ≤ num' / den') :
    roundDiv num den ≤ roundDiv num' den' := by
  by_contra hlt
  have hsucc : ((roundDiv num' den' + 1 : Nat) : ℚ) ≤ roundDiv num den := by
    exact_mod_cast not_le.mp hlt
  obtain ⟨⟨-, hlow⟩, heven⟩ := roundDiv_near num h
  obtain ⟨⟨hhigh', -⟩, heven'⟩ := roundDiv_near num' h'
  push_cast at hsucc
  -- both ratios lie halfway between the two results, and only one of those is even
  have hnext : (roundDiv num den : ℚ) = roundDiv num' den' + 1 := by linarith
  have even := heven (.inr (by linarith))
  have even' := heven' (.inl (by linarith))
  have : roundDiv num den = roundDiv num' den' + 1 := by exact_mod_cast hnext
  omega

/-- A natural number is its own rounding, so it bounds what is rounded on its side. -/
theorem roundDiv_le_of_le {r : Nat} (h : 0 < den) (hle : (num : ℚ) / den ≤ r) :
    roundDiv num den ≤ r := by
  have hself : roundDiv r 1 = r := by simp [roundDiv, Nat.mod_one]
  calc roundDiv num den ≤ roundDiv r 1 := roundDiv_mono h one_pos (by simpa using hle)
    _ = r := hself

theorem le_roundDiv_of_le {r : Nat} (h : 0 < den) (hle : (r : ℚ) ≤ num / den) :
    r ≤ roundDiv num den := by
  have hself : roundDiv r 1 = r := by simp [roundDiv, Nat.mod_one]
  calc r = roundDiv r 1 := hself.symm
    _ ≤ roundDiv num den := roundDiv_mono one_pos h (by simpa using hle)

end RoundDiv

section FloorLog

variable {num den num' den' : Nat}

theorem log2_bounds {n : Nat} (h : n ≠ 0) :
    (2 : ℚ) ^ (n.log2 : Int) ≤ n ∧ (n : ℚ) < 2 ^ ((n.log2 : Int) + 1) := by
  constructor
  · rw [zpow_natCast]
    exact_mod_cast Nat.log2_self_le h
  · have : n < 2 ^ (n.log2 + 1) := Nat.lt_log2_self
    exact_mod_cast this

theorem pow_toNat (e : Int) (h : 0 ≤ e) : ((2 ^ e.toNat : Nat) : ℚ) = 2 ^ e := by
  rw [Nat.cast_pow, Nat.cast_ofNat, ← zpow_natCast, Int.toNat_of_nonneg h]

theorem floorLog_bounds (hnum : num ≠ 0) (hden : 0 < den) :
    (2 : ℚ) ^ floorLog num den ≤ num / den ∧ (num : ℚ) / den < 2 ^ (floorLog num den + 1) := by
  have hpos : (0 : ℚ) < den := by exact_mod_cast hden
  obtain ⟨hn, hn'⟩ := log2_bounds hnum
  obtain ⟨hd, hd'⟩ := log2_bounds hden.ne'
  set guess : Int := (num.log2 : Int) - den.log2 with hguess
  have hlow : (2 : ℚ) ^ (guess - 1) ≤ num / den := by
    rw [le_div_iff₀ hpos]
    calc (2 : ℚ) ^ (guess - 1) * den ≤ 2 ^ (guess - 1) * 2 ^ ((den.log2 : Int) + 1) := by gcongr
      _ = 2 ^ (num.log2 : Int) := by rw [← zpow_add₀ two_ne_zero]; congr 1; omega
      _ ≤ num := hn
  have hhigh : (num : ℚ) / den < 2 ^ (guess + 1) := by
    rw [div_lt_iff₀ hpos]
    calc (num : ℚ) < 2 ^ ((num.log2 : Int) + 1) := hn'
      _ = 2 ^ (guess + 1) * 2 ^ (den.log2 : Int) := by
        rw [← zpow_add₀ two_ne_zero]; congr 1; omega
      _ ≤ 2 ^ (guess + 1) * den := by gcongr
  have henough : (if 0 ≤ guess then den * Nat.pow 2 guess.toNat ≤ num
      else den ≤ num * Nat.pow 2 (-guess).toNat) ↔ (2 : ℚ) ^ guess ≤ num / den := by
    rw [le_div_iff₀ hpos]
    split
    · rename_i h
      rw [← pow_toNat guess h, mul_comm]
      exact_mod_cast Iff.rfl
    · rename_i h
      have hneg : (2 : ℚ) ^ guess * 2 ^ (-guess) = 1 := by
        rw [← zpow_add₀ two_ne_zero, add_neg_cancel, zpow_zero]
      have hup : (0 : ℚ) < 2 ^ (-guess) := by positivity
      rw [← mul_le_mul_iff_of_pos_right hup, mul_right_comm, hneg, one_mul,
        ← pow_toNat (-guess) (by omega)]
      exact_mod_cast Iff.rfl
  simp only [floorLog, ← hguess, henough]
  split
  · exact ⟨‹_›, hhigh⟩
  · rw [sub_add_cancel]
    exact ⟨hlow, not_le.mp ‹_›⟩

theorem floorLog_eq_log (hnum : num ≠ 0) (hden : 0 < den) :
    floorLog num den = Int.log 2 (num / den : ℚ) := by
  have hpos : (0 : ℚ) < num / den := by positivity
  obtain ⟨hlow, hhigh⟩ := floorLog_bounds hnum hden
  have hle := (Int.zpow_le_iff_le_log one_lt_two hpos).mp (by exact_mod_cast hlow)
  have hlt := (Int.lt_zpow_iff_log_lt one_lt_two hpos).mp (by exact_mod_cast hhigh)
  omega

end FloorLog

/-- What a rational is worth as a number: from `2 ^ 1024` on it is infinite. -/
def clip (q : ℚ) : WithTop ℚ := if 2 ^ (1024 : Int) ≤ q then ⊤ else q

theorem clip_mono {q q' : ℚ} (h : q ≤ q') : clip q ≤ clip q' := by
  unfold clip
  split
  · rename_i hq
    rw [if_pos (hq.trans h)]
  · split
    · exact le_top
    · exact WithTop.coe_le_coe.mpr h

theorem clip_of_le {m : Nat} {e : Int} (hm : m < 2 ^ 53) (he : e ≤ 971) :
    clip (m * 2 ^ e) = ((m * 2 ^ e : ℚ) : WithTop ℚ) := by
  refine if_neg (not_le.mpr ?_)
  calc (m : ℚ) * 2 ^ e < 2 ^ (53 : Int) * 2 ^ e := by
        gcongr
        exact_mod_cast hm
    _ ≤ 2 ^ (53 : Int) * 2 ^ (971 : Int) := by
        gcongr
        norm_num
    _ = 2 ^ (1024 : Int) := by rw [← zpow_add₀ two_ne_zero]; rfl

theorem clip_of_ge {m : Nat} {e : Int} (hm : 2 ^ 52 ≤ m) (he : 971 < e) :
    clip (m * 2 ^ e) = ⊤ := by
  refine if_pos ?_
  calc (2 : ℚ) ^ (1024 : Int) = 2 ^ (52 : Int) * 2 ^ (972 : Int) := by
        rw [← zpow_add₀ two_ne_zero]; rfl
    _ ≤ 2 ^ (52 : Int) * 2 ^ e := by
        gcongr
        · norm_num
        · omega
    _ ≤ m * 2 ^ e := by
        gcongr
        exact_mod_cast hm

/-- The largest mantissa is one bit too wide, and stands for the least one at the next exponent. -/
theorem mantissa_carry (e : Int) :
    ((2 ^ 53 : Nat) : ℚ) * 2 ^ e = (2 ^ 52 : Nat) * 2 ^ (e + 1) := by
  rw [zpow_add_one₀ two_ne_zero]
  push_cast
  ring

theorem value_pack {m : Nat} {e : Int} (hm : m ≤ 2 ^ 53) (hfull : 971 < e → 2 ^ 52 ≤ m) :
    (pack false m e).value = clip (m * 2 ^ e) := by
  have hpack : ∀ {m : Nat} {e : Int}, m < 2 ^ 53 → (971 < e → 2 ^ 52 ≤ m) →
      (if 971 < e then infinite false else finite false m e).value = clip (m * 2 ^ e) := by
    intro m e hm hfull
    split
    · exact (clip_of_ge (hfull ‹_›) ‹_›).symm
    · exact (clip_of_le hm (not_lt.mp ‹_›)).symm
  by_cases h : m = 2 ^ 53
  · rw [h, mantissa_carry, ← hpack (by norm_num) fun _ => le_rfl]
    rfl
  · have hlt : m < 2 ^ 53 := lt_of_le_of_ne hm h
    rw [← hpack hlt hfull]
    simp only [pack, Nat.pow_eq, if_neg h]

/-- The exponent of the last bit that a positive rational keeps. -/
def lastPlace (q : ℚ) : Int := max (Int.log 2 q - 52) (-1074)

theorem lastPlace_mono {q q' : ℚ} (hq : 0 < q) (h : q ≤ q') : lastPlace q ≤ lastPlace q' := by
  have := Int.log_mono_right (b := 2) hq h
  unfold lastPlace
  omega

theorem div_lastPlace_le (q : ℚ) : q / 2 ^ lastPlace q ≤ (2 ^ 53 : Nat) := by
  have hunit : (0 : ℚ) < 2 ^ lastPlace q := by positivity
  have hhigh : q < ((2 : Nat) : ℚ) ^ (Int.log 2 q + 1) := Int.lt_zpow_succ_log_self one_lt_two q
  rw [div_le_iff₀ hunit]
  have hexp : Int.log 2 q + 1 ≤ 53 + lastPlace q := by
    unfold lastPlace
    omega
  calc q ≤ 2 ^ (Int.log 2 q + 1) := by exact_mod_cast hhigh.le
    _ ≤ 2 ^ ((53 : Int) + lastPlace q) := zpow_le_zpow_right₀ one_le_two hexp
    _ = (2 ^ 53 : Nat) * 2 ^ lastPlace q := by rw [zpow_add₀ two_ne_zero]; norm_num

theorem le_div_lastPlace {q : ℚ} (hq : 0 < q) (h : -1074 < lastPlace q) :
    ((2 ^ 52 : Nat) : ℚ) ≤ q / 2 ^ lastPlace q := by
  have hunit : (0 : ℚ) < 2 ^ lastPlace q := by positivity
  have hlow : ((2 : Nat) : ℚ) ^ Int.log 2 q ≤ q := Int.zpow_log_le_self one_lt_two hq
  have hlast : (52 : Int) + lastPlace q = Int.log 2 q := by
    unfold lastPlace at h ⊢
    omega
  rw [le_div_iff₀ hunit]
  calc ((2 ^ 52 : Nat) : ℚ) * 2 ^ lastPlace q = 2 ^ Int.log 2 q := by
        rw [← hlast, zpow_add₀ two_ne_zero]; norm_num
    _ ≤ q := by exact_mod_cast hlow

section OfRatio

variable {num den num' den' : Nat}

/-- A positive ratio is rounded to a multiple of its last place. -/
theorem ofRatio_eq (negative : Bool) (hnum : num ≠ 0) (hden : 0 < den) :
    ∃ a b : Nat, 0 < b ∧ (a : ℚ) / b = num / den / 2 ^ lastPlace (num / den) ∧
      ofRatio negative num den = pack negative (roundDiv a b) (lastPlace (num / den)) := by
  have hlast : max (floorLog num den - 52) (-1074) = lastPlace (num / den) := by
    rw [floorLog_eq_log hnum hden, lastPlace]
  simp only [ofRatio, if_neg hnum, hlast]
  split
  · rename_i h
    refine ⟨num, den * 2 ^ (lastPlace (num / den)).toNat, by positivity, ?_, rfl⟩
    rw [Nat.cast_mul, pow_toNat _ h, div_div]
  · rename_i h
    refine ⟨num * 2 ^ (-lastPlace (num / den)).toNat, den, hden, ?_, rfl⟩
    rw [Nat.cast_mul, pow_toNat _ (by omega), zpow_neg]
    field_simp

theorem value_ofRatio (hnum : num ≠ 0) (hden : 0 < den) :
    ∃ m : Nat, (ofRatio false num den).value = clip (m * 2 ^ lastPlace (num / den)) ∧
      m ≤ 2 ^ 53 ∧ (-1074 < lastPlace (num / den : ℚ) → 2 ^ 52 ≤ m) ∧
      ∃ a b : Nat, 0 < b ∧ (a : ℚ) / b = num / den / 2 ^ lastPlace (num / den) ∧
        m = roundDiv a b := by
  have hpos : (0 : ℚ) < num / den := by positivity
  obtain ⟨a, b, hb, hab, heq⟩ := ofRatio_eq false hnum hden
  have hhigh : roundDiv a b ≤ 2 ^ 53 := roundDiv_le_of_le hb (hab ▸ div_lastPlace_le _)
  have hlow : -1074 < lastPlace (num / den : ℚ) → 2 ^ 52 ≤ roundDiv a b := fun h =>
    le_roundDiv_of_le hb (hab ▸ le_div_lastPlace hpos h)
  refine ⟨roundDiv a b, ?_, hhigh, hlow, a, b, hb, hab, rfl⟩
  rw [heq, value_pack hhigh fun h => hlow (by omega)]

theorem ofRatio_mono (hden : 0 < den) (hden' : 0 < den') (hle : (num : ℚ) / den ≤ num' / den') :
    (ofRatio false num den).value ≤ (ofRatio false num' den').value := by
  rcases Nat.eq_zero_or_pos num with rfl | hnum
  · calc (ofRatio false 0 den).value = 0 := value_zero
      _ ≤ _ := value_nonneg _
  have hpos : (0 : ℚ) < num / den := by positivity
  have hnum' : num' ≠ 0 := by
    rintro rfl
    rw [Nat.cast_zero, zero_div] at hle
    exact absurd hpos (not_lt.mpr hle)
  obtain ⟨m, hvalue, hm, -, a, b, hb, hab, rfl⟩ := value_ofRatio hnum.ne' hden
  obtain ⟨m', hvalue', -, hm', a', b', hb', hab', rfl⟩ := value_ofRatio hnum' hden'
  rw [hvalue, hvalue']
  apply clip_mono
  rcases (lastPlace_mono hpos hle).eq_or_lt with heq | hlt
  · -- at one place, the quotients are in order
    have hquot : (a : ℚ) / b ≤ a' / b' := by
      rw [hab, hab', heq]
      gcongr
    rw [heq]
    gcongr
    exact roundDiv_mono hb hb' hquot
  · -- the next power of two lies between two places
    have hfull := hm' (lt_of_le_of_lt (le_max_right _ _) hlt)
    calc (roundDiv a b : ℚ) * 2 ^ lastPlace (num / den)
        ≤ (2 ^ 53 : Nat) * 2 ^ lastPlace (num / den) := by gcongr
      _ = (2 ^ 52 : Nat) * 2 ^ (lastPlace (num / den) + 1) := by
          rw [zpow_add_one₀ two_ne_zero]
          push_cast
          ring
      _ ≤ (2 ^ 52 : Nat) * 2 ^ lastPlace (num' / den') := by
          gcongr
          · norm_num
          · omega
      _ ≤ roundDiv a' b' * 2 ^ lastPlace (num' / den') := by gcongr

theorem signed_pack (negative : Bool) (m : Nat) (e : Int) :
    (pack negative m e).Signed negative := by
  unfold pack
  split
  split
  · exact .infinite
  · exact .finite _ _

theorem signed_ofRatio (negative : Bool) (num den : Nat) :
    (ofRatio negative num den).Signed negative := by
  rcases Nat.eq_zero_or_pos num with rfl | hnum
  · exact .finite 0 (-1074)
  · simp only [ofRatio, if_neg hnum.ne']
    exact signed_pack _ _ _

end OfRatio

section OfDyadic

theorem log_dyadic {m : Nat} {e : Int} (hm : m ≠ 0) :
    Int.log 2 (m * 2 ^ e : ℚ) = m.log2 + e := by
  have hpos : (0 : ℚ) < m * 2 ^ e := by positivity
  obtain ⟨hlow, hhigh⟩ := log2_bounds hm
  have hle : (2 : ℚ) ^ (m.log2 + e) ≤ m * 2 ^ e := by
    rw [zpow_add₀ two_ne_zero]
    gcongr
  have hlt : (m * 2 ^ e : ℚ) < 2 ^ (m.log2 + e + 1) := by
    rw [add_right_comm, zpow_add₀ two_ne_zero]
    gcongr
  have := (Int.zpow_le_iff_le_log one_lt_two hpos).mp (by exact_mod_cast hle)
  have := (Int.lt_zpow_iff_log_lt one_lt_two hpos).mp (by exact_mod_cast hlt)
  omega

/-- A product with a power of two is rounded as a ratio, where its size does not decide. -/
theorem ofDyadic_cases (negative : Bool) {m : Nat} {e : Int} (hm : m ≠ 0) :
    (Int.log 2 (m * 2 ^ e : ℚ) < -1080 ∧ ofDyadic negative m e = zero negative) ∨
      (1030 < Int.log 2 (m * 2 ^ e : ℚ) ∧ ofDyadic negative m e = infinite negative) ∨
      (-1080 ≤ Int.log 2 (m * 2 ^ e : ℚ) ∧ Int.log 2 (m * 2 ^ e : ℚ) ≤ 1030 ∧
        ∃ a b : Nat, a ≠ 0 ∧ 0 < b ∧ (a : ℚ) / b = m * 2 ^ e ∧
          ofDyadic negative m e = ofRatio negative a b) := by
  rw [log_dyadic hm]
  simp only [ofDyadic, hm, decide_false, Bool.false_or, decide_eq_true_eq]
  split
  · exact .inl ⟨‹_›, rfl⟩
  · split
    · exact .inr (.inl ⟨‹_›, rfl⟩)
    · refine .inr (.inr ⟨not_lt.mp ‹_›, not_lt.mp ‹_›, ?_⟩)
      split
      · rename_i h
        refine ⟨m * 2 ^ e.toNat, 1, by positivity, one_pos, ?_, rfl⟩
        rw [Nat.cast_mul, pow_toNat e h, Nat.cast_one, div_one]
      · rename_i h
        refine ⟨m, 2 ^ (-e).toNat, hm, by positivity, ?_, rfl⟩
        rw [pow_toNat (-e) (by omega), zpow_neg, div_inv_eq_mul]

theorem ofDyadic_mono {m m' : Nat} {e e' : Int} (hle : (m * 2 ^ e : ℚ) ≤ m' * 2 ^ e') :
    (ofDyadic false m e).value ≤ (ofDyadic false m' e').value := by
  rcases Nat.eq_zero_or_pos m with rfl | hm
  · calc (ofDyadic false 0 e).value = 0 := value_zero
      _ ≤ _ := value_nonneg _
  have hpos : (0 : ℚ) < m * 2 ^ e := by positivity
  have hm' : m' ≠ 0 := by
    rintro rfl
    rw [Nat.cast_zero, zero_mul] at hle
    exact absurd hpos (not_lt.mpr hle)
  have hlog := Int.log_mono_right (b := 2) hpos hle
  rcases ofDyadic_cases false (e := e') hm' with
    ⟨hlow', -⟩ | ⟨-, heq'⟩ | ⟨-, hhigh', a', b', -, hb', hab', heq'⟩
  · rcases ofDyadic_cases false (e := e) hm.ne' with ⟨-, heq⟩ | ⟨hhigh, -⟩ | ⟨hlow, -⟩
    · rw [heq, value_zero]
      exact value_nonneg _
    · omega
    · omega
  · rw [heq']
    exact le_top
  · rcases ofDyadic_cases false (e := e) hm.ne' with
      ⟨-, heq⟩ | ⟨hhigh, -⟩ | ⟨-, -, a, b, -, hb, hab, heq⟩
    · rw [heq, value_zero]
      exact value_nonneg _
    · omega
    · rw [heq, heq']
      exact ofRatio_mono hb hb' (by rw [hab, hab']; exact hle)

/-- The rational is the value of a finite number. -/
def Fits (q : ℚ) : Prop :=
  ∃ (n : Nat) (f : Int), n < 2 ^ 53 ∧ -1074 ≤ f ∧ f ≤ 971 ∧ q = n * 2 ^ f

/-- What fits is not changed by rounding. -/
theorem value_ofDyadic_of_fits {m : Nat} {e : Int} (h : Fits (m * 2 ^ e)) :
    (ofDyadic false m e).value = ((m * 2 ^ e : ℚ) : WithTop ℚ) := by
  obtain ⟨n, f, hn, hlow, hhigh, heq⟩ := h
  rcases Nat.eq_zero_or_pos m with rfl | hm
  · rw [Nat.cast_zero, zero_mul]
    exact value_zero
  have hpos : (0 : ℚ) < m * 2 ^ e := by positivity
  have hnpos : 0 < n := by
    rw [heq] at hpos
    exact_mod_cast pos_of_mul_pos_left hpos (by positivity)
  have hlog : Int.log 2 (m * 2 ^ e : ℚ) = n.log2 + f := by rw [heq, log_dyadic hnpos.ne']
  have hlog2 : n.log2 < 53 := (Nat.log2_lt hnpos.ne').mpr hn
  rcases ofDyadic_cases false (e := e) hm.ne' with
    ⟨hout, -⟩ | ⟨hout, -⟩ | ⟨-, -, a, b, ha, hb, hab, hr⟩
  · omega
  · omega
  obtain ⟨k, hvalue, -, -, c, d, hd, hcd, rfl⟩ := value_ofRatio ha hb
  rw [hab] at hvalue hcd
  set place := lastPlace (m * 2 ^ e) with hplace
  have hle : place ≤ f := by
    rw [hplace, lastPlace, hlog]
    omega
  -- the number of last places is natural, and rounding leaves it as it is
  have hwhole : (c : ℚ) / d = (n * 2 ^ (f - place).toNat : Nat) := by
    rw [hcd, heq, div_eq_iff (by positivity), Nat.cast_mul, pow_toNat _ (by omega), mul_assoc,
      ← zpow_add₀ two_ne_zero, sub_add_cancel]
  have hround : roundDiv c d = n * 2 ^ (f - place).toNat :=
    le_antisymm (roundDiv_le_of_le hd hwhole.le) (le_roundDiv_of_le hd hwhole.ge)
  have hback : ((roundDiv c d : Nat) : ℚ) * 2 ^ place = n * 2 ^ f := by
    rw [hround, ← hwhole, hcd, heq, div_mul_cancel₀ _ (by positivity)]
  rw [hr, hvalue, hback, heq]
  exact clip_of_le hn hhigh

theorem Fits.clip_eq {q : ℚ} (h : Fits q) : clip q = q := by
  obtain ⟨n, f, hn, -, hf, rfl⟩ := h
  exact clip_of_le hn hf

/-- A number of last places fits, or is clipped. -/
theorem clip_or_fits {k : Nat} {p : Int} (hk : k ≤ 2 ^ 53) (hlow : -1074 ≤ p)
    (hfull : 971 < p → 2 ^ 52 ≤ k) : clip (k * 2 ^ p) = ⊤ ∨ Fits (k * 2 ^ p) := by
  rcases hk.lt_or_eq with hlt | rfl
  · rcases le_or_gt p 971 with hp | hp
    · exact .inr ⟨k, p, hlt, hlow, hp, rfl⟩
    · exact .inl (clip_of_ge (hfull hp) hp)
  · rw [mantissa_carry]
    rcases le_or_gt (p + 1) 971 with hp | hp
    · exact .inr ⟨2 ^ 52, p + 1, by norm_num, by omega, hp, rfl⟩
    · exact .inl (clip_of_ge le_rfl hp)

/-- What has been rounded fits, or is infinite. -/
theorem fits_ofDyadic (m : Nat) (e : Int) :
    (ofDyadic false m e).value = ⊤ ∨ ∃ q : ℚ, Fits q ∧ (ofDyadic false m e).value = q := by
  have hzero : ∃ q : ℚ, Fits q ∧ (zero false).value = q :=
    ⟨0, ⟨0, 0, by norm_num, by norm_num, by norm_num, by norm_num⟩, value_zero⟩
  rcases Nat.eq_zero_or_pos m with rfl | hm
  · exact .inr hzero
  rcases ofDyadic_cases false (e := e) hm.ne' with
    ⟨-, hr⟩ | ⟨-, hr⟩ | ⟨-, -, a, b, ha, hb, -, hr⟩ <;> rw [hr]
  · exact .inr hzero
  · exact .inl rfl
  · obtain ⟨k, hvalue, hk, hfull, -⟩ := value_ofRatio ha hb
    have hlow : -1074 ≤ lastPlace (a / b) := le_max_right _ _
    rw [hvalue]
    refine (clip_or_fits hk hlow fun hp => hfull (by omega)).imp_right fun hfits => ?_
    exact ⟨_, hfits, hfits.clip_eq⟩

theorem signed_ofDyadic (negative : Bool) (m : Nat) (e : Int) :
    (ofDyadic negative m e).Signed negative := by
  rcases Nat.eq_zero_or_pos m with rfl | hm
  · exact .finite 0 (-1074)
  rcases ofDyadic_cases negative (e := e) hm.ne' with
    ⟨-, heq⟩ | ⟨-, heq⟩ | ⟨-, -, a, b, -, -, -, heq⟩ <;> rw [heq]
  · exact .finite 0 (-1074)
  · exact .infinite
  · exact signed_ofRatio negative a b

end OfDyadic

section Mul

variable {x y z : Binary64}

theorem value_pos_iff {m : Nat} {e : Int} : 0 < (finite false m e).value ↔ m ≠ 0 := by
  rw [value_finite, ← Nat.pos_iff_ne_zero]
  constructor
  · intro h
    have h : (0 : ℚ) < m * 2 ^ e := by exact_mod_cast h
    exact_mod_cast pos_of_mul_pos_left h (by positivity)
  · intro h
    exact_mod_cast (by positivity : (0 : ℚ) < m * 2 ^ e)

theorem mul_finite (s t : Bool) (m n : Nat) (e f : Int) :
    (finite s m e).mul (finite t n f) = ofDyadic (s != t) (m * n) (e + f) := rfl

theorem infinite_mul (s t : Bool) (n : Nat) (f : Int) :
    (infinite s).mul (finite t n f) = if n = 0 then nan else infinite (s != t) := rfl

theorem mul_infinite (s t : Bool) (m : Nat) (e : Int) :
    (finite s m e).mul (infinite t) = if m = 0 then nan else infinite (s != t) := rfl

theorem value_mul_of_minus (hx : x.Signed true) (hy : y.Signed false) : (x.mul y).value = 0 := by
  cases hx with
  | infinite =>
    cases hy with
    | infinite => rfl
    | finite n f =>
      rw [infinite_mul]
      split <;> rfl
  | finite m e =>
    cases hy with
    | infinite =>
      rw [mul_infinite]
      split <;> rfl
    | finite n f => exact value_of_minus (signed_ofDyadic true (m * n) (e + f))

/-- An infinite factor decides, unless the other one is zero. -/
theorem value_infinite_mul (hy : y.Signed false) :
    ((infinite false).mul y).value = if y.value = 0 then 0 else ⊤ := by
  cases hy with
  | infinite => rfl
  | finite n f =>
    rw [infinite_mul]
    by_cases hn : n = 0
    · rw [if_pos hn, hn, value_finite, Nat.cast_zero, zero_mul]
      rfl
    · rw [if_neg hn, if_neg (value_pos_iff.mpr hn).ne']
      rfl

theorem value_finite_mul_mono {m : Nat} {e : Int} (hy : y.Signed false) (hz : z.Signed false)
    (h : y.value ≤ z.value) :
    ((finite false m e).mul y).value ≤ ((finite false m e).mul z).value := by
  by_cases hm : m = 0
  · have hzero : ((finite false m e).mul y).value = 0 := by
      rw [hm]
      cases hy with
      | infinite => rfl
      | finite n f =>
        rw [mul_finite, Nat.zero_mul]
        exact value_zero
    rw [hzero]
    exact value_nonneg _
  · cases hz with
    | infinite =>
      rw [mul_infinite, if_neg hm]
      exact le_top
    | finite n' f' =>
      cases hy with
      | infinite => exact absurd (top_le_iff.mp h) (WithTop.coe_ne_top)
      | finite n f =>
        have hle : (n * 2 ^ f : ℚ) ≤ n' * 2 ^ f' := WithTop.coe_le_coe.mp h
        refine ofDyadic_mono ?_
        calc ((m * n : Nat) : ℚ) * 2 ^ (e + f) = m * 2 ^ e * (n * 2 ^ f) := by
              rw [zpow_add₀ two_ne_zero]; push_cast; ring
          _ ≤ m * 2 ^ e * (n' * 2 ^ f') := by gcongr
          _ = ((m * n' : Nat) : ℚ) * 2 ^ (e + f') := by
              rw [zpow_add₀ two_ne_zero]; push_cast; ring

/-- The value of a product grows with an unsigned factor, whatever the other factor is. -/
theorem mul_mono (x : Binary64) (hy : y.Signed false) (hz : z.Signed false)
    (h : y.value ≤ z.value) : (x.mul y).value ≤ (x.mul z).value := by
  cases x with
  | nan => cases hy <;> cases hz <;> exact le_rfl
  | infinite negative =>
    cases negative with
    | true => rw [value_mul_of_minus .infinite hy, value_mul_of_minus .infinite hz]
    | false =>
      rw [value_infinite_mul hy, value_infinite_mul hz]
      split
      · split
        · exact le_rfl
        · exact le_top
      · rename_i hpos
        have hpos : 0 < y.value := lt_of_le_of_ne (value_nonneg y) (Ne.symm hpos)
        have hzpos : z.value ≠ 0 := (lt_of_lt_of_le hpos h).ne'
        rw [if_neg hzpos]
  | finite negative m e =>
    cases negative with
    | true => rw [value_mul_of_minus (.finite m e) hy, value_mul_of_minus (.finite m e) hz]
    | false => exact value_finite_mul_mono hy hz h

end Mul

section Recip

variable {x y : Binary64}

theorem magnitude_eq (m : Nat) (e : Int) :
    0 < (magnitude m e).2 ∧ ((magnitude m e).1 : ℚ) / (magnitude m e).2 = m * 2 ^ e := by
  simp only [magnitude]
  split
  · rename_i h
    refine ⟨one_pos, ?_⟩
    rw [Nat.cast_one, div_one, Nat.cast_mul]
    exact congrArg _ (pow_toNat e h)
  · rename_i h
    have hden : (((2 : Nat).pow (-e).toNat : Nat) : ℚ) = 2 ^ (-e) := pow_toNat (-e) (by omega)
    refine ⟨Nat.pow_pos two_pos, ?_⟩
    rw [hden, zpow_neg, div_inv_eq_mul]

/-- A quotient of finite numbers is the quotient of their values, rounded. -/
theorem div_finite (s t : Bool) (m : Nat) {n : Nat} (e f : Int) (hn : n ≠ 0) :
    ∃ a b : Nat, 0 < b ∧ (a : ℚ) / b = m * 2 ^ e / (n * 2 ^ f) ∧
      (finite s m e).div (finite t n f) = ofRatio (s != t) a b := by
  obtain ⟨hb, hab⟩ := magnitude_eq m e
  obtain ⟨hd, hcd⟩ := magnitude_eq n f
  have hpos : (0 : ℚ) < n * 2 ^ f := by positivity
  have hd' : (0 : ℚ) < (magnitude n f).2 := by exact_mod_cast hd
  have hc : 0 < (magnitude n f).1 := by
    rw [← hcd] at hpos
    exact_mod_cast (div_pos_iff_of_pos_right hd').mp hpos
  refine ⟨(magnitude m e).1 * (magnitude n f).2, (magnitude m e).2 * (magnitude n f).1,
    Nat.mul_pos hb hc, ?_, ?_⟩
  · rw [← hab, ← hcd, div_div_div_eq]
    push_cast
    rfl
  · simp only [div, if_neg hn]

theorem one_eq : one = finite false (2 ^ 52) (-52) := by decide +kernel

theorem value_one : one.value = 1 := by
  have h : (((2 ^ 52 : Nat) : ℚ) * 2 ^ (-52 : Int)) = 1 := by norm_num
  rw [one_eq, value_finite, h]
  rfl

/-- The reciprocal of a positive number shrinks as the number grows. -/
theorem recip_anti (hx : 0 < x.value) (h : x.value ≤ y.value) : y.recip.value ≤ x.recip.value := by
  have hy := signed_of_pos (lt_of_lt_of_le hx h)
  have hx' := signed_of_pos hx
  unfold recip
  rw [one_eq]
  cases hy with
  | infinite =>
    calc ((finite false (2 ^ 52) (-52)).div (infinite false)).value = 0 := value_zero
      _ ≤ _ := value_nonneg _
  | finite n f =>
    cases hx' with
    | infinite => exact absurd (top_le_iff.mp h) WithTop.coe_ne_top
    | finite m e =>
      have hm := value_pos_iff.mp hx
      have hn := value_pos_iff.mp (lt_of_lt_of_le hx h)
      obtain ⟨a, b, hb, hab, heq⟩ := div_finite false false (2 ^ 52) (-52) e hm
      obtain ⟨c, d, hd, hcd, heq'⟩ := div_finite false false (2 ^ 52) (-52) f hn
      have hpos : (0 : ℚ) < m * 2 ^ e := by positivity
      have hle : (m * 2 ^ e : ℚ) ≤ n * 2 ^ f := WithTop.coe_le_coe.mp h
      rw [heq, heq']
      refine ofRatio_mono hd hb ?_
      rw [hab, hcd]
      gcongr

theorem signed_recip (hx : 0 < x.value) : x.recip.Signed false := by
  have hx' := signed_of_pos hx
  unfold recip
  rw [one_eq]
  cases hx' with
  | infinite => exact .finite 0 (-1074)
  | finite m e =>
    obtain ⟨a, b, -, -, heq⟩ := div_finite false false (2 ^ 52) (-52) e (value_pos_iff.mp hx)
    rw [heq]
    exact signed_ofRatio false a b

end Recip

end Binary64

end ScopedEffects
