import Mathlib.Algebra.Order.Field.Power
import Mathlib.Data.Nat.Cast.Order.Field
import Mathlib.Data.Nat.Log
import Mathlib.Tactic.FieldSimp
import Mathlib.Tactic.IntervalCases
import Mathlib.Tactic.Linarith
import Mathlib.Tactic.Positivity
import Mathlib.Tactic.Ring
import Sand.Protocol.Drops

/-!
# Rounding

Products and quotients of amounts beside the exact rational ones.
-/

namespace Sand.STAmount

open Nat

def sign (negative : Bool) : ℚ := if negative then -1 else 1

def value (a : STAmount) : ℚ := sign a.negative * (a.mantissa.toNat * 10 ^ a.exponent)

/-- An amount as `canonicalize` leaves it. -/
structure Canonical (a : STAmount) : Prop where
  native : a.native → a.exponent = 0 ∧ a.mantissa.toNat ≤ cMaxNativeN ∧
    (a.mantissa = 0 → a.negative = false)
  issued : a.native = false → a.mantissa = 0 ∧ a.exponent = -100 ∧ a.negative = false ∨
    (cMinValue ≤ a.mantissa.toNat ∧ a.mantissa.toNat ≤ cMaxValue) ∧
      cMinOffset ≤ a.exponent ∧ a.exponent ≤ cMaxOffset

/-- A throw for a large result, zero for a small one, or the result up to one unit in the last
place. -/
def Accurate (exact : ℚ) : Except Fault STAmount → Prop
  | .error _ => cMaxValue * 10 ^ cMaxOffset < |exact|
  | .ok r => r.mantissa = 0 ∧ |exact| < cMinValue * 10 ^ cMinOffset ∨
      r.Canonical ∧ 0 < r.value * exact ∧ |r.value - exact| < 10 ^ r.exponent

theorem sign_mul_self (neg : Bool) : sign neg * sign neg = 1 := by
  cases neg <;> norm_num [sign]

theorem abs_sign (neg : Bool) : |sign neg| = 1 := by
  cases neg <;> norm_num [sign]

theorem sign_mul (x y : Bool) : sign x * sign y = sign (x != y) := by
  cases x <;> cases y <;> norm_num [sign]

theorem sign_div (x y : Bool) : sign x / sign y = sign (x != y) := by
  cases x <;> cases y <;> norm_num [sign]

theorem cast_cMinValue : (cMinValue : ℚ) = 10 ^ (15 : ℤ) := by
  norm_num [cMinValue]

/-! ## Digits -/

variable {a b : STAmount} {issue : Issue} {k v q c n d fuel : ℕ} {e : Int} {s : Bool} {x : ℚ}

theorem growMantissa_eq (fuel : ℕ) (hv : 0 < v) (hf : cMinValue ≤ v * 10 ^ fuel) :
    ∃ j : ℕ, growMantissa fuel v e = (v * 10 ^ j, e - j) ∧ cMinValue ≤ v * 10 ^ j ∧
      (j = 0 ∨ v * 10 ^ j < 10 ^ 16) := by
  induction fuel generalizing v e with
  | zero => exact ⟨0, by simp [growMantissa], hf, .inl rfl⟩
  | succ fuel ih =>
    rw [growMantissa]
    split_ifs with hsm
    · obtain ⟨j, hj, hmi, hma⟩ := ih (e := e - 1) (show 0 < v * 10 by omega)
        (by rwa [mul_assoc, ← Nat.pow_succ'])
      refine ⟨j + 1, ?_, ?_, .inr ?_⟩
      · rw [hj, Nat.pow_succ', mul_assoc]
        push_cast
        ring_nf
      · rwa [Nat.pow_succ', ← mul_assoc]
      · rw [Nat.pow_succ', ← mul_assoc]
        rcases hma with rfl | hma
        · unfold cMinValue at hsm
          omega
        · exact hma
    · exact ⟨0, by simp, by simpa using not_lt.mp hsm, .inl rfl⟩

/-- Both operands have at least sixteen digits. -/
theorem Canonical.operand (h : a.Canonical) (h0 : a.isZero = false) :
    ∃ (m : ℕ) (e : Int), a.operand = (m, e) ∧ 10 ^ 15 ≤ m ∧ m ≤ 10 ^ 17 ∧
      (a.native = false → m < 10 ^ 16) ∧ (10 ^ 16 ≤ m → e = 0) ∧ e ≤ 80 ∧
      a.value = sign a.negative * (m * 10 ^ e) := by
  have hmn : a.mantissa ≠ 0 := fun hn => by
    rw [isZero_iff.mpr hn] at h0
    cases h0
  have hp : 0 < a.mantissa.toNat := by
    rw [pos_iff_ne_zero]
    exact fun hn => hmn (UInt64.toNat_inj.mp hn)
  cases hna : a.native with
  | true =>
    obtain ⟨he, hma, -⟩ := h.native hna
    unfold cMaxNativeN at hma
    obtain ⟨j, hj, hmi, hlt⟩ := growMantissa_eq (e := 0) 20 hp (by unfold cMinValue; omega)
    refine ⟨_, _, (if_pos hna).trans (he ▸ hj), hmi, ?_, by simp, ?_, by omega, ?_⟩
    · rcases hlt with rfl | hlt <;> omega
    · rcases hlt with rfl | hlt <;> omega
    · rw [value, he, cast_mul, cast_pow, cast_ofNat, zero_sub,
        zpow_neg, zpow_natCast, mul_assoc, mul_inv_cancel₀ (by positivity), zpow_zero]
  | false =>
    obtain ⟨hn, -⟩ | ⟨⟨hmi, hma⟩, -, he⟩ := h.issued hna
    · exact absurd hn hmn
    unfold cMaxValue at hma
    exact ⟨_, _, if_neg (by simp [hna]), hmi, by omega, by omega, by omega, he, rfl⟩

theorem scaleDown_eq (hf : k < fuel) (hlo : 10 ^ (15 + k) ≤ v) (hhi : v < 10 ^ (16 + k)) :
    scaleDown fuel v e =
      if 0 < k ∧ 80 < e + k then .error .exception else .ok (v / 10 ^ k, e + k) := by
  induction k generalizing v e fuel with
  | zero =>
    obtain ⟨fuel, rfl⟩ := (@Nat.exists_eq_add_one fuel).mpr (by omega)
    rw [scaleDown, if_neg (by unfold cMaxValue; omega)]
    simp
  | succ k ih =>
    obtain ⟨fuel, rfl⟩ := (@Nat.exists_eq_add_one fuel).mpr (by omega)
    have hpo : 0 < 10 ^ k := by positivity
    rw [Nat.pow_add] at hlo hhi
    rw [scaleDown, if_pos (by unfold cMaxValue; omega),
      ih (by omega) (by rw [Nat.pow_add]; omega) (by rw [Nat.pow_add]; omega),
      Nat.div_div_eq_div_mul, ← Nat.pow_succ']
    have ho : e + 1 + k = e + (k + 1 : ℕ) := by omega
    rw [ho]
    unfold cMaxOffset
    split_ifs <;> first | rfl | omega

theorem canonicalize_eq (his : isXRP issue.currency = false) {mant : UInt64}
    (hlo : 10 ^ (15 + k) ≤ mant.toNat) (hhi : mant.toNat < 10 ^ (16 + k)) :
    canonicalize issue mant e s =
      if 80 < e + k then .error .exception
      else if e + k < -96 then .ok (zeroOf issue)
      else .ok ⟨issue, .ofNat (mant.toNat / 10 ^ k), e + k, s⟩ := by
  have hl : cMinValue ≤ mant.toNat :=
    (Nat.pow_le_pow_right (by omega) (Nat.le_add_right 15 k)).trans hlo
  have hp : mant ≠ 0 := by
    rintro rfl
    exact absurd hl (by decide)
  have hdi : cMinValue ≤ mant.toNat / 10 ^ k := by
    rw [Nat.le_div_iff_mul_le (by positivity)]
    rwa [Nat.pow_add] at hlo
  have hf : k < 20 := by
    have := mant.toNat_lt
    by_contra hk
    have := Nat.pow_le_pow_right (show 0 < 10 by omega) (show 35 ≤ 15 + k by omega)
    omega
  have hup : scaleUp 20 mant.toNat e = (mant.toNat, e) := by
    rw [scaleUp, if_neg (by omega)]
  unfold canonicalize
  simp only [his, Bool.false_eq_true, if_false, hp, hup, scaleDown_eq hf hlo hhi]
  unfold cMinOffset cMaxOffset
  by_cases hma : 80 < e + k
  · by_cases hk : 0 < k
    · simp [hma, hk]
    · simp only [hma, hk, false_and, if_false, if_true]
      rw [if_neg (by omega)]
  · simp only [hma, and_false, if_false]
    simp [zeroOf, his, not_lt.mpr hdi]

/-- Sixteen digits of a number `c` units above `x`. -/
theorem exists_digits (his : isXRP issue.currency = false)
    (hmi : 10 ^ 15 ≤ q + c) (hma : q + c < 2 ^ 64) (hx : q * 10 ^ e ≤ x)
    (hx' : x < (q + 1) * 10 ^ e) :
    ∃ k m : ℕ, (10 ^ (15 + k) ≤ q + c ∧ q + c < 10 ^ (16 + k)) ∧ (cMinValue ≤ m ∧ m ≤ cMaxValue) ∧
      (m * 10 ^ (e + k) ≤ x + c * 10 ^ e ∧ x + c * 10 ^ e < (m + 1) * 10 ^ (e + k)) ∧
      canonicalize issue (.ofNat (q + c)) e s =
        if 80 < e + k then .error .exception else if e + k < -96 then .ok (zeroOf issue)
        else .ok ⟨issue, .ofNat m, e + k, s⟩ := by
  obtain ⟨k, hlo, hhi⟩ : ∃ k, 10 ^ (15 + k) ≤ q + c ∧ q + c < 10 ^ (16 + k) := by
    have hlg := Nat.le_log_of_pow_le (by omega) hmi
    refine ⟨log 10 (q + c) - 15, ?_, ?_⟩
    · rw [Nat.add_sub_cancel' hlg]
      exact Nat.pow_log_le_self 10 (by omega)
    · rw [show 16 + (log 10 (q + c) - 15) = log 10 (q + c) + 1 by omega]
      exact lt_pow_succ_log_self (by omega) _
  have hpo : (0 : ℚ) < 10 ^ e := by positivity
  have hw : (UInt64.ofNat (q + c)).toNat = q + c := mod_eq_of_lt hma
  have hdi : ((q + c) / 10 ^ k * 10 ^ k : ℕ) ≤ q + c := div_mul_le_self _ _
  have hdi' : q + c < ((q + c) / 10 ^ k + 1) * 10 ^ k :=
    lt_mul_of_div_lt (lt_succ_self _) (by positivity)
  refine ⟨k, (q + c) / 10 ^ k, ⟨hlo, hhi⟩, ⟨?_, ?_⟩, ⟨?_, ?_⟩, ?_⟩
  · rw [Nat.le_div_iff_mul_le (by positivity)]
    rwa [Nat.pow_add] at hlo
  · refine le_of_lt_succ ((div_lt_iff_lt_mul (by positivity)).mpr ?_)
    rwa [Nat.pow_add] at hhi
  · rw [zpow_add₀ (by norm_num), zpow_natCast, mul_left_comm, mul_comm]
    have : (((q + c) / 10 ^ k : ℕ) * 10 ^ k : ℚ) ≤ q + c := by exact_mod_cast hdi
    nlinarith
  · rw [zpow_add₀ (by norm_num), zpow_natCast, mul_left_comm, mul_comm]
    have : (q + c + 1 : ℚ) ≤ (((q + c) / 10 ^ k : ℕ) + 1) * 10 ^ k := by exact_mod_cast hdi'
    nlinarith
  · rw [canonicalize_eq his (by rwa [hw]) (by rwa [hw]), hw]

theorem accurate_canonicalize_iff (his : isXRP issue.currency = false) (hmi : 10 ^ 15 ≤ q)
    (hc : 2 ≤ c ∧ c < 10) (hma : q + c < 2 ^ 64) (hov : q < 10 ^ 16 → e < 80)
    (hx : q * 10 ^ e ≤ x) (hx' : x < (q + 1) * 10 ^ e) :
    Accurate (sign s * x) (canonicalize issue (.ofNat (q + c)) e s) ↔
      cMaxValue < q + c ∨ e < cMinOffset := by
  obtain ⟨k, m, ⟨hlo, hhi⟩, ⟨hm, hm'⟩, ⟨hle, hlt⟩, heq⟩ :=
    exists_digits (s := s) his (by omega) hma hx hx'
  unfold cMaxValue cMinOffset at *
  have hpo : (0 : ℚ) < 10 ^ e := by positivity
  have hxp : 0 < x := lt_of_lt_of_le (mul_pos (by exact_mod_cast (by omega : 0 < q)) hpo) hx
  have hab : |sign s * x| = x := by rw [abs_mul, abs_sign, one_mul, abs_of_pos hxp]
  have hk : k < 5 := by
    by_contra hk
    have := Nat.pow_le_pow_right (show 0 < 10 by omega) (show 20 ≤ 15 + k by omega)
    omega
  have hcu : 9999999999999999 < q + c ↔ 0 < k := by interval_cases k <;> omega
  rw [heq, hcu]
  split_ifs with hbi hsm
  · obtain ⟨j, rfl⟩ := (@Nat.exists_eq_add_one k).mpr (by omega)
    have hj : j < 4 := by omega
    have hdg : cMaxValue * 10 ^ j < q := by
      unfold cMaxValue
      interval_cases j <;> omega
    have hs : (10 : ℚ) ^ cMaxOffset ≤ 10 ^ j * 10 ^ e := by
      rw [← zpow_natCast, ← zpow_add₀ (by norm_num)]
      exact zpow_le_zpow_right₀ (by norm_num) (by unfold cMaxOffset; omega)
    refine iff_of_true ?_ (.inl (by omega))
    rw [Accurate, hab]
    calc (cMaxValue : ℚ) * 10 ^ cMaxOffset
        ≤ cMaxValue * (10 ^ j * 10 ^ e) := by gcongr
      _ = (cMaxValue * 10 ^ j : ℕ) * 10 ^ e := by push_cast; ring
      _ < q * 10 ^ e := by gcongr
      _ ≤ x := hx
  · refine iff_of_true (.inl ⟨rfl, hab.trans_lt ?_⟩) (by omega)
    calc x < (q + 1) * 10 ^ e := hx'
      _ ≤ (10 ^ (16 + k) : ℕ) * 10 ^ e := by
        gcongr
        exact_mod_cast (by omega : q + 1 ≤ 10 ^ (16 + k))
      _ ≤ cMinValue * 10 ^ cMinOffset := by
        rw [cast_cMinValue, cast_pow, cast_ofNat, ← zpow_natCast,
          ← zpow_add₀ (by norm_num), ← zpow_add₀ (by norm_num)]
        exact zpow_le_zpow_right₀ (by norm_num) (by unfold cMinOffset; omega)
  have hw : (UInt64.ofNat m).toNat = m := mod_eq_of_lt (by omega)
  have hne (r : STAmount) (hr : r = ⟨issue, .ofNat m, e + k, s⟩) :
      |r.value - sign s * x| = |m * 10 ^ (e + k) - x| := by
    rw [hr, value, hw, ← mul_sub, abs_mul, abs_sign, one_mul]
  cases k with
  | zero =>
    -- nothing is cut off, so what was added stays
    refine iff_of_false ?_ (by omega)
    rintro (⟨hn, -⟩ | ⟨-, -, hcl⟩)
    · rw [show m = 0 from hw.symm.trans (congrArg UInt64.toNat hn)] at hm
      exact absurd hm (by decide)
    · rw [hne _ rfl, abs_lt] at hcl
      have : (2 : ℚ) ≤ c := by exact_mod_cast hc.1
      simp only [cast_zero, add_zero] at hlt hcl
      nlinarith [hcl.2]
  | succ j =>
    have hs : (10 : ℚ) * 10 ^ e ≤ 10 ^ (e + (j + 1 : ℕ)) := by
      rw [← zpow_one_add₀ (by norm_num)]
      exact zpow_le_zpow_right₀ (by norm_num) (by omega)
    have hsl : (c : ℚ) * 10 ^ e < 10 * 10 ^ e := by
      gcongr
      exact_mod_cast hc.2
    refine iff_of_true (.inr ⟨⟨fun h => ?_, fun _ => .inr ⟨?_, ?_, ?_⟩⟩, ?_, ?_⟩) (.inl (by omega))
    · rw [native, his] at h
      cases h
    · rw [hw]
      exact ⟨hm, hm'⟩
    · exact not_lt.mp hsm
    · exact not_lt.mp hbi
    · rw [value, hw, mul_mul_mul_comm, sign_mul_self, one_mul]
      have : (0 : ℚ) < m := by exact_mod_cast (show 0 < cMinValue by decide).trans_le hm
      positivity
    · rw [hne _ rfl, abs_lt]
      constructor <;> nlinarith [mul_nonneg (cast_nonneg c : (0 : ℚ) ≤ c) hpo.le]

/-! ## Products and quotients -/

theorem accurate_zeroOf : Accurate 0 (.ok (zeroOf issue)) := by
  refine .inl ⟨rfl, ?_⟩
  rw [abs_zero, cast_cMinValue]
  positivity

theorem value_eq_zero (h : a.isZero) : a.value = 0 := by
  rw [value, isZero_iff.mp h]
  simp

theorem cast_div_le_div (n d : ℕ) : ((n / d : ℕ) : ℚ) * 10 ^ e ≤ n / d * 10 ^ e := by
  gcongr
  exact cast_div_le

theorem div_lt_cast_div (hd : 0 < d) : (n / d * 10 ^ e : ℚ) < ((n / d : ℕ) + 1) * 10 ^ e := by
  gcongr
  rw [div_lt_iff₀ (by exact_mod_cast hd)]
  exact_mod_cast lt_mul_of_div_lt (lt_succ_self (n / d)) hd

theorem getuint64_add (h : q + c < 2 ^ 64) : getuint64 q + .ofNat c = .ofNat (q + c) := by
  rw [getuint64, if_pos (by omega), UInt64.ofNat_add]

theorem accurate_multiply (ha : a.Canonical) (hb : b.Canonical)
    (his : isXRP issue.currency = false) (hna : ¬ (a.native ∧ b.native)) :
    Accurate (a.value * b.value) (a.multiply b issue) := by
  unfold multiply
  by_cases h0 : (a.isZero || b.isZero)
  · rw [if_pos h0]
    rw [Bool.or_eq_true] at h0
    have : a.value * b.value = 0 := by
      rcases h0 with h | h <;> simp [value_eq_zero h]
    rw [this]
    exact accurate_zeroOf
  rw [if_neg h0, if_neg (by simp [his])]
  simp only [Bool.or_eq_true, not_or, Bool.not_eq_true] at h0
  obtain ⟨m1, e1, h1, hmin1, hmax1, hissued1, -, -, hvalue1⟩ := ha.operand h0.1
  obtain ⟨m2, e2, h2, hmin2, hmax2, hissued2, -, -, hvalue2⟩ := hb.operand h0.2
  have hlt : m1 * m2 ≤ 10 ^ 33 := by
    by_cases h : a.native
    · have := hissued2 (Bool.not_eq_true _ ▸ fun h' => hna ⟨h, h'⟩)
      nlinarith
    · have := hissued1 (Bool.not_eq_true _ ▸ h)
      nlinarith
  have hge : 10 ^ 15 * 10 ^ 15 ≤ m1 * m2 := Nat.mul_le_mul hmin1 hmin2
  have hmi : 10 ^ 16 ≤ m1 * m2 / tenTo14 := by unfold tenTo14; omega
  have hma : m1 * m2 / tenTo14 ≤ 10 ^ 19 := by unfold tenTo14; omega
  have hex : a.value * b.value = sign (a.negative != b.negative) *
      ((m1 * m2 : ℕ) / (tenTo14 : ℕ) * 10 ^ (e1 + e2 + 14)) := by
    rw [hvalue1, hvalue2, mul_mul_mul_comm, sign_mul, zpow_add₀ (by norm_num),
      zpow_add₀ (by norm_num)]
    unfold tenTo14
    push_cast
    ring
  rw [h1, h2, hex]
  show Accurate _ (canonicalize _ (_ + .ofNat 7) _ _)
  rw [getuint64_add (by omega)]
  exact (accurate_canonicalize_iff his (by omega) (by omega) (by omega) (by omega)
    (cast_div_le_div _ _) (div_lt_cast_div (by decide))).mpr (.inl (by unfold cMaxValue; omega))

def quotient (num den : STAmount) : ℕ := num.operand.1 * tenTo17 / den.operand.1

def quotientOffset (num den : STAmount) : Int := num.operand.2 - den.operand.2 - 17

/-- What `divide` computes, beside the exact quotient. -/
theorem divide_eq (ha : a.Canonical) (hb : b.Canonical) (ha0 : a.isZero = false)
    (hb0 : b.isZero = false) (iss : Issue) :
    divide a b iss = canonicalize iss (.ofNat (quotient a b + 5)) (quotientOffset a b)
        (a.negative != b.negative) ∧
      (10 ^ 15 ≤ quotient a b ∧ quotient a b ≤ 10 ^ 19) ∧
      (quotient a b < 10 ^ 16 → quotientOffset a b ≤ 63) ∧
      ∃ x : ℚ, a.value / b.value = sign (a.negative != b.negative) * x ∧
        quotient a b * 10 ^ quotientOffset a b ≤ x ∧
        x < (quotient a b + 1) * 10 ^ quotientOffset a b := by
  obtain ⟨m1, e1, h1, hmin1, hmax1, -, -, hof, hvalue1⟩ := ha.operand ha0
  obtain ⟨m2, e2, h2, hmin2, hmax2, -, he, -, hvalue2⟩ := hb.operand hb0
  have hp : 0 < m2 := by omega
  have hmi : 10 ^ 15 ≤ m1 * tenTo17 / m2 :=
    (Nat.le_div_iff_mul_le hp).mpr (Nat.mul_le_mul hmin1 hmax2)
  have hma : m1 * tenTo17 / m2 ≤ 10 ^ 19 := by
    refine Nat.div_le_of_le_mul ?_
    unfold tenTo17
    omega
  unfold divide quotient quotientOffset
  rw [if_neg (by simp [hb0]), if_neg (by simp [ha0]), h1, h2]
  refine ⟨congrArg (canonicalize iss · _ _) (getuint64_add (c := 5) (by omega)), ⟨hmi, hma⟩,
    fun hsm => ?_, (m1 * tenTo17 : ℕ) / m2 * 10 ^ (e1 - e2 - 17), ?_, cast_div_le_div _ _,
    div_lt_cast_div hp⟩
  · -- only a native divisor has more than sixteen digits
    have hl : 10 ^ 16 ≤ m2 := by
      rw [div_lt_iff_lt_mul hp] at hsm
      unfold tenTo17 at hsm
      omega
    have := he hl
    omega
  · have : (m2 : ℚ) ≠ 0 := by exact_mod_cast hp.ne'
    rw [hvalue1, hvalue2, mul_div_mul_comm, sign_div, zpow_sub₀ (by norm_num),
      zpow_sub₀ (by norm_num)]
    unfold tenTo17
    push_cast
    field_simp

/-- Products are accurate. A quotient is not where it has sixteen digits already: the five is then
added to the last digit kept. -/
theorem accurate_iff (ha : a.Canonical) (hb : b.Canonical) (his : isXRP issue.currency = false) :
    (¬ (a.native = true ∧ b.native = true) → Accurate (a.value * b.value) (a.multiply b issue)) ∧
    (b.isZero = false → (Accurate (a.value / b.value) (divide a b issue) ↔
      a.isZero = true ∨ cMaxValue < quotient a b + 5 ∨ quotientOffset a b < cMinOffset)) := by
  refine ⟨accurate_multiply ha hb his, fun hb0 => ?_⟩
  cases ha0 : a.isZero with
  | false =>
    obtain ⟨heq, ⟨hmi, hma⟩, ho, x, hx, hlo, hhi⟩ := divide_eq ha hb ha0 hb0 issue
    rw [heq, hx, Bool.false_eq_true, false_or]
    exact accurate_canonicalize_iff his hmi (by omega) (by omega)
      (fun h => (ho h).trans_lt (by omega)) hlo hhi
  | true =>
    rw [value_eq_zero ha0, zero_div, divide, if_neg (by simp [hb0]), if_pos ha0]
    exact iff_of_true accurate_zeroOf (.inl rfl)

theorem drop_divide_inaccurate : ¬ Accurate ((ofDrops 1).value / (ofDrops 100000000000000000).value)
      (divide (ofDrops 1) (ofDrops 100000000000000000) noIssue) := by
  have hre : divide (ofDrops 1) (ofDrops 100000000000000000) noIssue =
      .ok ⟨noIssue, 1000000000000005, -32, false⟩ := by decide
  rw [hre]
  rintro (⟨h, -⟩ | ⟨-, -, h⟩)
  · exact absurd h (by decide)
  · have hq : (ofDrops 1).value / (ofDrops 100000000000000000).value =
        10 ^ 15 * 10 ^ (-32 : ℤ) := by
      rw [value, value, show (ofDrops 1).mantissa.toNat = 1 from rfl,
        show (ofDrops 100000000000000000).mantissa.toNat = 100000000000000000 from rfl]
      norm_num [sign, ofDrops]
    rw [hq, value, show (1000000000000005 : UInt64).toNat = 1000000000000005 from rfl] at h
    norm_num [sign, abs_lt] at h

theorem accurate_one_drop :
    Accurate ((ofDrops 1).value / (ofDrops 3).value) (divide (ofDrops 1) (ofDrops 3) noIssue) :=
  ((accurate_iff ⟨by decide, by decide⟩ ⟨by decide, by decide⟩ (by decide)).2 (by decide)).mpr
    (.inr (.inl (by decide)))

end Sand.STAmount
