import Sand.Protocol.Rounding

/-!
# Rates

The rate of an offer against its exact price.
-/

namespace Sand.STAmount

open Nat

structure IsOffer (offerOut offerIn : STAmount) : Prop where
  out_canonical : offerOut.Canonical
  in_canonical : offerIn.Canonical
  out_positive : offerOut.isPositive
  in_positive : offerIn.isPositive

def price (offerOut offerIn : STAmount) : ℚ := offerIn.value / offerOut.value

/-- With the five that `divide` adds before it cuts. -/
def raisedPrice (offerOut offerIn : STAmount) : ℚ :=
  price offerOut offerIn + 5 * 10 ^ quotientOffset offerIn offerOut

variable {offerOut offerIn offerOut' offerIn' : STAmount} {m m' : ℕ} {e e' : Int} {x : ℚ}

/-- Of sixteen digits, the higher exponent is greater. -/
theorem exponent_lt_or_of_le (hm : cMinValue ≤ m) (hm' : m' ≤ cMaxValue)
    (hle : m * 10 ^ e ≤ x) (hlt : x < (m' + 1) * 10 ^ e') : e < e' ∨ e = e' ∧ m ≤ m' := by
  have hpo : (0 : ℚ) < 10 ^ e' := by positivity
  have hlt := hle.trans_lt hlt
  rcases lt_trichotomy e e' with h | rfl | h
  · exact .inl h
  · refine .inr ⟨rfl, ?_⟩
    have : (m : ℚ) < m' + 1 := lt_of_mul_lt_mul_right hlt hpo.le
    exact le_of_lt_succ (by exact_mod_cast this)
  · refine absurd hlt (not_lt.mpr ?_)
    calc ((m' : ℚ) + 1) * 10 ^ e' ≤ (10 ^ 16 : ℕ) * 10 ^ e' := by
          gcongr
          exact_mod_cast succ_le_succ hm'
      _ = cMinValue * 10 ^ (1 + e') := by
          rw [zpow_one_add₀ (by norm_num), ← mul_assoc]
          norm_num [cMinValue]
      _ ≤ m * 10 ^ e := by
          gcongr
          · norm_num
          · omega

theorem decimal_le (hm : cMinValue ≤ m') (hm' : m ≤ cMaxValue) (h : e < e' ∨ e = e' ∧ m ≤ m') :
    (m : ℚ) * 10 ^ e ≤ m' * 10 ^ e' := by
  by_contra hlt
  have := exponent_lt_or_of_le (x := m * 10 ^ e) hm hm' (not_le.mp hlt).le
    (mul_lt_mul_of_pos_right (lt_add_one _) (by positivity))
  obtain ⟨rfl, hle⟩ : e = e' ∧ m ≤ m' := by omega
  exact hlt (by gcongr)

/-- A rate is the price's exponent and sixteen digits. -/
theorem IsOffer.getRate (h : IsOffer offerOut offerIn) :
    ∃ (m : ℕ) (e : Int), (cMinValue ≤ m ∧ m ≤ cMaxValue) ∧
      (m * 10 ^ e ≤ raisedPrice offerOut offerIn ∧
        raisedPrice offerOut offerIn < (m + 1) * 10 ^ e) ∧
      (getRate offerOut offerIn).toNat =
        if cMinOffset ≤ e ∧ e ≤ cMaxOffset then (e + 100).toNat * 2 ^ 56 + m else 0 := by
  have ho := isZero_eq_false_of_isPositive h.out_positive
  obtain ⟨heq, ⟨hmi, hma⟩, -, x, hx, hlo, hhi⟩ :=
    divide_eq h.in_canonical h.out_canonical (isZero_eq_false_of_isPositive h.in_positive) ho
      noIssue
  obtain ⟨k, m, -, ⟨hm, hm'⟩, ⟨hle, hlt⟩, hc⟩ :=
    exists_digits (c := 5) (s := offerIn.negative != offerOut.negative)
      (rfl : isXRP noIssue.currency = false) (by omega) (by omega) hlo hhi
  have hs : (offerIn.negative != offerOut.negative) = false := by
    rw [(isPositive_iff.mp h.in_positive).2, (isPositive_iff.mp h.out_positive).2]
    rfl
  have hp : price offerOut offerIn = x := by
    rw [price, hx, hs, sign, if_neg (by simp), one_mul]
  refine ⟨m, quotientOffset offerIn offerOut + k, ⟨hm, hm'⟩, ?_, ?_⟩
  · rw [raisedPrice, hp]
    exact ⟨by exact_mod_cast hle, by exact_mod_cast hlt⟩
  unfold STAmount.getRate
  rw [if_neg (by simp [ho]), heq, hc]
  generalize quotientOffset offerIn offerOut + k = e
  unfold cMinValue at hm
  unfold cMaxValue at hm'
  unfold cMinOffset cMaxOffset
  by_cases hb : 80 < e
  · rw [if_pos hb, if_neg (by omega)]
    rfl
  rw [if_neg hb]
  by_cases hsm : e < -96
  · rw [if_pos hsm, if_neg (by omega)]
    rfl
  rw [if_neg hsm, if_pos (by omega)]
  have hw : (UInt64.ofNat m).toNat = m := mod_eq_of_lt (by omega)
  have hps : isZero ⟨noIssue, .ofNat m, e, offerIn.negative != offerOut.negative⟩ = false := by
    rw [← Bool.not_eq_true, isZero_iff]
    intro hn
    have := hw.symm.trans (congrArg UInt64.toNat hn)
    exact absurd this (by simp; omega)
  have hh : (UInt64.ofNat ((e + 100).toNat * 2 ^ 56)).toNat = (e + 100).toNat * 2 ^ 56 := by
    rw [UInt64.toNat_ofNat', mod_eq_of_lt (by omega)]
  simp only [hps, Bool.false_eq_true, if_false]
  rw [UInt64.toNat_or, hw, hh, Nat.mul_comm, ← two_pow_add_eq_or_of_lt (by omega)]

/-- Rates follow the exact prices exactly where no sixteen-digit decimal separates the raised
prices the other way round. -/
theorem getRate_le_iff (h : IsOffer offerOut offerIn) (h' : IsOffer offerOut' offerIn')
    (hr : getRate offerOut offerIn ≠ 0) (hr' : getRate offerOut' offerIn' ≠ 0) :
    (price offerOut offerIn ≤ price offerOut' offerIn' →
      getRate offerOut offerIn ≤ getRate offerOut' offerIn') ↔
    (price offerOut offerIn ≤ price offerOut' offerIn' →
      ∀ (m : ℕ) (e : Int), cMinValue ≤ m → m ≤ cMaxValue →
        m * 10 ^ e ≤ raisedPrice offerOut offerIn →
          m * 10 ^ e ≤ raisedPrice offerOut' offerIn') := by
  obtain ⟨m1, e1, ⟨hmin1, hmax1⟩, ⟨hle1, hlt1⟩, h1⟩ := h.getRate
  obtain ⟨m2, e2, ⟨hmin2, hmax2⟩, ⟨hle2, hlt2⟩, h2⟩ := h'.getRate
  refine imp_congr_right fun _ => ?_
  have hor : getRate offerOut offerIn ≤ getRate offerOut' offerIn' ↔
      e1 < e2 ∨ e1 = e2 ∧ m1 ≤ m2 := by
    rw [Ne, ← UInt64.toNat_inj, h1] at hr
    rw [Ne, ← UInt64.toNat_inj, h2] at hr'
    have hin1 : cMinOffset ≤ e1 ∧ e1 ≤ cMaxOffset := by_contra fun ho => hr (if_neg ho)
    have hin2 : cMinOffset ≤ e2 ∧ e2 ≤ cMaxOffset := by_contra fun ho => hr' (if_neg ho)
    rw [UInt64.le_iff_toNat_le, h1, h2, if_pos hin1, if_pos hin2]
    unfold cMinOffset cMaxOffset at hin1 hin2
    unfold cMaxValue at hmax1 hmax2
    omega
  rw [hor]
  constructor
  · intro hl m e hm hm' hle
    refine le_trans ?_ hle2
    exact (decimal_le hmin1 hm' (exponent_lt_or_of_le hm hmax1 hle hlt1)).trans
      (decimal_le hmin2 hmax1 hl)
  · intro ha
    exact exponent_lt_or_of_le hmin1 hmax2 (ha m1 e1 hmin1 hmax1 hle1) hlt2

/-- One price, and rates that differ in the last digit. -/
theorem getRate_of_price_eq : price ⟨noIssue, 6000000000000000, -15, false⟩ (ofDrops 10) =
        price ⟨noIssue, 3000000000000000, -15, false⟩ (ofDrops 5) ∧
      getRate ⟨noIssue, 3000000000000000, -15, false⟩ (ofDrops 5) <
        getRate ⟨noIssue, 6000000000000000, -15, false⟩ (ofDrops 10) := by
  refine ⟨?_, by decide⟩
  simp only [price, value, sign, ofDrops, show (10 : UInt64).toNat = 10 from rfl,
    show (5 : UInt64).toNat = 5 from rfl,
    show (6000000000000000 : UInt64).toNat = 6000000000000000 from rfl,
    show (3000000000000000 : UInt64).toNat = 3000000000000000 from rfl]
  norm_num

theorem getRate_le_five_seven : getRate (ofDrops 3) (ofDrops 5) ≤ getRate (ofDrops 3) (ofDrops 7) :=
  (getRate_le_iff ⟨⟨by decide, by decide⟩, ⟨by decide, by decide⟩, by decide, by decide⟩
    ⟨⟨by decide, by decide⟩, ⟨by decide, by decide⟩, by decide, by decide⟩ (by decide)
    (by decide)).mpr (fun hle _ _ _ _ h => h.trans (add_le_add hle le_rfl))
    (by
      norm_num [price, value, sign, ofDrops]
      gcongr
      decide)

end Sand.STAmount
