import Sand.Protocol.Amount

/-!
# Native amounts

A native amount stands for a number of drops.
-/

namespace Sand.STAmount

open Int64 Bool

def drops (amount : STAmount) : Int :=
  if amount.negative then -amount.mantissa.toNat else amount.mantissa.toNat

theorem natAbs_drops (amt : STAmount) : amt.drops.natAbs = amt.mantissa.toNat := by
  unfold drops
  split <;> simp

/-- A native amount as the source builds it. -/
structure IsDrops (amount : STAmount) : Prop where
  native : amount.native
  exponent : amount.exponent = 0
  zero : amount.mantissa = 0 → amount.negative = false
  /-- The drops fit a signed word. -/
  fits : amount.mantissa.toNat < 2 ^ 63

variable {amount lhs rhs : STAmount}

theorem isDrops_of_isLegalNet (hna : amount.native) (he : amount.exponent = 0)
    (hs : amount.negative = false) (hlg : amount.isLegalNet) :
    IsDrops amount ∧ 0 ≤ amount.drops ∧ amount.drops ≤ cMaxNativeN := by
  have hle : amount.mantissa.toNat ≤ cMaxNativeN := by
    simpa [isLegalNet, hna] using hlg
  have hd : amount.drops = amount.mantissa.toNat := by simp [drops, hs]
  refine ⟨⟨hna, he, fun _ => hs, ?_⟩, by omega, by omega⟩
  unfold cMaxNativeN at hle
  omega

theorem areComparable_of_native (hlh : lhs.native) (hrh : rhs.native) : areComparable lhs rhs := by
  have hl : lhs.issue.currency = 0 := by simpa [STAmount.native, isXRP] using hlh
  have hr : rhs.issue.currency = 0 := by simpa [STAmount.native, isXRP] using hrh
  simp [areComparable, hlh, hrh, getCurrency, hl, hr]

theorem isZero_iff : amount.isZero ↔ amount.mantissa = 0 := by
  unfold isZero signum
  split
  · simp_all
  · split <;> simp_all

theorem isPositive_iff : amount.isPositive ↔ amount.mantissa ≠ 0 ∧ amount.negative = false := by
  unfold isPositive signum
  split
  · simp_all
  · split <;> simp_all

theorem isZero_eq_false_of_isPositive (h : amount.isPositive) : amount.isZero = false := by
  rw [← not_eq_true, isZero_iff]
  exact (isPositive_iff.mp h).1

theorem isZero_eq_false_of_lt (hlh : lhs.isPositive) (hrh : rhs.negative = false)
    (h : lhs.lt rhs = .ok true) : rhs.isZero = false := by
  obtain ⟨hm, hne⟩ := isPositive_iff.mp hlh
  rw [← not_eq_true, isZero_iff]
  intro h0
  unfold lt at h
  split at h
  · simp [ltCore, hm, hne, hrh, h0] at h
  · cases h

theorem mantissa_neg : (neg amount).mantissa = amount.mantissa := by
  unfold neg
  split <;> rfl

theorem isZero_neg : (neg amount).isZero = amount.isZero := by
  rw [Bool.eq_iff_iff, isZero_iff, isZero_iff, mantissa_neg]

theorem native_neg : (neg amount).native = amount.native := by
  unfold neg
  split <;> rfl

theorem add_of_native (hlh : lhs.native) (hrh : rhs.native)
    (hl : lhs.isZero = false) (hr : rhs.isZero = false) :
    ∃ x y, lhs.getSNValue = .ok x ∧ rhs.getSNValue = .ok y ∧
      lhs.add rhs = .ok (ofSNValue (x + y)) := by
  have hx : ∃ x, lhs.getSNValue = .ok x := by simp [getSNValue, hlh]
  have hy : ∃ y, rhs.getSNValue = .ok y := by simp [getSNValue, hrh]
  obtain ⟨x, hx⟩ := hx
  obtain ⟨y, hy⟩ := hy
  refine ⟨x, y, hx, hy, ?_⟩
  simp [add, areComparable_of_native hlh hrh, hl, hr, hlh, hx, hy, bind, Except.bind, pure,
    Except.pure]

theorem sub_self_eq_ok (hna : amount.native) (h0 : amount.isZero = false) :
    ∃ rest, amount.sub amount = .ok rest := by
  obtain ⟨x, y, _, _, ha⟩ := add_of_native hna (native_neg.trans hna) h0 (isZero_neg.trans h0)
  exact ⟨_, ha⟩

theorem native_eq_of_lt {res : Bool} (h : lhs.lt rhs = .ok res) : lhs.native = rhs.native := by
  unfold lt at h
  by_cases hc : areComparable lhs rhs
  · simp only [areComparable, and_eq_true, beq_iff_eq] at hc
    exact hc.1
  · rw [if_neg hc] at h
    cases h

/-! ## Signed words -/

theorem toInt_toInt64 (val : UInt64) : val.toInt64.toInt =
      if val.toNat < 2 ^ 63 then (val.toNat : Int) else val.toNat - 2 ^ 64 := by
  show (if 2 * val.toNat < 2 ^ 64 then (val.toNat : Int) else val.toNat - 2 ^ 64) = _
  split <;> split <;> omega

variable {value : Int64}

theorem toNat_toUInt64_of_nonneg (h : 0 ≤ value.toInt) :
    (value.toUInt64.toNat : Int) = value.toInt := by
  have hlt := value.toBitVec.isLt
  rw [← toInt_toBitVec, BitVec.toInt_eq_toNat_cond] at h ⊢
  show (value.toBitVec.toNat : Int) = _
  split at h <;> split <;> omega

theorem toNat_toUInt64_neg (h : value.toInt < 0) :
    ((-value).toUInt64.toNat : Int) = -value.toInt := by
  have hlt := (-value).toBitVec.isLt
  have hn := toInt_neg value
  have hlo := le_toInt value
  rw [← toInt_toBitVec (-value), BitVec.toInt_eq_toNat_cond, Int.bmod_def] at hn
  show ((-value).toBitVec.toNat : Int) = _
  split at hn <;> split at hn <;> omega

theorem drops_ofSNValue (val : Int64) : (ofSNValue val).drops = val.toInt := by
  unfold ofSNValue drops
  by_cases h : val < 0
  · have hn : val.toInt < 0 := Int64.lt_iff_toInt_lt.mp h
    simp only [if_pos h, ↓reduceIte, toNat_toUInt64_neg hn]
    omega
  · have hno : 0 ≤ val.toInt := by
      by_contra hlt
      exact h (Int64.lt_iff_toInt_lt.mpr (Int.not_le.mp hlt))
    simp [if_neg h, false_eq_true, ↓reduceIte, toNat_toUInt64_of_nonneg hno]

theorem IsDrops.getSNValue (h : IsDrops amount) :
    ∃ x, amount.getSNValue = .ok x ∧ x.toInt = amount.drops := by
  have hv := (toInt_toInt64 amount.mantissa).trans (if_pos h.fits)
  unfold STAmount.getSNValue drops
  rw [if_pos h.native]
  cases amount.negative
  · exact ⟨_, rfl, hv⟩
  · refine ⟨_, rfl, ?_⟩
    have hf := h.fits
    simp only [↓reduceIte, toInt_neg, hv, Int.bmod_def]
    split <;> omega

theorem isDrops_ofSNValue (h : -(2 : Int) ^ 63 < value.toInt) : IsDrops (ofSNValue value) := by
  have hhi := toInt_lt value
  have hd := drops_ofSNValue value
  unfold ofSNValue at hd ⊢
  by_cases hn : value < 0
  · have hlt : value.toInt < 0 := Int64.lt_iff_toInt_lt.mp hn
    have hnt := toNat_toUInt64_neg hlt
    rw [if_pos hn]
    refine ⟨rfl, rfl, fun h0 => ?_, ?_⟩
    · rw [show (-value).toUInt64 = 0 from h0] at hnt
      simp at hnt
      omega
    · show (-value).toUInt64.toNat < 2 ^ 63
      omega
  · rw [if_neg hn]
    have hno : 0 ≤ value.toInt := by
      by_contra hlt
      exact hn (Int64.lt_iff_toInt_lt.mpr (Int.not_le.mp hlt))
    have hnt := toNat_toUInt64_of_nonneg hno
    refine ⟨rfl, rfl, fun _ => rfl, ?_⟩
    show value.toUInt64.toNat < 2 ^ 63
    omega

/-! ## Comparison and addition as numbers -/

theorem IsDrops.mantissa_ne_zero (h : IsDrops amount) (hn : amount.negative) :
    amount.mantissa ≠ 0 := by
  intro h0
  rw [h.zero h0] at hn
  cases hn

theorem IsDrops.lt (hlh : IsDrops lhs) (hrh : IsDrops rhs) :
    lhs.lt rhs = .ok (decide (lhs.drops < rhs.drops)) := by
  unfold STAmount.lt
  rw [if_pos (areComparable_of_native hlh.native hrh.native)]
  congr 1
  unfold ltCore drops
  have h0 : ∀ m : UInt64, m = 0 ↔ m.toNat = 0 := by
    intro m
    rw [← UInt64.toNat_inj]
    rfl
  have hl0 := hlh.mantissa_ne_zero
  have hr0 := hrh.mantissa_ne_zero
  simp only [hlh.exponent, hrh.exponent, lt_irrefl, ↓reduceIte, UInt64.lt_iff_toNat_lt, h0,
    bne, beq_eq_decide]
  cases hl : lhs.negative <;> cases hr : rhs.negative
  all_goals grind

theorem IsDrops.neg (h : IsDrops amount) : IsDrops amount.neg := by
  unfold STAmount.neg
  by_cases h0 : amount.mantissa = 0
  · rw [if_pos h0]
    exact h
  · rw [if_neg h0]
    exact ⟨h.native, h.exponent, fun h => absurd h h0, h.fits⟩

theorem drops_neg : amount.neg.drops = -amount.drops := by
  unfold STAmount.neg drops
  by_cases h0 : amount.mantissa = 0
  · simp [h0]
  · rw [if_neg h0]
    cases amount.negative <;> simp

theorem drops_of_isZero (h : amount.isZero) : amount.drops = 0 := by
  simp [drops, isZero_iff.mp h]

theorem canonicalize_native {iss : Issue} (his : isXRP iss.currency)
    (he : amount.exponent = 0) (h0 : amount.isZero = false) :
    canonicalize iss amount.mantissa amount.exponent amount.negative =
      if cMaxNativeN < amount.mantissa.toNat then .error .exception
      else .ok ⟨iss, amount.mantissa, 0, amount.negative⟩ := by
  have hm : amount.mantissa ≠ 0 := by
    intro hm
    rw [isZero_iff.mpr hm] at h0
    cases h0
  have hlt := amount.mantissa.toNat_lt
  have hv : amount.mantissa.toNat * 10 ^ (0 : Int).natAbs % 2 ^ 64 = amount.mantissa.toNat := by
    simp only [Int.natAbs_zero, pow_zero]
    omega
  simp [canonicalize, his, hm, he, ↓reduceIte, UInt64.ofNat_toNat]

theorem IsDrops.add {sum : STAmount} (hlh : IsDrops lhs) (hrh : IsDrops rhs)
    (h : lhs.add rhs = .ok sum) (hlo : -(2 : Int) ^ 63 < lhs.drops + rhs.drops)
    (hhi : lhs.drops + rhs.drops < 2 ^ 63) : IsDrops sum ∧ sum.drops = lhs.drops + rhs.drops := by
  by_cases hr : rhs.isZero
  · have hsu : sum = lhs := by
      simpa [STAmount.add, areComparable_of_native hlh.native hrh.native, hr, eq_comm] using h
    subst hsu
    exact ⟨hlh, by simp [drops_of_isZero hr]⟩
  by_cases hl : lhs.isZero
  · simp only [STAmount.add, areComparable_of_native hlh.native hrh.native, hr, hl,
      Bool.not_true, false_eq_true, ↓reduceIte,
      canonicalize_native hlh.native hrh.exponent (by simpa using hr)] at h
    split_ifs at h
    cases h
    exact ⟨⟨hlh.native, rfl, hrh.zero, hrh.fits⟩, by rw [drops_of_isZero hl, zero_add]; rfl⟩
  · obtain ⟨x, y, hx, hy, ha⟩ := add_of_native hlh.native hrh.native (by simpa using hl)
      (by simpa using hr)
    obtain ⟨x', hx', hxd⟩ := hlh.getSNValue
    obtain ⟨y', hy', hyd⟩ := hrh.getSNValue
    obtain rfl : x = x' := Except.ok.inj (hx.symm.trans hx')
    obtain rfl : y = y' := Except.ok.inj (hy.symm.trans hy')
    obtain rfl : ofSNValue (x + y) = sum := Except.ok.inj (ha.symm.trans h)
    have hv : (x + y).toInt = lhs.drops + rhs.drops := by
      rw [toInt_add, hxd, hyd, Int.bmod_def]
      split <;> omega
    exact ⟨isDrops_ofSNValue (by omega), by rw [drops_ofSNValue, hv]⟩

theorem IsDrops.sub {rest : STAmount} (hlh : IsDrops lhs) (hrh : IsDrops rhs)
    (h : lhs.sub rhs = .ok rest) (hlo : -(2 : Int) ^ 63 < lhs.drops - rhs.drops)
    (hhi : lhs.drops - rhs.drops < 2 ^ 63) : IsDrops rest ∧ rest.drops = lhs.drops - rhs.drops := by
  have hn : rhs.neg.drops = -rhs.drops := drops_neg
  obtain ⟨hrs, hd⟩ := hlh.add hrh.neg h (by omega) (by omega)
  exact ⟨hrs, by omega⟩

end Sand.STAmount
