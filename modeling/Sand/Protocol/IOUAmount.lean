import Sand.Protocol.Rate

/-!
# Issued amounts in two implementations

`IOUAmount` adds and compares issued amounts as `STAmount` does.
-/

namespace Sand

open STAmount UInt64 Nat

structure IOUAmount where
  mantissa : Int
  exponent : Int
  deriving DecidableEq

namespace IOUAmount

def zero : IOUAmount := ⟨0, -100⟩

def minExponent : Int := -96
def maxExponent : Int := 80
def minMantissa : ℕ := 1000000000000000
def maxMantissa : ℕ := 9999999999999999

/-- The first loop of `normalize`. -/
def grow : ℕ → ℕ → Int → ℕ × Int
  | 0, mantissa, exponent => (mantissa, exponent)
  | fuel + 1, mantissa, exponent =>
    if mantissa < minMantissa ∧ minExponent < exponent then
      grow fuel (mantissa * 10) (exponent - 1)
    else (mantissa, exponent)

/-- The second loop of `normalize`. -/
def shrink : ℕ → ℕ → Int → Except Fault (ℕ × Int)
  | 0, mantissa, exponent => .ok (mantissa, exponent)
  | fuel + 1, mantissa, exponent =>
    if maxMantissa < mantissa then
      if maxExponent ≤ exponent then .error .exception
      else shrink fuel (mantissa / 10) (exponent + 1)
    else .ok (mantissa, exponent)

def normalize (mantissa exponent : Int) : Except Fault IOUAmount :=
  if mantissa = 0 then
    .ok zero
  else
    let (grown, exponent) := grow 20 mantissa.natAbs exponent
    match shrink 20 grown exponent with
    | .error fault => .error fault
    | .ok (value, exponent) =>
      if exponent < minExponent ∨ value < minMantissa then .ok zero
      else if maxExponent < exponent then .error .exception
      else .ok ⟨if mantissa < 0 then -value else value, exponent⟩

variable (lhs rhs : IOUAmount)

/-- `operator+=`. -/
def add : Except Fault IOUAmount :=
  if rhs = zero then
    .ok lhs
  else if lhs = zero then
    .ok rhs
  else
    let exponent := max lhs.exponent rhs.exponent
    let mantissa := lhs.mantissa.tdiv (10 ^ (exponent - lhs.exponent).toNat) +
      rhs.mantissa.tdiv (10 ^ (exponent - rhs.exponent).toNat)
    if -10 ≤ mantissa ∧ mantissa ≤ 10 then .ok zero else normalize mantissa exponent

/-- `operator<`. -/
def lt : Bool :=
  let lneg := decide (lhs.mantissa < 0)
  if lneg != decide (rhs.mantissa < 0) then lneg
  else if lhs.mantissa = 0 then decide (0 < rhs.mantissa)
  else if rhs.mantissa = 0 then false
  else if rhs.exponent < lhs.exponent then lneg
  else if lhs.exponent < rhs.exponent then !lneg
  else decide (lhs.mantissa < rhs.mantissa)

end IOUAmount

namespace STAmount

variable {x y : STAmount} {v k fuel m m' : ℕ} {e : Int} {issue : Issue}

/-- The same value as an `IOUAmount`. -/
def iou (a : STAmount) : IOUAmount := ⟨a.drops, a.exponent⟩

theorem scaleUp_lt (h : v < 2 ^ 64) : (scaleUp fuel v e).1 < 2 ^ 64 := by
  fun_induction scaleUp fuel v e with
  | case2 _ _ _ hsm ih =>
    unfold cMinValue at hsm
    exact ih (by omega)
  | _ => exact h

theorem scaleDown_le {p : Nat × Int} (h : scaleDown fuel v e = .ok p) : p.1 ≤ v := by
  fun_induction scaleDown fuel v e with
  | case2 => cases h
  | case3 _ _ _ _ _ ih => exact (ih h).trans (Nat.div_le_self ..)
  | _ =>
    cases h
    rfl

theorem grow_eq : IOUAmount.grow fuel v e = scaleUp fuel v e := by
  induction fuel generalizing v e with
  | zero => rfl
  | succ fuel ih =>
    rw [IOUAmount.grow, ih]
    rfl

theorem shrink_eq : IOUAmount.shrink fuel v e = scaleDown fuel v e := by
  induction fuel generalizing v e with
  | zero => rfl
  | succ fuel ih =>
    rw [IOUAmount.shrink, ih]
    rfl

theorem normalize_eq {n : Int} (his : isXRP issue.currency = false) (hn : n ≠ 0)
    (hlt : n.natAbs < 2 ^ 64) :
    (canonicalize issue (.ofNat n.natAbs) e (decide (n < 0))).map iou =
      IOUAmount.normalize n e := by
  have hw : (ofNat n.natAbs).toNat = n.natAbs := mod_eq_of_lt hlt
  have hne : ofNat n.natAbs ≠ 0 := fun h =>
    hn (Int.natAbs_eq_zero.mp (hw.symm.trans (congrArg UInt64.toNat h)))
  unfold canonicalize IOUAmount.normalize
  simp only [grow_eq, shrink_eq, his, Bool.false_eq_true, if_false, hne, hw, hn]
  cases hd : scaleDown 20 (scaleUp 20 n.natAbs e).1 (scaleUp 20 n.natAbs e).2 with
  | error fault => rfl
  | ok p =>
    have hv : (ofNat p.1).toNat = p.1 := mod_eq_of_lt ((scaleDown_le hd).trans_lt (scaleUp_lt hlt))
    have hlow : IOUAmount.minExponent = cMinOffset := rfl
    have hhigh : IOUAmount.maxExponent = cMaxOffset := rfl
    have hmantissa : IOUAmount.minMantissa = cMinValue := rfl
    simp only [hlow, hhigh, hmantissa]
    split_ifs <;> simp [Except.map, iou, drops, IOUAmount.zero, *]

theorem decimal_lt_iff (e e' : Int) (hm : cMinValue ≤ m ∧ m < 10 ^ 16)
    (hm' : cMinValue ≤ m' ∧ m' < 10 ^ 16) :
    (m : ℚ) * 10 ^ e < m' * 10 ^ e' ↔ e < e' ∨ e = e' ∧ m < m' := by
  rw [← not_le]
  constructor
  · intro h
    by_contra hl
    exact h (decimal_le hm.1 (le_of_lt_succ hm'.2) (by omega))
  · intro hl hle
    have := exponent_lt_or_of_le (x := m' * 10 ^ e') hm'.1 (le_of_lt_succ hm.2) le_rfl
      (hle.trans_lt (mul_lt_mul_of_pos_right (lt_add_one _) (by positivity)))
    omega

section Issued

variable (hx : x.Canonical) (hnx : x.native = false)
include hx hnx

theorem Canonical.digits : x.mantissa.toNat = 0 ∧ x.exponent = -100 ∧ x.negative = false ∨
    (cMinValue ≤ x.mantissa.toNat ∧ x.mantissa.toNat < 10 ^ 16) ∧ -96 ≤ x.exponent ∧
      x.exponent ≤ 80 := by
  obtain ⟨h0, hrs⟩ | ⟨⟨hmi, hmx⟩, hrs⟩ := hx.issued hnx
  · exact .inl ⟨by rw [h0]; rfl, hrs⟩
  · exact .inr ⟨⟨hmi, lt_succ_of_le hmx⟩, hrs⟩

theorem Canonical.isZero_iff : x.isZero ↔ x.iou = IOUAmount.zero := by
  rw [STAmount.isZero_iff, ← UInt64.toNat_inj]
  unfold iou drops IOUAmount.zero
  obtain ⟨h0, he, hng⟩ | ⟨⟨hmi, -⟩, -⟩ := hx.digits hnx
  · simp [*]
  · unfold cMinValue at hmi
    grind

theorem Canonical.mantissa_lt_zero : decide (x.iou.mantissa < 0) = x.negative := by
  unfold iou drops
  obtain ⟨-, -, hng⟩ | ⟨⟨hmi, -⟩, -⟩ := hx.digits hnx
  · simp [hng]
  · unfold cMinValue at hmi
    cases x.negative <;> simp
    omega

theorem Canonical.alignedMantissa :
    x.alignedMantissa e = x.iou.mantissa.tdiv (10 ^ (e - x.iou.exponent).toNat) ∧
      (x.alignedMantissa e).natAbs < 10 ^ 16 := by
  have hlt : x.mantissa.toNat < 10 ^ 16 := by
    obtain ⟨h0, -⟩ | ⟨⟨-, hmx⟩, -⟩ := hx.digits hnx <;> omega
  have heq : x.alignedMantissa e = x.iou.mantissa.tdiv (10 ^ (e - x.iou.exponent).toNat) := by
    unfold STAmount.alignedMantissa
    rw [toInt_toInt64, if_pos (by omega)]
    rfl
  rw [heq, Int.natAbs_tdiv]
  exact ⟨rfl, (Nat.div_le_self ..).trans_lt ((natAbs_drops x).trans_lt hlt)⟩

variable (hy : y.Canonical) (hny : y.native = false)
include hy hny

theorem iou_add (hc : areComparable x y) : (x.add y).map iou = x.iou.add y.iou := by
  unfold add IOUAmount.add
  simp only [hc, Bool.not_true, Bool.false_eq_true, if_false, hnx, hx.isZero_iff hnx,
    hy.isZero_iff hny]
  split
  · rfl
  next hyz =>
  split
  · obtain ⟨h0, -⟩ | ⟨hm, hlo, hhi⟩ := hy.digits hny
    · rw [← hy.isZero_iff hny, STAmount.isZero_iff, ← UInt64.toNat_inj] at hyz
      exact absurd h0 hyz
    · rw [canonicalize_eq (k := 0) hnx hm.1 hm.2, if_neg (by omega), if_neg (by omega)]
      simp [Except.map, iou, drops]
  · obtain ⟨hxe, hxl⟩ := hx.alignedMantissa (e := x.exponent ⊔ y.exponent) hnx
    obtain ⟨hye, hyl⟩ := hy.alignedMantissa (e := x.exponent ⊔ y.exponent) hny
    have he : x.iou.exponent ⊔ y.iou.exponent = x.exponent ⊔ y.exponent := rfl
    simp only [addIssued, he, ← hxe, ← hye]
    split_ifs
    · rw [zeroOf, show isXRP x.issue.currency = false from hnx]
      rfl
    · exact normalize_eq hnx (by omega) (by omega)

theorem iou_lt : ltCore x y = x.iou.lt y.iou := by
  unfold ltCore IOUAmount.lt
  rw [hx.mantissa_lt_zero hnx, hy.mantissa_lt_zero hny]
  obtain ⟨_, a, e, s⟩ := x
  obtain ⟨_, b, e', s'⟩ := y
  simp only [iou, drops, lt_iff_toNat_lt, ← UInt64.toNat_inj, UInt64.toNat_zero, bne, beq_eq_decide]
  rw [Bool.eq_iff_iff]
  cases s <;> cases s' <;> simp <;> split_ifs <;> omega

theorem iou_lt_iff : x.iou.lt y.iou ↔ x.value < y.value := by
  have hxd := hx.digits hnx
  have hyd := hy.digits hny
  unfold IOUAmount.lt
  rw [hx.mantissa_lt_zero hnx, hy.mantissa_lt_zero hny]
  obtain ⟨_, a, e, s⟩ := x
  obtain ⟨_, b, e', s'⟩ := y
  have hp (v : ℕ) (e : Int) (h : cMinValue ≤ v) : 0 < v ∧ (0 : ℚ) < v * 10 ^ e := by
    have : 0 < v := (show 0 < cMinValue by decide).trans_le h
    exact ⟨this, by positivity⟩
  unfold iou drops value sign
  obtain ⟨hx0, -, rfl⟩ | ⟨hxm, -⟩ := hxd <;> obtain ⟨hy0, -, rfl⟩ | ⟨hym, -⟩ := hyd
  · simp_all
  · have hma := hp _ e' hym.1
    cases s' <;> simp_all [hma.2.le]
  · have hma := hp _ e hxm.1
    cases s <;> simp_all [hma.2.le]
  · have hlt := decimal_lt_iff e e' hxm hym
    have hgt := decimal_lt_iff e' e hym hxm
    obtain ⟨hx0, hxa⟩ := hp _ e hxm.1
    obtain ⟨hy0, hya⟩ := hp _ e' hym.1
    cases s <;> cases s' <;> simp
    · grind
    · linarith
    · linarith
    · grind

theorem iou_agrees (hc : areComparable x y) :
    (x.add y).map iou = x.iou.add y.iou ∧ x.lt y = .ok (x.iou.lt y.iou) ∧
      (x.iou.lt y.iou ↔ x.value < y.value) := by
  rw [lt, if_pos hc, iou_lt hx hnx hy hny]
  exact ⟨iou_add hx hnx hy hny hc, rfl, iou_lt_iff hx hnx hy hny⟩

end Issued

def one : STAmount := ⟨noIssue, 1000000000000000, -15, false⟩

def twoThousand : STAmount := ⟨noIssue, 2000000000000000, -12, false⟩

theorem iou_agrees_one_twoThousand :
    (one.add twoThousand).map iou = one.iou.add twoThousand.iou ∧
      one.iou.add twoThousand.iou = .ok ⟨2001000000000000, -12⟩ ∧
      one.lt twoThousand = .ok (one.iou.lt twoThousand.iou) := by
  obtain ⟨hadd, hlt, -⟩ := iou_agrees (x := one) (y := twoThousand) ⟨by decide, by decide⟩
    (by decide) ⟨by decide, by decide⟩ (by decide) (by decide)
  exact ⟨hadd, by decide, hlt⟩

end STAmount

end Sand
