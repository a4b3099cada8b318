import Sand.Protocol.Drops

/-!
# Products of native amounts
-/

namespace Sand.STAmount

open Nat

/-- The product is exact or refused, refused above the greatest value. -/
def ExactOrRefused (v1 v2 : STAmount) (product : Except Fault STAmount) : Prop :=
  (∀ amount, product = .ok amount → amount.native ∧ amount.drops = v1.drops * v2.drops) ∧
    (cMaxNative < v1.drops * v2.drops → product = .error .exception)

/-- What the two comparisons let through. -/
def PassesGuards (minV maxV : UInt64) : Prop :=
  minV ≤ 3000000000 ∧ (maxV >>> 32) * minV ≤ 2095475792
  deriving Decidable

theorem PassesGuards.toNat_mul {minV maxV : UInt64} (h : PassesGuards minV maxV) :
    (minV * maxV).toNat = minV.toNat * maxV.toNat := by
  obtain ⟨hm, hh⟩ := h
  have hlt := maxV.toNat_lt
  rw [UInt64.le_iff_toNat_le, show (3000000000 : UInt64).toNat = 3000000000 from rfl] at hm
  rw [UInt64.le_iff_toNat_le, UInt64.toNat_mul, UInt64.toNat_shiftRight, shiftRight_eq_div_pow,
    show (32 : UInt64).toNat % 64 = 32 from rfl,
    show (2095475792 : UInt64).toNat = 2095475792 from rfl,
    mod_eq_of_lt ((mul_le_mul_left _ hm).trans_lt (by omega))] at hh
  refine mod_eq_of_lt ?_
  -- the high word times the smaller factor is bounded, the low word adds at most as much
  calc minV.toNat * maxV.toNat
      ≤ minV.toNat * ((maxV.toNat / 2 ^ 32 + 1) * 2 ^ 32) := mul_le_mul_left _ (by omega)
    _ = (maxV.toNat / 2 ^ 32 * minV.toNat + minV.toNat) * 2 ^ 32 := by
      rw [← mul_assoc, mul_comm minV.toNat, succ_mul]
    _ < 2 ^ 64 := by
      cases hw : maxV.toNat / 2 ^ 32 with
      | zero => omega
      | succ high =>
        have := Nat.le_mul_of_pos_left minV.toNat (show 0 < high + 1 by omega)
        rw [hw] at hh
        omega

def guarded (minV maxV : UInt64) : Except Fault STAmount :=
  if PassesGuards minV maxV then .ok (ofDrops (minV * maxV)) else .error .exception

theorem guarded_iff (minV maxV : UInt64) : ((∀ amount, guarded minV maxV = .ok amount →
        amount.native ∧ amount.drops = (minV.toNat * maxV.toNat : ℕ)) ∧
      ((cMaxNative : Int) < (minV.toNat * maxV.toNat : ℕ) →
        guarded minV maxV = .error .exception)) ↔
    (PassesGuards minV maxV → minV.toNat * maxV.toNat ≤ cMaxNative) := by
  unfold guarded
  by_cases hp : PassesGuards minV maxV
  · have hd : (ofDrops (minV * maxV)).drops = (minV.toNat * maxV.toNat : ℕ) :=
      congrArg Nat.cast hp.toNat_mul
    have hna : (ofDrops (minV * maxV)).native := rfl
    simp only [hp, if_true, Except.ok.injEq, forall_eq', hna, hd, and_self, true_and,
      reduceCtorEq, imp_false, not_lt, Int.ofNat_le, forall_const]
  · simp [hp]

variable {v1 v2 : STAmount}

/-- Products of native amounts are exact or refused exactly if the guards let none above the
greatest native value through. -/
theorem exactOrRefused_iff {issue : Issue} (his : isXRP issue.currency = true)
    (h1 : v1.native = true) (h2 : v2.native = true)
    (hsign1 : v1.negative = false) (hsign2 : v2.negative = false)
    (hmax1 : v1.mantissa.toNat ≤ cMaxNative) (hmax2 : v2.mantissa.toNat ≤ cMaxNative)
    (roundUp : Bool) :
    (ExactOrRefused v1 v2 (v1.multiply v2 issue) ∧
      ExactOrRefused v1 v2 (v1.mulRound v2 issue roundUp)) ↔
    ((if v1.mantissa < v2.mantissa then PassesGuards v1.mantissa v2.mantissa
      else PassesGuards v2.mantissa v1.mantissa) →
        v1.mantissa.toNat * v2.mantissa.toNat ≤ cMaxNative) := by
  have hr : v1.mulRound v2 issue roundUp = v1.multiply v2 issue := by
    simp [mulRound, multiply, h1, h2, his]
  have hd : v1.drops * v2.drops = (v1.mantissa.toNat * v2.mantissa.toNat : ℕ) := by
    simp [drops, hsign1, hsign2, cast_mul]
  rw [hr, and_self, ExactOrRefused, hd]
  by_cases h0 : (v1.isZero || v2.isZero)
  · have hn : v1.mantissa.toNat * v2.mantissa.toNat = 0 := by
      rw [Bool.or_eq_true, isZero_iff, isZero_iff] at h0
      rcases h0 with h | h <;> simp [h]
    have hok : v1.multiply v2 issue = .ok (zeroOf issue) := if_pos h0
    rw [hok, hn]
    simp [zeroOf, native, drops, his, cMaxNative]
  have hlt : v1.mantissa.toInt64 < v2.mantissa.toInt64 ↔ v1.mantissa < v2.mantissa := by
    unfold cMaxNative at hmax1 hmax2
    rw [Int64.lt_iff_toInt_lt, toInt_toInt64, toInt_toInt64, if_pos (by omega),
      if_pos (by omega), UInt64.lt_iff_toNat_lt, Int.ofNat_lt]
  have hpr : v1.multiply v2 issue = if v1.mantissa < v2.mantissa then
      guarded v1.mantissa v2.mantissa else guarded v2.mantissa v1.mantissa := by
    have hw : ∀ v : STAmount, v.mantissa.toInt64.toUInt64 = v.mantissa := fun _ => rfl
    simp only [multiply, multiplyNative, getSNValue, h0, h1, h2, hsign1, hsign2, his,
      Bool.and_self, if_true, Bool.false_eq_true, if_false, bind, Except.bind, pure,
      Except.pure, hlt, guarded, PassesGuards, ← UInt64.not_lt]
    split_ifs <;> simp_all
  rw [hpr]
  split_ifs
  · exact guarded_iff _ _
  · rw [mul_comm]
    exact guarded_iff _ _

/-- The guards let these through, above the greatest value. -/
theorem product_not_refused : ¬ ExactOrRefused (ofDrops 3000000000) (ofDrops 4000000000)
      ((ofDrops 3000000000).multiply (ofDrops 4000000000) xrpIssue) := by
  rintro ⟨-, h⟩
  exact absurd (h (by decide)) (by decide)

theorem exactOrRefused_three_five :
    ExactOrRefused (ofDrops 3) (ofDrops 5) ((ofDrops 3).multiply (ofDrops 5) xrpIssue) :=
  ((exactOrRefused_iff rfl rfl rfl rfl rfl (by decide) (by decide) true).mpr fun _ => by decide).1

end Sand.STAmount
