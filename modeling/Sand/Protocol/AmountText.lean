import Sand.Protocol.Rounding

/-!
# Amounts in text

A text is matched against a number, whose exponent is applied to 64-bit drops.
-/

namespace Sand.STAmount

open Int

/-- The parts of a number; the exponent with whether it is negative. -/
structure NumberText where
  negative : Bool
  integer : List Char
  fraction : Option (List Char)
  exponent : Option (Bool × List Char)

def matchSign : List Char → Bool × List Char
  | '-' :: s => (true, s)
  | '+' :: s => (false, s)
  | s => (false, s)

def matchFraction : List Char → Option (Option (List Char) × List Char)
  | '.' :: s =>
    let (fraction, rest) := s.span Char.isDigit
    if fraction = [] then none else some (some fraction, rest)
  | s => some (none, s)

def matchExponent : List Char → Option (Option (Bool × List Char))
  | [] => some none
  | c :: s =>
    let (negative, s) := matchSign s
    if (c = 'e' ∨ c = 'E') ∧ s ≠ [] ∧ s.all Char.isDigit then some (some (negative, s)) else none

def reNumber (s : List Char) : Option NumberText := do
  let (negative, s) := matchSign s
  let (integer, s) := s.span Char.isDigit
  guard (integer = ['0'] ∨ integer.head?.any (· ≠ '0'))
  let (fraction, s) ← matchFraction s
  let exponent ← matchExponent s
  return ⟨negative, integer, fraction, exponent⟩

def decimal (s : List Char) : ℕ := s.foldl (fun n c => 10 * n + (c.toNat - '0'.toNat)) 0

namespace NumberText

variable (n : NumberText)

def mantissa : ℕ := decimal (n.integer ++ n.fraction.getD [])

def scale : ℤ :=
  n.exponent.elim 0 (fun (negative, s) => if negative then -decimal s else decimal s) -
    (n.fraction.getD []).length

def value : ℚ := sign n.negative * (n.mantissa * 10 ^ n.scale)

/-- Overlong, with a fraction of a drop, or out of the range of a `lexicalCastThrow`. -/
def refused (issue : Issue) : Bool :=
  decide (32 < n.integer.length + (n.fraction.getD []).length) ||
    isXRP issue.currency && n.fraction.isSome || decide (2 ^ 64 ≤ n.mantissa) ||
    n.exponent.any fun (_, s) => decide (2 ^ 31 ≤ decimal s)

end NumberText

def amountFromString (issue : Issue) (s : List Char) : Except Fault STAmount :=
  match reNumber s with
  | none => .error .exception
  | some n =>
    if n.refused issue then .error .exception
    else canonicalize issue (.ofNat n.mantissa) n.scale n.negative

/-- The drops that a mantissa and an exponent come to, cut off or modulo `2 ^ 64`. -/
def scaled (m : ℕ) (e : ℤ) : ℕ :=
  if e < 0 then m / 10 ^ e.natAbs else m * 10 ^ e.natAbs % 2 ^ 64

/-- A result is the integer that the text denotes. -/
def ExactOrThrows (s : List Char) : Prop :=
  ∀ amount, amountFromString xrpIssue s = .ok amount →
    ∃ (n : NumberText) (z : ℤ), reNumber s = some n ∧ n.value = z ∧ z.natAbs ≤ cMaxNative ∧
      amount.value = z ∧ (amount.negative → z ≠ 0)

/-- Nothing is cut off or lost modulo `2 ^ 64`, unless what is left is too large. -/
def Scalable (m : ℕ) (e : ℤ) : Prop :=
  m = 0 ∨ cMaxNativeN < scaled m e ∨
    if e < 0 then 10 ^ e.natAbs ∣ m else m * 10 ^ e.natAbs ≤ cMaxNativeN

theorem scaled_eq_iff {m : ℕ} {e : ℤ} (hm : scaled m e ≤ cMaxNativeN) :
    (scaled m e : ℚ) = m * 10 ^ e ↔
      if e < 0 then 10 ^ e.natAbs ∣ m else m * 10 ^ e.natAbs ≤ cMaxNativeN := by
  unfold scaled at hm ⊢
  rcases lt_or_ge e 0 with hne | hp
  · obtain ⟨k, rfl⟩ := exists_eq_neg_ofNat hne.le
    rw [if_pos hne, if_pos hne, natAbs_neg, natAbs_natCast, zpow_neg, zpow_natCast,
      ← div_eq_mul_inv, eq_div_iff (by positivity), Nat.dvd_iff_div_mul_eq]
    norm_cast
  · obtain ⟨k, rfl⟩ := eq_ofNat_of_zero_le hp
    rw [if_neg hp.not_gt, natAbs_natCast] at hm ⊢
    rw [if_neg hp.not_gt, zpow_natCast]
    norm_cast
    refine ⟨fun h => h ▸ hm, fun h => Nat.mod_eq_of_lt ?_⟩
    unfold cMaxNativeN at h
    omega

theorem amountFromString_eq {s : List Char} {n : NumberText} (hn : reNumber s = some n)
    (hr : n.refused xrpIssue = false) :
    amountFromString xrpIssue s =
      if n.mantissa = 0 then .ok zeroDrops
      else if cMaxNativeN < scaled n.mantissa n.scale then .error .exception
      else .ok ⟨xrpIssue, .ofNat (scaled n.mantissa n.scale), 0, n.negative⟩ := by
  have hlt : n.mantissa < 2 ^ 64 := by
    simp only [NumberText.refused, Bool.or_eq_false_iff, decide_eq_false_iff_not] at hr
    omega
  have hto : (UInt64.ofNat n.mantissa).toNat = n.mantissa := by
    rw [UInt64.toNat_ofNat', Nat.mod_eq_of_lt hlt]
  have h0 : UInt64.ofNat n.mantissa = 0 ↔ n.mantissa = 0 := by
    rw [← UInt64.toNat_inj, hto]
    rfl
  simp only [amountFromString, hn, hr, canonicalize, hto, h0, scaled]
  rfl

theorem value_ofNat {v : ℕ} (hv : v ≤ cMaxNativeN) (neg : Bool) :
    value ⟨xrpIssue, .ofNat v, 0, neg⟩ = sign neg * v := by
  unfold cMaxNativeN at hv
  rw [value, UInt64.toNat_ofNat', Nat.mod_eq_of_lt (by omega), zpow_zero, mul_one]

theorem exists_sign_mul (neg : Bool) (v : ℕ) : ∃ z : ℤ, sign neg * v = z ∧ z.natAbs = v := by
  cases neg with
  | false => exact ⟨v, by simp [sign], natAbs_natCast v⟩
  | true => exact ⟨-v, by simp [sign], by simp⟩

/-- A native amount is exact or refused, unless digits are cut off or the multiplication wraps. -/
theorem exactOrThrows_iff (s : List Char) : ExactOrThrows s ↔
    ∀ n, reNumber s = some n → n.refused xrpIssue = false → Scalable n.mantissa n.scale := by
  constructor
  · intro h n hn hr
    rw [Scalable, or_iff_not_imp_left, or_iff_not_imp_left, not_lt]
    intro h0 hm
    obtain ⟨n', z, hn', hz, -, hva, -⟩ := h _ ((amountFromString_eq hn hr).trans
      ((if_neg h0).trans (if_neg (not_lt.mpr hm))))
    obtain rfl : n = n' := Option.some.inj (hn.symm.trans hn')
    rw [value_ofNat hm, ← hz, NumberText.value] at hva
    refine (scaled_eq_iff hm).mp (mul_left_cancel₀ (a := sign n.negative) ?_ hva)
    cases n.negative <;> norm_num [sign]
  · intro h amount ha
    cases hn : reNumber s with
    | none => simp [amountFromString, hn] at ha
    | some n =>
      cases hr : n.refused xrpIssue with
      | true => simp [amountFromString, hn, hr] at ha
      | false =>
        rw [amountFromString_eq hn hr] at ha
        refine ⟨n, ?_⟩
        split_ifs at ha with h0 hm
        · cases ha
          exact ⟨0, rfl, by simp [NumberText.value, h0], Nat.zero_le _,
            by simp [value, zeroDrops, ofDrops], by rintro ⟨⟩⟩
        · cases ha
          have hle := not_lt.mp hm
          have hex := (scaled_eq_iff hle).mpr (((h n hn hr).resolve_left h0).resolve_left hm)
          obtain ⟨z, hz, hab⟩ := exists_sign_mul n.negative (scaled n.mantissa n.scale)
          rw [value_ofNat hle, NumberText.value, ← hex]
          refine ⟨z, rfl, hz, hab ▸ hle.trans (by decide), hz, ?_⟩
          rintro - rfl
          rw [← hab, natAbs_zero, Nat.cast_zero, zero_eq_mul] at hex
          exact h0 (by exact_mod_cast hex.resolve_right (by positivity))

def oneAndHalf : List Char := ['1', '5', 'e', '-', '1']

theorem oneAndHalf_cut_off :
    amountFromString xrpIssue oneAndHalf = .ok (.ofDrops 1) ∧ ¬ ExactOrThrows oneAndHalf := by
  refine ⟨rfl, fun h => ?_⟩
  obtain ⟨n, z, hn, hz, -, hva, -⟩ := h (.ofDrops 1) rfl
  obtain ⟨hng, hma, hs⟩ : n.negative = false ∧ n.mantissa = 15 ∧ n.scale = -1 := by
    cases hn
    exact ⟨rfl, rfl, rfl⟩
  have ho : (ofDrops 1).value = 1 := by simp [value, ofDrops, sign]
  rw [← hva, ho, NumberText.value, hng, hma, hs] at hz
  norm_num [sign] at hz

end Sand.STAmount
