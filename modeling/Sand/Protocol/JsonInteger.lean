import Sand.Protocol.Rounding

/-!
# Integers in JSON

They are meant to be kept as they are, or refused.
-/

namespace Sand

open STAmount Int32

inductive JsonInteger where
  | int (n : Int32)
  | uint (n : UInt32)

def JsonInteger.toInt : JsonInteger → ℤ
  | int n => n.toInt
  | uint n => n.toNat

/-! ## Fields -/

inductive IntegerField where
  | uint8
  | uint16
  | uint32
  | uint64

def IntegerField.bits : IntegerField → ℕ
  | uint8 => 8
  | uint16 => 16
  | uint32 => 32
  | uint64 => 64

/-- A type of fewer than 32 bits is compared as an `int`, in any other the value is converted. -/
def rangeCheckCast (bits : ℕ) (value : ℤ) : Except Fault ℕ :=
  let compared := if bits < 32 then value else value % 2 ^ bits
  if compared < 0 ∨ 2 ^ bits - 1 < compared then .error .exception
  else .ok (value % 2 ^ bits).toNat

section ParseLeaf

variable (jsonName fieldName : String)

def outOfRange : String := "Field '" ++ jsonName ++ "." ++ fieldName ++ "' is out of range."

def invalidData : String := "Field '" ++ jsonName ++ "." ++ fieldName ++ "' has invalid data."

def parseLeaf (field : IntegerField) (value : JsonInteger) : Except String ℕ :=
  let checked := (rangeCheckCast field.bits value.toInt).mapError
    fun _ => invalidData jsonName fieldName
  match field, value with
  | .uint8, _ =>
    if value.toInt < 0 ∨ 255 < value.toInt then .error (outOfRange jsonName fieldName) else checked
  | .uint32, .uint n | .uint64, .uint n => .ok n.toNat
  | _, _ => checked

/-- The value is stored, if it is in the field's range, or refused. -/
def LeafKept (field : IntegerField) (value : JsonInteger) : Prop :=
  match parseLeaf jsonName fieldName field value with
  | .ok stored => stored = value.toInt ∧ value.toInt < 2 ^ field.bits
  | .error _ => value.toInt < 0 ∨ 2 ^ field.bits ≤ value.toInt

theorem leafKept_iff (field : IntegerField) (val : JsonInteger) :
    LeafKept jsonName fieldName field val ↔ field.bits < 32 ∨ 0 ≤ val.toInt := by
  have hint (n : Int32) : -2 ^ 31 ≤ n.toInt ∧ n.toInt < 2 ^ 31 := ⟨n.le_toInt, n.toInt_lt⟩
  have hu (n : UInt32) : n.toNat < 2 ^ 32 := n.toNat_lt
  cases field <;> rcases val with n | n <;> first | have := hint n | have := hu n
  all_goals
    simp [LeafKept, parseLeaf, rangeCheckCast, IntegerField.bits, JsonInteger.toInt,
      Except.mapError]
  all_goals grind

end ParseLeaf

/-! ## Amounts -/

inductive AmountForm where
  | bare
  | array
  | object
  deriving DecidableEq

structure AmountJson where
  form : AmountForm
  value : JsonInteger
  currency : Option String
  issuer : Option String

namespace AmountJson

variable (toCurrency : String → Option Currency) (toIssuer : String → Option AccountID)
  (v : AmountJson)

def issue : Except String Issue :=
  if v.form = .bare ∨ v.currency.all fun code => code = "" ∨ code = "SAN" then
    if v.form = .object then .error "XRP may not be specified as an object" else .ok xrpIssue
  else
    match v.currency.bind toCurrency, v.issuer.bind toIssuer with
    | none, _ => .error "invalid currency"
    | _, none => .error "invalid issuer"
    | some currency, some account =>
      if isXRP currency then .error "invalid issuer" else .ok ⟨currency, account⟩

def toMantissa (n : Int32) : UInt64 := .ofNat (n.toInt % 2 ^ 64).toNat

/-- A negative number is negated as an `int`; an unsigned one is read from the whole form. -/
def mantissa : Except String (UInt64 × Bool) :=
  match v.value with
  | .int n => .ok (if 0 ≤ n.toInt then (toMantissa n, false) else (toMantissa (-n), true))
  | .uint n =>
    if v.form = .bare then .ok (n.toUInt64, false) else .error "Type is not convertible to uint"

def amountFromJson : Except String STAmount := do
  let issue ← v.issue toCurrency toIssuer
  let (mantissa, negative) ← v.mantissa
  (canonicalize issue mantissa 0 negative).mapError fun _ =>
    if isXRP issue.currency then "Native currency amount out of range" else "value overflow"

/-- The form is refused for its issue, or the amount has the value. -/
def Kept : Prop :=
  (∃ error, v.issue toCurrency toIssuer = .error error) ∨
    ∃ amount, v.amountFromJson toCurrency toIssuer = .ok amount ∧ amount.value = v.value.toInt

variable {toCurrency toIssuer v}

theorem scaleUp_eq (fuel : ℕ) {w : ℕ} {e : ℤ} (hw : 0 < w) (hmx : w < 10 ^ 16)
    (hf : cMinValue ≤ w * 10 ^ fuel) (he : cMinOffset < e - fuel) :
    ∃ j ≤ fuel, scaleUp fuel w e = (w * 10 ^ j, e - j) ∧ cMinValue ≤ w * 10 ^ j ∧
      w * 10 ^ j < 10 ^ 16 := by
  induction fuel generalizing w e with
  | zero => exact ⟨0, le_rfl, by simp [scaleUp], hf, by simpa using hmx⟩
  | succ fuel ih =>
    rw [scaleUp]
    split_ifs with hsm
    · unfold cMinValue at hsm
      obtain ⟨j, hj, hs, hmi, hlt⟩ := ih (w := w * 10) (e := e - 1) (by omega) (by omega)
        (by rwa [mul_assoc, ← Nat.pow_succ']) (by push_cast at he; omega)
      rw [mul_assoc, ← Nat.pow_succ'] at hs hmi hlt
      exact ⟨j + 1, by omega, by simp [hs, sub_sub, add_comm], hmi, hlt⟩
    · exact ⟨0, Nat.zero_le _, by simp, by push_cast at he; simp; omega, by simpa using hmx⟩

theorem canonicalize_small (iss : Issue) {m : UInt64} (hm : m.toNat < 2 ^ 32) (neg : Bool) :
    ∃ amount, canonicalize iss m 0 neg = .ok amount ∧ amount.value = sign neg * m.toNat := by
  by_cases h0 : m = 0
  · refine ⟨zeroOf iss, ?_, by simp [STAmount.value, zeroOf, h0]⟩
    simp only [canonicalize, h0, if_true, zeroOf]
    split_ifs <;> rfl
  have hp : 0 < m.toNat := by
    rw [Nat.pos_iff_ne_zero]
    exact fun hnu => h0 (UInt64.toNat_inj.mp hnu)
  cases his : isXRP iss.currency with
  | true =>
    refine ⟨⟨iss, m, 0, neg⟩, ?_, by simp [STAmount.value]⟩
    have hlt : m.toNat % 2 ^ 64 = m.toNat := Nat.mod_eq_of_lt m.toNat_lt
    have hmx : ¬ cMaxNativeN < m.toNat := by unfold cMaxNativeN; omega
    simp [canonicalize, his, h0, hmx]
  | false =>
    obtain ⟨j, hj, hs, hmi, hmx⟩ := scaleUp_eq 20 (e := 0) hp (by omega)
      (by unfold cMinValue; omega) (by decide)
    have hto : (UInt64.ofNat (m.toNat * 10 ^ j)).toNat = m.toNat * 10 ^ j := by
      rw [UInt64.toNat_ofNat', Nat.mod_eq_of_lt (by omega)]
    have hd : scaleDown 20 (m.toNat * 10 ^ j) (0 - j) = .ok (m.toNat * 10 ^ j, 0 - j) := by
      rw [scaleDown, if_neg (by unfold cMaxValue; omega)]
    refine ⟨⟨iss, .ofNat (m.toNat * 10 ^ j), 0 - j, neg⟩, ?_, ?_⟩
    · simp only [canonicalize, his, Bool.false_eq_true, if_false, h0, hs, hd]
      rw [if_neg (by unfold cMinOffset; omega), if_neg (by unfold cMaxOffset; omega)]
    · rw [STAmount.value, hto, zero_sub, zpow_neg, zpow_natCast]
      push_cast
      field_simp

theorem toNat_toMantissa {n : Int32} (hn : 0 ≤ n.toInt) : ((toMantissa n).toNat : ℤ) = n.toInt := by
  have := n.toInt_lt
  rw [toMantissa, UInt64.toNat_ofNat']
  omega

section

variable {issue : Issue} (his : v.issue toCurrency toIssuer = .ok issue)
include his

theorem kept_of_mantissa (m : UInt64) (neg : Bool) (hma : v.mantissa = .ok (m, neg))
    (hm : m.toNat < 2 ^ 32) (hv : (if neg then -m.toNat else m.toNat : ℤ) = v.value.toInt) :
    v.Kept toCurrency toIssuer := by
  obtain ⟨amount, ha, hex⟩ := canonicalize_small issue hm neg
  refine .inr ⟨amount, ?_, ?_⟩
  · simp [amountFromJson, his, hma, ha, Except.mapError, bind, Except.bind]
  · rw [hex, ← hv]
    cases neg <;> simp [sign]

/-- The least number is its own negation, which is a large mantissa. -/
theorem not_kept_min (hv : v.value = .int minValue) : ¬ v.Kept toCurrency toIssuer := by
  have hma : v.mantissa = .ok (18446744071562067968, true) := by
    rw [mantissa, hv]
    rfl
  rintro (⟨_, her⟩ | ⟨amount, ha, hex⟩)
  · simp [his] at her
  cases hna : isXRP issue.currency with
  | true =>
    simp [amountFromJson, his, hma, canonicalize, hna, cMaxNativeN, Except.mapError,
      bind, Except.bind] at ha
  | false =>
    have hc : canonicalize issue 18446744071562067968 0 true =
        .ok ⟨issue, 1844674407156206, 4, true⟩ :=
      canonicalize_eq (k := 4) hna (by decide) (by decide)
    simp [amountFromJson, his, hma, hc, Except.mapError, bind, Except.bind] at ha
    have hto : (1844674407156206 : UInt64).toNat = 1844674407156206 := rfl
    have hl : (JsonInteger.int minValue).toInt = -2 ^ 31 := rfl
    rw [← ha, hv, hl, STAmount.value, hto] at hex
    norm_num [sign] at hex

theorem kept_int {n : Int32} (hv : v.value = .int n) (hmi : n ≠ minValue) :
    v.Kept toCurrency toIssuer := by
  have hne : n.toInt ≠ -2 ^ 31 := fun h => hmi (Int32.toInt_inj.mp h)
  have hle := n.le_toInt
  have hlt := n.toInt_lt
  by_cases hn : 0 ≤ n.toInt
  · have hto := toNat_toMantissa hn
    refine kept_of_mantissa his (toMantissa n) false ?_ (by omega) ?_
    · simp [mantissa, hv, hn]
    · simp [hv, hto, JsonInteger.toInt]
  · have hng : (-n).toInt = -n.toInt := by
      rw [toInt_neg]
      exact Int.bmod_eq_of_le (by omega) (by omega)
    have hto := toNat_toMantissa (n := -n) (by omega)
    refine kept_of_mantissa his (toMantissa (-n)) true ?_ (by omega) ?_
    · simp [mantissa, hv, hn]
    · simp [hv, hto, hng, JsonInteger.toInt]

end

theorem kept_iff : v.Kept toCurrency toIssuer ↔ ∀ issue, v.issue toCurrency toIssuer = .ok issue →
    v.value ≠ .int minValue ∧ ∀ n, v.value = .uint n → v.form = .bare := by
  cases his : v.issue toCurrency toIssuer with
  | error error => exact iff_of_true (.inl ⟨error, his⟩) nofun
  | ok issue =>
    simp only [Except.ok.injEq, forall_eq']
    cases hv : v.value with
    | int n =>
      by_cases hmi : n = minValue
      · simp [hmi, not_kept_min his (hmi ▸ hv)]
      · exact iff_of_true (kept_int his hv hmi) ⟨by simpa using hmi, nofun⟩
    | uint n =>
      by_cases hb : v.form = .bare
      · refine iff_of_true ?_ ⟨nofun, fun _ _ => hb⟩
        refine kept_of_mantissa his n.toUInt64 false ?_ (by simpa using n.toNat_lt) ?_
        · simp [mantissa, hv, hb]
        · simp [hv, JsonInteger.toInt]
      · refine iff_of_false ?_ fun h => hb (h.2 n rfl)
        rintro (⟨_, her⟩ | ⟨_, ha, _⟩)
        · simp [his] at her
        · simp [amountFromJson, his, mantissa, hv, hb, bind, Except.bind] at ha

/-- Negative numbers are stored in wide fields modulo their width; unsigned numbers in a form and
the least signed one do not become amounts. -/
theorem integers_kept_iff (jsonName fieldName : String) (field : IntegerField)
    (n : JsonInteger) (toCurrency : String → Option Currency) (toIssuer : String → Option AccountID)
    (v : AmountJson) :
    (LeafKept jsonName fieldName field n ∧ v.Kept toCurrency toIssuer) ↔
      (field.bits < 32 ∨ 0 ≤ n.toInt) ∧ ∀ issue, v.issue toCurrency toIssuer = .ok issue →
        v.value ≠ .int minValue ∧ ∀ n, v.value = .uint n → v.form = .bare :=
  and_congr (leafKept_iff jsonName fieldName field n) kept_iff

theorem minus_one_stored : parseLeaf "tx_json" "Flags" .uint32 (.int (-1)) = .ok 4294967295 ∧
    ¬ LeafKept "tx_json" "Flags" .uint32 (.int (-1)) := by
  rw [leafKept_iff]
  exact ⟨rfl, by decide⟩

end AmountJson

end Sand
