import Sand.Protocol.Equivalence
import Sand.Protocol.Parsing

/-!
# Values read back

What reading makes of a written value, and which values come back the same.
-/

namespace Sand

open ByteReader SerialIter Serializer List BigEndian STPathElement UInt8 STVector256 Nat

/-! ## Numbers and byte strings -/

theorem reads_getN {n x : ℕ} (what : String) (hx : x < 256 ^ n) :
    Reads (getN n what) (bytes n x) x := by
  have hva : value (bytes n x) = x := by
    rw [value_bytes, mod_eq_of_lt hx]
  have h : Reads (getN n what) (bytes n x) (value (bytes n x)) :=
    (reads_take _ (length_bytes n x)).map _
  rwa [hva] at h

theorem reads_getBitString {bits n : ℕ} (hbi : bits = 8 * n) (x : BitVec bits) :
    Reads (getBitString bits) (bytes n x.toNat) x := by
  have hdi : bits / 8 = n := by omega
  have hlt : x.toNat < 256 ^ n := by
    have hpo : (256 : ℕ) ^ n = 2 ^ bits := by
      rw [hbi, pow_mul]
      rfl
    rw [hpo]
    exact x.isLt
  have h : Reads (getBitString bits) (bytes n x.toNat) (BitVec.ofNat bits x.toNat) := by
    unfold getBitString
    rw [hdi]
    exact (reads_getN _ hlt).map _
  rwa [BitVec.ofNat_toNat, BitVec.setWidth_eq] at h

theorem toNat_ofNat_byte {n : ℕ} (hn : n < 256) : (ofNat n).toNat = n := by
  exact mod_eq_of_lt hn

theorem reads_getVLDataLength {length : ℕ} (h : length ≤ 918744) :
    ∃ bytes, addEncoded length = .ok bytes ∧ Reads getVLDataLength bytes length := by
  have ho (first : UInt8) (more rest : Blob) : getVLDataLength.run ((first :: more) ++ rest) =
        (if first.toNat ≤ 192 then pure first.toNat
          else if first.toNat ≤ 240 then do
            let b2 ← get8
            return 193 + (first.toNat - 193) * 256 + b2
          else if first.toNat ≤ 254 then do
            let b2 ← get8
            let b3 ← get8
            return 12481 + (first.toNat - 241) * 65536 + b2 * 256 + b3
          else throw "b1>254" : SerialIter ℕ).run (more ++ rest) :=
    run_bind_of_ok (run_get8_cons first (more ++ rest))
  unfold addEncoded
  by_cases h1 : length ≤ 192
  · rw [if_pos h1]
    refine ⟨_, rfl, reads_iff.mpr fun rest => ?_⟩
    have hf : (ofNat length).toNat = length := toNat_ofNat_byte (by omega)
    rw [ho, hf, if_pos h1]
    rfl
  rw [if_neg h1]
  by_cases h2 : length ≤ 12480
  · rw [if_pos h2]
    refine ⟨_, rfl, reads_iff.mpr fun rest => ?_⟩
    have hf : (ofNat (193 + (length - 193) / 256)).toNat = 193 + (length - 193) / 256 :=
      toNat_ofNat_byte (by omega)
    rw [ho, hf, if_neg (by omega), if_pos (by omega), singleton_append,
      run_bind_of_ok (run_get8_cons _ rest), toNat_ofNat']
    refine congrArg (fun n => Except.ok (n, rest)) ?_
    omega
  · rw [if_neg h2, if_pos h]
    refine ⟨_, rfl, reads_iff.mpr fun rest => ?_⟩
    have hf : (ofNat (241 + (length - 12481) / 65536)).toNat =
        241 + (length - 12481) / 65536 := toNat_ofNat_byte (by omega)
    rw [ho, hf, if_neg (by omega), if_neg (by omega), if_pos (by omega), cons_append,
      singleton_append, run_bind_of_ok (run_get8_cons _ _),
      run_bind_of_ok (run_get8_cons _ rest), toNat_ofNat', toNat_ofNat']
    refine congrArg (fun n => Except.ok (n, rest)) ?_
    omega

theorem reads_getVL {data : Blob} (h : data.length ≤ 918744) :
    ∃ bytes, addVL data = .ok bytes ∧ Reads getVL bytes data := by
  obtain ⟨bytes, hen, hr⟩ := reads_getVLDataLength h
  refine ⟨bytes ++ data, ?_, hr.bind (reads_take _ rfl)⟩
  rw [addVL, hen]
  rfl

theorem STVector256.ofBytes_flatMap (hashes : List UInt256) :
    ofBytes (hashes.flatMap fun x => bytes 32 x.toNat) = hashes := by
  induction hashes with
  | nil => rfl
  | cons x hashes ih =>
    have hle : (bytes 32 x.toNat).length = 32 := length_bytes _ _
    have hva : BitVec.ofNat 256 (value (bytes 32 x.toNat)) = x := by
      have hx : x.toNat < 256 ^ 32 := x.isLt
      rw [value_bytes, mod_eq_of_lt hx, BitVec.ofNat_toNat, BitVec.setWidth_eq]
    unfold ofBytes at ih ⊢
    rw [flatMap_cons, length_append, hle, add_comm 32,
      add_div_right _ (by decide), range_succ_eq_map, map_cons, map_map]
    refine cons_eq_cons.mpr ⟨?_, ?_⟩
    · rw [Nat.mul_zero, drop_zero, take_left' hle, hva]
    nth_rewrite 3 [← ih]
    refine map_congr_left fun i _ => ?_
    have hd : 32 * (i + 1) = (bytes 32 x.toNat).length + 32 * i := by
      omega
    rw [Function.comp_apply, succ_eq_add_one, hd, drop_length_add_append]

/-! ## Amounts -/

namespace STAmount

/-- Canonical, with a legal issue and magnitude. -/
structure IsCanonical (a : STAmount) : Prop where
  native : a.native → a.issue = xrpIssue ∧ a.exponent = 0 ∧
    a.mantissa.toNat ≤ cMaxNative ∧ (a.mantissa = 0 → a.negative = false)
  issued : a.native = false → a.issue.account ≠ 0 ∧
    (a.mantissa = 0 ∧ a.exponent = -100 ∧ a.negative = false ∨
      (cMinValue ≤ a.mantissa.toNat ∧ a.mantissa.toNat ≤ cMaxValue) ∧
        cMinOffset ≤ a.exponent ∧ a.exponent ≤ cMaxOffset)

/-- The drops leave the bit of the sign alone. -/
def FitsBesideSign (a : STAmount) : Prop :=
  a.native → a.mantissa.toNat < cPosNative

variable {a : STAmount} {issue : Issue}

theorem same_comm (a b : STAmount) : a.same b = b.same a := by
  unfold same areComparable
  grind

theorem same_self (a : STAmount) : a.same a := by
  simp [same, areComparable]

theorem or_cPosNative {m : ℕ} (hm : m < 2 ^ 63) :
    (m ||| cPosNative) = if m < 2 ^ 62 then 2 ^ 62 + m else m := by
  unfold cPosNative
  by_cases hlt : m < 2 ^ 62
  · rw [if_pos hlt, Nat.or_comm]
    exact (Nat.two_pow_add_eq_or_of_lt hlt 1).symm
  rw [if_neg hlt]
  have hsp : m = 2 ^ 62 ||| (m - 2 ^ 62) := by
    have had := Nat.two_pow_add_eq_or_of_lt (i := 62) (b := m - 2 ^ 62) (by omega) 1
    rw [Nat.mul_one] at had
    omega
  rw [hsp, Nat.or_assoc, Nat.or_comm (m - 2 ^ 62), ← Nat.or_assoc, Nat.or_self]

variable {word : ℕ}

theorem reads_word (hw : word < 2 ^ 63) (h : readNative word = pure a) : Reads read
    (bytes 8 word) a := by
  have hr : Reads read (bytes 8 word ++ []) a := by
    refine (reads_getN "get64" (by omega)).bind ?_
    rw [if_pos (div_eq_of_lt hw), h]
    exact reads_pure a
  rwa [append_nil] at hr

/-- It comes back if its drops leave the sign bit alone. -/
theorem reads_native (hna : a.native) (ha : a.IsCanonical) :
    ∃ a', Reads read a.addBytes a' ∧ (a'.same a ↔ a.FitsBesideSign) ∧
      (a.FitsBesideSign → a' = a) := by
  obtain ⟨his, hep, hma, h0⟩ := ha.native hna
  have hm : a.mantissa.toNat < 2 ^ 63 := by
    unfold cMaxNative at hma
    omega
  obtain ⟨issue, mantissa, exponent, negative⟩ := a
  dsimp only at his hep hm h0
  subst his hep
  unfold addBytes FitsBesideSign
  dsimp only
  by_cases hlt : mantissa.toNat < 2 ^ 62
  · refine ⟨⟨xrpIssue, mantissa, 0, negative⟩, ?_, iff_of_true (same_self _) fun _ => hlt,
      fun _ => rfl⟩
    cases negative with
    | false =>
      have hor := or_cPosNative hm
      rw [if_pos hlt] at hor
      rw [if_neg Bool.false_ne_true, hor]
      refine reads_word (by omega) ?_
      have hl : (2 ^ 62 + mantissa.toNat) % 2 ^ 62 = mantissa.toNat := by omega
      rw [readNative, if_pos (by omega), hl, UInt64.ofNat_toNat]
    | true =>
      have hne : mantissa.toNat ≠ 0 := by
        intro h
        exact Bool.noConfusion (h0 (UInt64.toNat_inj.mp h))
      rw [if_pos rfl]
      refine reads_word hm ?_
      rw [readNative, if_neg (by omega), if_neg hne, UInt64.ofNat_toNat]
  · refine ⟨⟨xrpIssue, .ofNat (mantissa.toNat % 2 ^ 62), 0, false⟩, ?_,
      iff_of_false ?_ fun h => hlt (h hna), fun h => absurd (h hna) hlt⟩
    · have hor := or_cPosNative hm
      rw [if_neg hlt] at hor
      rw [hor, ite_self]
      refine reads_word hm ?_
      rw [readNative, if_pos (by omega)]
    · intro hs
      have hmn : UInt64.ofNat (mantissa.toNat % 2 ^ 62) = mantissa := by
        unfold same at hs
        simp only [Bool.and_eq_true, beq_iff_eq] at hs
        exact hs.2
      have hnt := congrArg UInt64.toNat hmn
      rw [UInt64.toNat_ofNat'] at hnt
      omega

section

variable (h : isXRP issue.currency = false)
include h

theorem canonicalized_zero : canonicalized issue 0 0 false = pure ⟨issue, 0, -100, false⟩ := by
  unfold canonicalized canonicalize
  rw [h]
  rfl

theorem canonicalized_of_range {mant : UInt64} {exo : Int} {neg : Bool}
    (hmi : cMinValue ≤ mant.toNat) (hma : mant.toNat ≤ cMaxValue)
    (hl : cMinOffset ≤ exo) (hh : exo ≤ cMaxOffset) :
    canonicalized issue mant.toNat exo neg = pure ⟨issue, mant, exo, neg⟩ := by
  have hne : mant ≠ 0 := by
    rintro rfl
    exact absurd hmi (by decide)
  have hup : scaleUp 20 mant.toNat exo = (mant.toNat, exo) := by
    rw [scaleUp, if_neg (by omega)]
  have hdo : scaleDown 20 mant.toNat exo = .ok (mant.toNat, exo) := by
    rw [scaleDown, if_neg (by omega)]
  unfold canonicalized canonicalize
  simp only [h, UInt64.ofNat_toNat, hne, hup, hdo, Bool.false_eq_true, if_false]
  rw [if_neg (by omega), if_neg (by omega)]

theorem ofWord_zero : ofWord issue cNotNative = pure ⟨issue, 0, -100, false⟩ := canonicalized_zero h

end

theorem ofWord_of_range (h : isXRP a.issue.currency = false)
    (hmi : cMinValue ≤ a.mantissa.toNat) (hma : a.mantissa.toNat ≤ cMaxValue)
    (hl : cMinOffset ≤ a.exponent) (hh : a.exponent ≤ cMaxOffset) {k : ℕ}
    (hk : (k : Int) = a.exponent + 97 + if a.negative then 512 else 768) :
    ofWord a.issue (2 ^ 54 * k + a.mantissa.toNat) = pure a := by
  unfold cMinValue at hmi
  unfold cMaxValue at hma
  unfold cMinOffset at hl
  unfold cMaxOffset at hh
  have hof : (2 ^ 54 * k + a.mantissa.toNat) / 2 ^ 54 = k := by omega
  have hva : (2 ^ 54 * k + a.mantissa.toNat) % 2 ^ 54 = a.mantissa.toNat := by omega
  have heo : ((k % 256 : ℕ) - 97 : Int) = a.exponent := by
    split at hk <;> omega
  have hsi : (k / 256 % 2 == 0) = a.negative := by
    cases hng : a.negative with
    | false =>
      rw [hng, if_neg Bool.false_ne_true] at hk
      have hod : k / 256 % 2 = 1 := by omega
      rw [hod]
      rfl
    | true =>
      rw [hng, if_pos rfl] at hk
      have hev : k / 256 % 2 = 0 := by omega
      rw [hev]
      rfl
  have hrn : ¬ (a.mantissa.toNat < cMinValue ∨ cMaxValue < a.mantissa.toNat ∨
      a.exponent < cMinOffset ∨ cMaxOffset < a.exponent) := by
    unfold cMinValue cMaxValue cMinOffset cMaxOffset
    omega
  unfold ofWord
  simp only [hof, hva, heo, hsi]
  rw [if_neg (by omega), if_neg hrn]
  exact canonicalized_of_range h hmi hma hl hh

theorem reads_issued_word (hno : word / 2 ^ 63 = 1) (hc : isXRP a.issue.currency = false)
    (hac : a.issue.account ≠ 0) (h : ofWord a.issue word = pure a) :
    Reads read (bytes 8 word ++ add160 a.issue.currency ++ add160 a.issue.account) a := by
  have hr : Reads read (bytes 8 word ++
      (add160 a.issue.currency ++ (add160 a.issue.account ++ []))) a := by
    refine (reads_getN "get64" (by omega)).bind ?_
    rw [if_neg (by omega)]
    refine (reads_getBitString (n := 20) rfl a.issue.currency).bind ?_
    rw [if_neg (by simp [hc])]
    refine (reads_getBitString (n := 20) rfl a.issue.account).bind ?_
    rw [if_neg (by simpa [isXRP] using hac), h]
    exact reads_pure a
  rwa [append_nil, ← append_assoc] at hr

theorem reads_issued (hi : a.native = false) (ha : a.IsCanonical) : Reads read a.addBytes a := by
  obtain ⟨hac, hfo⟩ := ha.issued hi
  unfold addBytes
  rw [if_neg (by simp [hi])]
  rcases hfo with ⟨h0, hep, hsi⟩ | ⟨⟨hmi, hma⟩, hl, hh⟩
  · have hiz : a.isZero := by simp [isZero, signum, h0]
    rw [if_pos hiz]
    refine reads_issued_word (by decide) hi hac ?_
    rw [ofWord_zero hi, ← h0, ← hep, ← hsi]
  have hne : a.mantissa ≠ 0 := by
    intro h
    rw [h] at hmi
    exact absurd hmi (by decide)
  have hiz : ¬ a.isZero := by
    unfold isZero signum
    rw [if_neg hne]
    split <;> decide
  have hlt : a.mantissa.toNat < 2 ^ 54 := by
    unfold cMaxValue at hma
    omega
  -- the two words differ in the bit of the sign
  have hw (k : ℕ) (hk : (k : Int) = a.exponent + 97 + if a.negative then 512 else 768) :
      Reads read (bytes 8 (a.mantissa.toNat ||| k * 2 ^ 54) ++
        add160 a.issue.currency ++ add160 a.issue.account) a := by
    have hor : (a.mantissa.toNat ||| k * 2 ^ 54) = 2 ^ 54 * k + a.mantissa.toNat := by
      rw [Nat.or_comm, Nat.mul_comm]
      exact (Nat.two_pow_add_eq_or_of_lt hlt k).symm
    unfold cMinOffset at hl
    unfold cMaxOffset at hh
    rw [hor]
    refine reads_issued_word ?_ hi hac (ofWord_of_range hi hmi hma hl hh hk)
    split at hk <;> omega
  unfold cMinOffset at hl
  unfold cMaxOffset at hh
  rw [if_neg hiz]
  split
  · next hng =>
      refine hw _ ?_
      rw [if_pos hng]
      omega
  · next hng =>
      refine hw _ ?_
      rw [if_neg hng]
      omega

theorem exists_reads (ha : a.IsCanonical) :
    ∃ a', Reads read a.addBytes a' ∧ (a'.same a ↔ a.FitsBesideSign) ∧
      (a.FitsBesideSign → a' = a) := by
  cases hna : a.native with
  | true => exact reads_native hna ha
  | false =>
    refine ⟨a, reads_issued hna ha, iff_of_true (same_self a) fun h => ?_, fun _ => rfl⟩
    rw [hna] at h
    cases h

end STAmount

/-! ## Paths -/

namespace STPathElement

/-- It tells of some identifier and nothing else. -/
structure IsTyped (e : STPathElement) : Prop where
  ne_zero : e.nodeType ≠ 0
  known : e.nodeType &&& ~~~typeAll = 0

/-- It tells of each identifier not zero, of the account only then. -/
structure TypeFits (e : STPathElement) : Prop where
  account : e.nodeType &&& typeAccount ≠ 0 ↔ e.account ≠ 0
  currency : e.currency ≠ 0 → e.nodeType &&& typeCurrency ≠ 0
  issuer : e.issuer ≠ 0 → e.nodeType &&& typeIssuer ≠ 0

variable (e : STPathElement)

def reread : STPathElement :=
  make (if e.nodeType &&& typeAccount ≠ 0 then e.account else 0)
    (if e.nodeType &&& typeCurrency ≠ 0 then e.currency else 0)
    (if e.nodeType &&& typeIssuer ≠ 0 then e.issuer else 0) (e.nodeType &&& typeCurrency != 0)

theorem reads_readID (ity bit : BitVec 8) (x : BitVec 160) :
    Reads (readID ity bit) (if ity &&& bit ≠ 0 then add160 x else [])
      (if ity &&& bit ≠ 0 then x else 0) := by
  unfold readID
  by_cases h : ity &&& bit ≠ 0
  · rw [if_pos h, if_pos h, if_pos h]
    exact reads_getBitString (n := 20) rfl x
  · rw [if_neg h, if_neg h, if_neg h]
    exact reads_pure _

theorem add_eq : ∃ ids, e.add = .ofNat e.nodeType.toNat :: ids ∧
    Reads (read e.nodeType) ids e.reread := by
  refine ⟨_, ?_, (reads_readID _ _ e.account).bind ((reads_readID _ _ e.currency).bind
    ((reads_readID _ _ e.issuer).bind (reads_pure _)))⟩
  unfold add
  simp only [append_assoc, append_nil]
  rfl

theorem make_typeAccount (ac2 : AccountID) (cur : Currency) (issuer : AccountID) (fc : Bool) :
    (make ac2 cur issuer fc).nodeType &&& typeAccount =
      if isXRP ac2 then 0 else typeAccount := by
  unfold make
  dsimp only
  cases isXRP ac2 <;> cases fc || !isXRP cur <;> cases isXRP issuer <;> decide

theorem and_typeAccount_of_ne_zero {w : BitVec 8} (h : w &&& typeAccount ≠ 0) :
    w &&& typeAccount = typeAccount := by
  revert w
  decide

theorem same_reread_iff : e.reread.same e ↔ e.TypeFits := by
  have hke (p : Prop) [Decidable p] (x : BitVec 160) : (if p then x else 0) = x ↔ (x ≠ 0 → p) := by
    by_cases hp : p
    · simp [hp]
    rw [if_neg hp]
    constructor
    · exact fun h hne => absurd h.symm hne
    · exact fun h => (not_not.mp fun hne => hp (h hne)).symm
  unfold same
  simp only [Bool.and_eq_true, beq_iff_eq]
  unfold reread
  rw [make_typeAccount]
  dsimp only [make]
  rw [hke, hke, hke]
  constructor
  · rintro ⟨⟨⟨hb, hac⟩, hc⟩, hir⟩
    refine ⟨⟨fun hse h0 => ?_, hac⟩, hc, hir⟩
    rw [if_pos hse, h0, and_typeAccount_of_ne_zero hse] at hb
    exact absurd hb (by decide)
  · rintro ⟨hac, hc, hir⟩
    refine ⟨⟨⟨?_, hac.mpr⟩, hc⟩, hir⟩
    by_cases hse : e.nodeType &&& typeAccount ≠ 0
    · have hne := hac.mp hse
      rw [if_pos hse, if_neg (by simpa [isXRP] using hne), and_typeAccount_of_ne_zero hse]
    · rw [if_neg hse, not_not.mp hse]
      rfl

theorem same_comm (a b : STPathElement) : a.same b = b.same a := by
  unfold same
  grind

end STPathElement

namespace STPathSet

variable {acc path : List STPathElement}

theorem run_read_element {e : STPathElement} (he : e.IsTyped) (tail : Blob) :
    (read acc).run (e.add ++ tail) = (read (acc ++ [e.reread])).run tail := by
  obtain ⟨ids, had, hid⟩ := e.add_eq
  have hby : (ofNat e.nodeType.toNat).toNat = e.nodeType.toNat := toNat_ofNat_byte e.nodeType.isLt
  have h0 : e.nodeType.toNat ≠ 0x00 := fun h => he.ne_zero (BitVec.eq_of_toNat_eq h)
  have hbo : e.nodeType.toNat ≠ 0xFF := by
    intro h
    have heq : e.nodeType = 0xFF := BitVec.eq_of_toNat_eq h
    have hkn := he.known
    rw [heq] at hkn
    exact absurd hkn (by decide)
  have ht : BitVec.ofNat 8 e.nodeType.toNat = e.nodeType := by
    rw [BitVec.ofNat_toNat, BitVec.setWidth_eq]
  rw [read_eq, readStep, had, cons_append, run_bind_of_ok (run_get8_cons _ _), hby,
    if_neg h0, if_neg hbo, ht, if_neg (not_not.mpr he.known),
    run_bind_of_ok (hid.run tail)]

theorem run_read_elements (hpt : ∀ e ∈ path, e.IsTyped) (tail : Blob) :
    (read acc).run (path.flatMap STPathElement.add ++ tail) =
      (read (acc ++ path.map STPathElement.reread)).run tail := by
  induction path generalizing acc with
  | nil => simp
  | cons e path ih =>
    obtain ⟨he, hpt⟩ := forall_mem_cons.mp hpt
    rw [flatMap_cons, append_assoc, run_read_element he, ih hpt, map_cons,
      append_assoc, singleton_append]

theorem run_read_end (hacc : acc ≠ []) (tail : Blob) :
    (read acc).run (typeNone :: tail) = .ok ([acc], tail) := by
  have ht : typeNone.toNat = 0x00 := rfl
  rw [read_eq, readStep, run_bind_of_ok (run_get8_cons _ _), if_pos ht,
    if_neg (by simpa using hacc)]
  rfl

theorem run_read_boundary (hacc : acc ≠ []) (tail : Blob) : (read acc).run (typeBoundary :: tail) =
      (read [] >>= fun paths => pure (acc :: paths)).run tail := by
  have ht : typeBoundary.toNat = 0xFF := rfl
  rw [read_eq, readStep, run_bind_of_ok (run_get8_cons _ _), if_neg (by decide), if_pos ht,
    if_neg (by simpa using hacc)]

theorem reads_paths {pts : List (List STPathElement)} (hne : pts ≠ [])
    (hpa : ∀ path ∈ pts, path ≠ [] ∧ ∀ e ∈ path, STPathElement.IsTyped e) :
    Reads (read []) (add pts) (pts.map (List.map STPathElement.reread)) := by
  refine reads_iff.mpr fun rest => ?_
  induction pts with
  | nil => exact absurd rfl hne
  | cons path pts ih =>
    obtain ⟨⟨hpt, hty⟩, hpa⟩ := forall_mem_cons.mp hpa
    have hmp : path.map STPathElement.reread ≠ [] := by simpa using hpt
    cases pts with
    | nil =>
      have had : add [path] ++ rest = path.flatMap STPathElement.add ++ typeNone :: rest := by
        simp [add]
      rw [had, run_read_elements hty, nil_append, run_read_end hmp]
      rfl
    | cons next pts =>
      have had : add (path :: next :: pts) ++ rest =
          path.flatMap STPathElement.add ++ typeBoundary :: (add (next :: pts) ++ rest) := by
        simp [add, intercalate_cons_cons]
      rw [had, run_read_elements hty, nil_append, run_read_boundary hmp,
        run_bind_of_ok (ih nofun hpa)]
      rfl

theorem yields_read_nil : Yields (read []) (add []) none := by
  intro rest
  rfl

end STPathSet

/-! ## Values -/

namespace STValue

/-- What a field of the type can hold, as it is kept. -/
def WellFormed : SerializedTypeID → STValue → Prop
  | .uint8, uint8 _ => True
  | .uint16, uint16 _ => True
  | .uint32, uint32 _ => True
  | .uint64, uint64 _ => True
  | .hash128, hash128 _ => True
  | .hash160, hash160 _ => True
  | .hash256, hash256 _ => True
  | .amount, amount a => a.IsCanonical
  | .vl, vl bytes => bytes.length ≤ 918744
  | .account, account bytes => bytes.length ≤ 918744
  | .pathSet, pathSet paths =>
    ∀ path ∈ paths, path ≠ [] ∧ ∀ e ∈ path, STPathElement.IsTyped e
  | .vector256, vector256 hashes => 32 * hashes.length ≤ 918744
  | _, _ => False

def Survives : STValue → Prop
  | amount a => a.FitsBesideSign
  | pathSet paths => paths ≠ [] ∧ ∀ path ∈ paths, ∀ e ∈ path, STPathElement.TypeFits e
  | _ => True

/-- What comes back as it was, type words included. -/
def Exact : STValue → Prop
  | pathSet paths => ∀ path ∈ paths, ∀ e ∈ path, STPathElement.reread e = e
  | _ => True

theorem isEquivalent_comm (a b : STValue) : a.isEquivalent b = b.isEquivalent a := by
  have hpa (p q : List (List STPathElement)) : (p.isEqv q fun x y => x.isEqv y same) =
        q.isEqv p fun x y => x.isEqv y same :=
    isEqv_comm (isEqv_comm same_comm) p q
  cases a <;> cases b <;> first
      | rfl
      | exact hpa _ _
      | exact STAmount.same_comm _ _
      | exact BEq.comm

theorem isEquivalent_pathSet_reread (pts : List (List STPathElement)) :
    (pathSet (pts.map (List.map STPathElement.reread))).isEquivalent (pathSet pts) ↔
      ∀ path ∈ pts, ∀ e ∈ path, STPathElement.TypeFits e := by
  unfold isEquivalent
  rw [isEqv_map_iff]
  refine forall₂_congr fun path _ => ?_
  rw [isEqv_map_iff]
  exact forall₂_congr fun e _ => e.same_reread_iff

/-- Of the same type, the same if it survives. -/
structure RoundTrip (type : SerializedTypeID) (v : STValue) (bytes : Blob)
    (result : Option STValue) : Prop where
  added : v.add = .ok bytes
  yields : Yields (read type) bytes result
  type : ∀ v' ∈ result, ∀ f, (STVar.value f v').getSType = some type
  same : (∃ v' ∈ result, v'.isEquivalent v) ↔ v.Survives
  again : v.Survives → v.Exact → result = some v

variable {type : SerializedTypeID} {v : STValue}

theorem roundTrip_of_reads {bs : Blob} (had : v.add = .ok bs)
    (hr : Reads (read type) bs v) (ht : ∀ f, (STVar.value f v).getSType = some type)
    (hsu : v.Survives) (hsl : v.isEquivalent v) : RoundTrip type v bs
    (some v) where
  added := had
  yields := hr
  type := by
    rintro v' hv' f
    cases hv'
    exact ht f
  same := iff_of_true ⟨v, rfl, hsl⟩ hsu
  again _ _ := rfl

theorem exists_roundTrip (h : WellFormed type v) :
    ∃ bytes result, RoundTrip type v bytes result := by
  cases v
  all_goals cases type <;> try exact h.elim
  case uint8.uint8 n =>
    have hr : Reads (read .uint8) (bytes 1 n.toNat) (uint8 (.ofNat n.toNat)) :=
      (reads_getN "get8" n.toNat_lt).map _
    rw [UInt8.ofNat_toNat] at hr
    exact ⟨_, _, roundTrip_of_reads rfl hr (fun _ => rfl) trivial (beq_self_eq_true n)⟩
  case uint16.uint16 n =>
    have hr : Reads (read .uint16) (bytes 2 n.toNat) (uint16 (.ofNat n.toNat)) :=
      (reads_getN "get16" n.toNat_lt).map _
    rw [UInt16.ofNat_toNat] at hr
    exact ⟨_, _, roundTrip_of_reads rfl hr (fun _ => rfl) trivial (beq_self_eq_true n)⟩
  case uint32.uint32 n =>
    have hr : Reads (read .uint32) (bytes 4 n.toNat) (uint32 (.ofNat n.toNat)) :=
      (reads_getN "get32" n.toNat_lt).map _
    rw [UInt32.ofNat_toNat] at hr
    exact ⟨_, _, roundTrip_of_reads rfl hr (fun _ => rfl) trivial (beq_self_eq_true n)⟩
  case uint64.uint64 n =>
    have hr : Reads (read .uint64) (bytes 8 n.toNat) (uint64 (.ofNat n.toNat)) :=
      (reads_getN "get64" n.toNat_lt).map _
    rw [UInt64.ofNat_toNat] at hr
    exact ⟨_, _, roundTrip_of_reads rfl hr (fun _ => rfl) trivial (beq_self_eq_true n)⟩
  case hash128.hash128 x =>
    have hr := (reads_getBitString (n := 16) rfl x).map hash128
    exact ⟨_, _, roundTrip_of_reads rfl hr (fun _ => rfl) trivial (beq_self_eq_true x)⟩
  case hash160.hash160 x =>
    have hr := (reads_getBitString (n := 20) rfl x).map hash160
    exact ⟨_, _, roundTrip_of_reads rfl hr (fun _ => rfl) trivial (beq_self_eq_true x)⟩
  case hash256.hash256 x =>
    have hr := (reads_getBitString (n := 32) rfl x).map hash256
    exact ⟨_, _, roundTrip_of_reads rfl hr (fun _ => rfl) trivial (beq_self_eq_true x)⟩
  case amount.amount a =>
    obtain ⟨a', hr, hs, hag⟩ := STAmount.exists_reads h
    refine ⟨_, _, rfl, hr.map amount, ?_, ?_, ?_⟩
    · rintro v' hv' f
      cases hv'
      rfl
    · rw [Survives, ← hs, STAmount.same_comm]
      simp [isEquivalent]
    · exact fun hfi _ => congrArg (fun a => some (amount a)) (hag hfi)
  case vl.vl data =>
    obtain ⟨bytes, had, hr⟩ := reads_getVL h
    exact ⟨bytes, _, roundTrip_of_reads had (hr.map vl) (fun _ => rfl) trivial
      (beq_self_eq_true data)⟩
  case account.account data =>
    obtain ⟨bytes, had, hr⟩ := reads_getVL h
    exact ⟨bytes, _, roundTrip_of_reads had (hr.map account) (fun _ => rfl) trivial
      (beq_self_eq_true data)⟩
  case pathSet.pathSet paths =>
    by_cases hne : paths = []
    · subst hne
      refine ⟨_, _, rfl, STPathSet.yields_read_nil.map pathSet, nofun, ?_, ?_⟩
      · exact iff_of_false nofun fun hsu => hsu.1 rfl
      · exact fun hsu _ => absurd rfl hsu.1
    refine ⟨_, _, rfl, (STPathSet.reads_paths hne h).map pathSet, ?_, ?_, ?_⟩
    · rintro v' hv' f
      cases hv'
      rfl
    · have hs := isEquivalent_pathSet_reread paths
      rw [Survives, ← hs]
      simp [hne]
    · intro _ hex
      have hpa : paths.map (List.map STPathElement.reread) = paths := by
        refine map_congr_left (fun path hpt => ?_) |>.trans (map_id _)
        exact (map_congr_left (hex path hpt)).trans (map_id _)
      rw [hpa]
      rfl
  case vector256.vector256 hashes =>
    have hle : (hashes.flatMap fun x => bytes 32 x.toNat).length ≤ 918744 := by
      have hsz : 32 * hashes.length ≤ 918744 := h
      simpa [Nat.mul_comm] using hsz
    obtain ⟨bytes, had, hr⟩ := reads_getVL hle
    have hve := hr.map fun data => vector256 (ofBytes data)
    rw [Option.map_some, ofBytes_flatMap] at hve
    exact ⟨bytes, _, roundTrip_of_reads had hve (fun _ => rfl) trivial (beq_self_eq_true hashes)⟩

end STValue

end Sand
