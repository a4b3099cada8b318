import Sand.Protocol.SerialIter

/-!
# What the readers look at

Every reader of serialized data is delimited: a field is read the same whatever follows
it.
-/

namespace Sand

open ByteReader SerialIter STObject STVar SerializedTypeID SField STArray Serializer STPathElement

/-! ## Single values -/

namespace SerialIter

theorem delimited_getN (n : ℕ) (what : String) : Delimited (getN n what) :=
  (delimited_take n _).map _

theorem delimited_getBitString (bits : ℕ) : Delimited (getBitString bits) :=
  (delimited_getN _ _).map _

theorem delimited_getUncommon (half : ℕ) (what : String) : Delimited (getUncommon half what) := by
  refine delimited_ite ((delimited_getN 1 _).bind fun n => ?_) (delimited_pure half)
  exact delimited_ite (delimited_throw _) (delimited_pure n)

theorem delimited_getFieldID : Delimited getFieldID := by
  refine (delimited_getN 1 _).bind fun first => ?_
  refine (delimited_getUncommon _ _).bind fun type => ?_
  exact (delimited_getUncommon _ _).bind fun name => delimited_pure _

theorem delimited_getVL : Delimited getVL := by
  have hle : Delimited getVLDataLength := by
    refine (delimited_getN 1 _).bind fun b1 => ?_
    refine delimited_ite (delimited_pure _) (delimited_ite ?_ (delimited_ite ?_ ?_))
    · exact (delimited_getN 1 _).bind fun b2 => delimited_pure _
    · refine (delimited_getN 1 _).bind fun b2 => ?_
      exact (delimited_getN 1 _).bind fun b3 => delimited_pure _
    · exact delimited_throw _
  exact hle.bind fun length => delimited_take length _

variable {input rest : Blob} {type name : ℕ}

theorem run_get8_cons (b : UInt8) (rest : Blob) : get8.run (b :: rest) = .ok (b.toNat, rest) := by
  have hre : Reads get8 [b] (BigEndian.value [b]) := (reads_take _ rfl).map _
  have hvl : BigEndian.value [b] = b.toNat := by simp [BigEndian.value]
  rw [← hvl]
  exact hre.run rest

theorem cons_of_run_get8 {n : ℕ} (h : get8.run input = .ok (n, rest)) :
    ∃ b, input = b :: rest ∧ n = b.toNat := by
  cases input with
  | nil => cases h
  | cons b input =>
    rw [run_get8_cons] at h
    cases h
    exact ⟨b, rfl, rfl⟩

theorem reads_get8 (b : UInt8) : Reads get8 [b] b.toNat :=
  reads_iff.mpr fun rest => run_get8_cons b rest

theorem consumes_get8 : Consumes get8 := by
  intro input n rest h
  obtain ⟨b, rfl, -⟩ := cons_of_run_get8 h
  rw [List.length_cons]
  omega

/-! ### Field identifiers -/

theorem consumes_getFieldID : Consumes getFieldID := by
  refine consumes_get8.bind fun first => ?_
  refine (delimited_getUncommon _ _).bind fun type => ?_
  exact (delimited_getUncommon _ _).bind fun name => delimited_pure _

theorem reads_getUncommon_of_pos {half : ℕ} (h : half ≠ 0) (what : String) :
    Reads (getUncommon half what) [] half := by
  rw [getUncommon, if_neg h]
  exact reads_pure half

theorem reads_getUncommon_zero {b : UInt8} (h : 16 ≤ b.toNat) (what : String) :
    Reads (getUncommon 0 what) [b] b.toNat := by
  refine (reads_get8 b).bind ?_
  rw [if_neg (by omega)]
  exact reads_pure _

theorem eq_of_run_getUncommon {half n : ℕ} {what : String}
    (h : (getUncommon half what).run input = .ok (n, rest)) :
    half ≠ 0 ∧ n = half ∧ input = rest ∨
      half = 0 ∧ 16 ≤ n ∧ n < 256 ∧ input = .ofNat n :: rest := by
  by_cases hh : half = 0
  · rw [getUncommon, if_pos hh] at h
    obtain ⟨n', mid, hg, h⟩ := bind_eq_ok h
    obtain ⟨b, rfl, rfl⟩ := cons_of_run_get8 hg
    by_cases hlt : b.toNat < 16
    · rw [if_pos hlt] at h
      cases h
    · rw [if_neg hlt] at h
      cases h
      exact .inr ⟨hh, Nat.le_of_not_lt hlt, b.toNat_lt, by simp⟩
  · rw [getUncommon, if_neg hh] at h
    cases h
    exact .inl ⟨hh, rfl, rfl⟩

theorem reads_getFieldID_of {b : UInt8} {more more' : Blob}
    (hty : Reads (getUncommon (b.toNat / 16) "type") more type)
    (hnm : Reads (getUncommon (b.toNat % 16) "name") more' name) :
    Reads getFieldID (b :: (more ++ more')) (type, name) := by
  have h : Reads getFieldID ([b] ++ (more ++ (more' ++ []))) (type, name) :=
    (reads_get8 b).bind (hty.bind (hnm.bind (reads_pure (type, name))))
  rwa [List.append_nil] at h

theorem reads_getFieldID (hty : 0 < type) (hty' : type < 256) (hnm : 0 < name)
    (hnm' : name < 256) : Reads getFieldID (addFieldID type name) (type, name) := by
  have hby {n : ℕ} (hn : n < 256) : (UInt8.ofNat n).toNat = n := by
    exact Nat.mod_eq_of_lt hn
  have hc {half n : ℕ} (what : String) (heq : half = n) (hn : 0 < n) :
      Reads (getUncommon half what) [] n :=
    heq ▸ reads_getUncommon_of_pos (by omega) what
  have hu {half n : ℕ} (what : String) (h0 : half = 0) (hn : 16 ≤ n) (hn' : n < 256) :
      Reads (getUncommon half what) [.ofNat n] n := by
    have h := reads_getUncommon_zero (b := .ofNat n) (by rwa [hby hn']) what
    rwa [hby hn', ← h0] at h
  unfold addFieldID
  by_cases ht : type < 16
  · rw [if_pos ht]
    by_cases hn : name < 16
    · have hft : (UInt8.ofNat (type * 16 + name)).toNat = type * 16 + name := hby (by omega)
      rw [if_pos hn]
      exact reads_getFieldID_of (hc _ (by omega) hty) (hc _ (by omega) hnm)
    · have hft : (UInt8.ofNat (type * 16)).toNat = type * 16 := hby (by omega)
      rw [if_neg hn]
      exact reads_getFieldID_of (hc _ (by omega) hty) (hu _ (by omega) (by omega) hnm')
  · rw [if_neg ht]
    by_cases hn : name < 16
    · have hft : (UInt8.ofNat name).toNat = name := hby hnm'
      rw [if_pos hn]
      exact reads_getFieldID_of (hu _ (by omega) (by omega) hty') (hc _ (by omega) hnm)
    · rw [if_neg hn]
      exact reads_getFieldID_of (hu _ rfl (by omega) hty') (hu _ rfl (by omega) hnm')

theorem eq_of_run_getFieldID (h : getFieldID.run input = .ok ((type, name), rest)) :
    (0 < type ∧ type < 256) ∧ (0 < name ∧ name < 256) ∧ input = addFieldID type name ++ rest := by
  obtain ⟨first, mid, hft, h⟩ := bind_eq_ok h
  obtain ⟨b, rfl, rfl⟩ := cons_of_run_get8 hft
  obtain ⟨type', mid', hty, h⟩ := bind_eq_ok h
  obtain ⟨name', mid'', hnm, h⟩ := bind_eq_ok h
  cases h
  have hb := b.toNat_lt
  have hby {n : ℕ} (hn : b.toNat = n) : b = .ofNat n := by rw [← hn, UInt8.ofNat_toNat]
  unfold addFieldID
  rcases eq_of_run_getUncommon hty with ⟨hp, rfl, rfl⟩ | ⟨h0, hlo, hhi, rfl⟩
  · rcases eq_of_run_getUncommon hnm with ⟨hp', rfl, rfl⟩ | ⟨h0', hlo', hhi', rfl⟩
    · refine ⟨by omega, by omega, ?_⟩
      rw [if_pos (by omega), if_pos (by omega), ← hby (by omega)]
      rfl
    · refine ⟨by omega, by omega, ?_⟩
      have hhg : b = .ofNat (b.toNat / 16 * 16) := hby (by omega)
      rw [if_pos (by omega), if_neg (by omega), ← hhg]
      rfl
  · rcases eq_of_run_getUncommon hnm with ⟨hp', rfl, rfl⟩ | ⟨h0', hlo', hhi', rfl⟩
    · refine ⟨by omega, by omega, ?_⟩
      have hlw : b = .ofNat (b.toNat % 16) := hby (by omega)
      rw [if_neg (by omega), if_pos (by omega), ← hlw]
      rfl
    · refine ⟨by omega, by omega, ?_⟩
      rw [if_neg (by omega), if_neg (by omega), hby (n := 0) (by omega)]
      rfl

end SerialIter

theorem STAmount.delimited_read : Delimited STAmount.read := by
  have hca (issue : Issue) (mantissa : ℕ) (exponent : Int) (negative : Bool) :
      Delimited (STAmount.canonicalized issue mantissa exponent negative) := by
    unfold STAmount.canonicalized
    split
    · exact delimited_pure _
    · exact delimited_throw _
  refine (delimited_getN 8 _).bind fun word => delimited_ite ?_ ?_
  · refine delimited_ite (delimited_pure _) (delimited_ite (delimited_throw _) ?_)
    exact delimited_pure _
  refine (delimited_getBitString 160).bind fun currency => ?_
  refine delimited_ite (delimited_throw _) ?_
  refine (delimited_getBitString 160).bind fun account => ?_
  refine delimited_ite (delimited_throw _) (delimited_ite ?_ ?_)
  · exact delimited_ite (delimited_throw _) (hca _ _ _ _)
  · exact delimited_ite (delimited_throw _) (hca _ _ _ _)

theorem STPathElement.delimited_read (ity : BitVec 8) : Delimited (read ity) := by
  have hid (bit : BitVec 8) : Delimited (readID ity bit) :=
    delimited_ite (delimited_getBitString 160) (delimited_pure _)
  refine (hid _).bind fun account => (hid _).bind fun currency => ?_
  exact (hid _).bind fun issuer => delimited_pure _

namespace STPathSet

variable {next next' : List STPathElement → SerialIter (List (List STPathElement))}

theorem delimited_readStep (hnx : ∀ path, Delimited (next path)) (path : List STPathElement) :
    Delimited (readStep next path) := by
  refine (delimited_getN 1 _).bind fun iType => delimited_ite ?_ (delimited_ite ?_ ?_)
  · exact delimited_ite (delimited_throw _) (delimited_pure _)
  · refine delimited_ite (delimited_throw _) ?_
    exact (hnx []).bind fun paths => delimited_pure _
  · refine delimited_ite (delimited_throw _) ?_
    exact (delimited_read _).bind fun element => hnx _

theorem agreeBelow_readStep {n : ℕ} (hd : ∀ path, Delimited (next path))
    (hnx : ∀ path, AgreeBelow n (next path) (next' path)) (path : List STPathElement) :
    AgreeBelow (n + 1) (readStep next path) (readStep next' path) := by
  refine consumes_get8.agreeBelow_bind fun iType => .ite (.refl _ _) (.ite ?_ ?_)
  · exact .ite (.refl _ _) ((hnx []).bind (hd []) fun paths => .refl _ _)
  · refine .ite (.refl _ _) ?_
    exact (AgreeBelow.refl _ _).bind (delimited_read _) fun element => hnx _

theorem delimited_readRounds (rds : ℕ) (path : List STPathElement) :
    Delimited (readRounds rds path) := by
  induction rds generalizing path with
  | zero => exact delimited_throw _
  | succ rds ih => exact delimited_readStep ih path

variable (path : List STPathElement)

theorem stable_readRounds : Stable fun rounds => readRounds rounds path := by
  intro n
  induction n generalizing path with
  | zero => exact fun _ hl => absurd hl (Nat.not_lt_zero _)
  | succ n ih => exact agreeBelow_readStep (delimited_readRounds n) ih path

theorem read_eq : read path = readStep read path := by
  funext input
  refine agreeBelow_readStep (delimited_readRounds input.length) (fun path => ?_) path input
    (Nat.lt_succ_self _)
  exact (stable_readRounds path).agreeBelow_unbounded _

theorem delimited_read : Delimited (read path) :=
  (stable_readRounds path).delimited_unbounded fun rounds => delimited_readRounds rounds path

end STPathSet

theorem STValue.delimited_read (type : SerializedTypeID) : Delimited (STValue.read type) := by
  cases type with
  | uint8 => exact (delimited_getN 1 _).map _
  | uint16 => exact (delimited_getN 2 _).map _
  | uint32 => exact (delimited_getN 4 _).map _
  | uint64 => exact (delimited_getN 8 _).map _
  | hash128 => exact (delimited_getBitString 128).map _
  | hash160 => exact (delimited_getBitString 160).map _
  | hash256 => exact (delimited_getBitString 256).map _
  | amount => exact STAmount.delimited_read.map _
  | vl | account => exact delimited_getVL.map _
  | pathSet => exact (STPathSet.delimited_read []).map _
  | vector256 => exact delimited_getVL.map _
  | object | array | transaction => exact delimited_throw _

/-! ## Objects -/

section Objects

variable {fields fields' : SerialIter (List STVar)} {objects objects' : SerialIter (List STObject)}

variable {f : SField} {n : ℕ} {rv rv' : SField → SerialIter STVar}

theorem STVar.readWith_value (ho : f.fieldType ≠ .object) (ha : f.fieldType ≠ .array) :
    STVar.readWith fields objects f = .value f <$> STValue.read f.fieldType := by
  obtain ⟨type, value⟩ := f
  cases type <;> first | rfl | contradiction

theorem STVar.readWith_object (ho : f.fieldType = .object) :
    STVar.readWith fields objects f = (fields >>= fun vs =>
      match STObject.setTypeFromSField f vs with
      | some o => pure (.object o)
      | none => throw "field deserialization error") := by
  obtain ⟨type, value⟩ := f
  obtain rfl : type = .object := ho
  rfl

theorem STVar.readWith_array (ha : f.fieldType = .array) :
    STVar.readWith fields objects f = .array f <$> objects := by
  obtain ⟨type, value⟩ := f
  obtain rfl : type = .array := ha
  rfl

theorem STVar.delimited_readWith (hfs : Delimited fields) (hob : Delimited objects)
    (f : SField) : Delimited (STVar.readWith fields objects f) := by
  by_cases ho : f.fieldType = .object
  · rw [readWith_object ho]
    refine hfs.bind fun vs => ?_
    cases setTypeFromSField f vs with
    | none => exact delimited_throw _
    | some o => exact delimited_pure _
  by_cases ha : f.fieldType = .array
  · rw [readWith_array ha]
    exact hob.map _
  · rw [readWith_value ho ha]
    exact (STValue.delimited_read _).map _

theorem STVar.agreeBelow_readWith (hd : Delimited fields) (hd' : Delimited objects)
    (hfs : AgreeBelow n fields fields') (hob : AgreeBelow n objects objects')
    (f : SField) :
    AgreeBelow n (STVar.readWith fields objects f) (STVar.readWith fields' objects' f) := by
  by_cases ho : f.fieldType = .object
  · rw [readWith_object ho, readWith_object ho]
    exact hfs.bind hd fun vs => .refl _ _
  by_cases ha : f.fieldType = .array
  · rw [readWith_array ha, readWith_array ha]
    exact hob.map _ hd'
  · rw [readWith_value ho ha, readWith_value ho ha]
    exact .refl _ _

theorem STObject.delimited_setStep (hva : ∀ f, Delimited (rv f)) (hfs : Delimited fields) :
    Delimited (STObject.setStep rv fields) := by
  refine Delimited.unlessEmpty (b := 0xE1) ?_ rfl rfl
  refine delimited_getFieldID.bind fun id => ?_
  refine delimited_ite (delimited_pure _) (delimited_ite (delimited_throw _) ?_)
  cases getField id.1 id.2 with
  | none => exact delimited_throw _
  | some f => exact (hva f).bind fun v => hfs.bind fun vs => delimited_pure _

theorem STObject.agreeBelow_setStep (hd : ∀ f, Delimited (rv f)) (hd' : Delimited fields)
    (hva : ∀ f, AgreeBelow n (rv f) (rv' f)) (hfs : AgreeBelow n fields fields') :
    AgreeBelow (n + 1) (STObject.setStep rv fields) (STObject.setStep rv' fields') := by
  refine .unlessEmpty _ (consumes_getFieldID.agreeBelow_bind fun id => ?_)
  refine .ite (.refl _ _) (.ite (.refl _ _) ?_)
  cases getField id.1 id.2 with
  | none => exact .refl _ _
  | some f =>
    exact (hva f).bind (hd f) fun v => hfs.bind hd' fun vs => .refl _ _

/-! ### One round -/

theorem SField.reads_addID (hf : f.IsEncodable) :
    Reads getFieldID f.addID (f.fieldType.code, f.fieldValue) := by
  have hlt := code_lt hf.type_ne
  exact reads_getFieldID (code_pos _) (by omega) hf.pos hf.lt

theorem SField.addID_ne_nil (f : SField) : f.addID ≠ [] := by
  unfold addID addFieldID
  split
  · split <;> nofun
  · split <;> nofun

theorem SField.isEncodable_of_getField {type name : ℕ} (hnm : 0 < name)
    (hf : getField type name = some f)
    (ho : ¬ (type = SerializedTypeID.object.code ∧ name = 1))
    (ha : ¬ (type = SerializedTypeID.array.code ∧ name = 1)) :
    f.IsEncodable ∧ f.fieldType.code = type ∧ f.fieldValue = name := by
  unfold getField at hf
  by_cases hlt : 255 < name
  · rw [if_pos hlt] at hf
    cases hf
  rw [if_neg hlt] at hf
  obtain ⟨t, ht, rfl⟩ := Option.map_eq_some_iff.mp hf
  have hco := code_of_ofCode ht
  refine ⟨⟨?_, hnm, Nat.lt_of_not_le hlt, ?_⟩, hco, rfl⟩
  · rintro rfl
    unfold SerializedTypeID.ofCode at ht
    split at ht <;> cases ht
  · rintro ⟨rfl | rfl, hon⟩
    · exact ho ⟨hco.symm, hon⟩
    · exact ha ⟨hco.symm, hon⟩

theorem SField.code_ne_of_isEncodable (hf : f.IsEncodable) {type : SerializedTypeID}
    (hty : type = .object ∨ type = .array) : ¬
    (f.fieldType.code = type.code ∧ f.fieldValue = 1) := by
  rintro ⟨hco, hon⟩
  have heq := code_injective hco
  exact hf.not_marker ⟨heq ▸ hty, hon⟩

section Rounds

variable {readVar : SField → SerialIter STVar}

theorem STObject.run_setStep_end (rest : Blob) :
    (STObject.setStep readVar fields).run (endOfObject ++ rest) = .ok ([], rest) := by
  have hr : Reads getFieldID endOfObject (SerializedTypeID.object.code, 1) :=
    reads_getFieldID (by decide) (by decide) (by decide) (by decide)
  unfold setStep
  have hne : endOfObject ++ rest ≠ [] := nofun
  rw [run_unlessEmpty hne, run_bind_of_ok (hr.run rest)]
  rfl

theorem STObject.run_setStep_field (hf : f.IsEncodable) (rest : Blob) :
    (STObject.setStep readVar fields).run (f.addID ++ rest) =
      (readVar f >>= fun v => fields >>= fun vs => pure (v :: vs)).run rest := by
  have ho := code_ne_of_isEncodable hf (.inl rfl)
  have ha := code_ne_of_isEncodable hf (.inr rfl)
  unfold setStep
  rw [run_unlessEmpty (by simp [f.addID_ne_nil]), run_bind_of_ok ((reads_addID hf).run rest)]
  dsimp only
  rw [if_neg ho, if_neg ha, getField_code hf]

theorem STArray.run_readStep_end (rest : Blob) :
    (readStep fields objects).run (endOfArray ++ rest) = .ok ([], rest) := by
  have hr : Reads getFieldID endOfArray (SerializedTypeID.array.code, 1) :=
    reads_getFieldID (by decide) (by decide) (by decide) (by decide)
  unfold readStep
  have hne : endOfArray ++ rest ≠ [] := nofun
  rw [run_unlessEmpty hne, run_bind_of_ok (hr.run rest)]
  rfl

theorem STArray.run_readStep_object (hf : f.IsEncodable)
    (hty : f.fieldType = .object) (rest : Blob) :
    (readStep fields objects).run (f.addID ++ rest) =
      (fields >>= fun vs => match STObject.setTypeFromSField f vs with
        | none => throw "Malformed object in array"
        | some o => objects >>= fun os => pure (o :: os)).run rest := by
  have ho := code_ne_of_isEncodable hf (.inl rfl)
  have ha := code_ne_of_isEncodable hf (.inr rfl)
  unfold readStep
  rw [run_unlessEmpty (by simp [f.addID_ne_nil]), run_bind_of_ok ((reads_addID hf).run rest)]
  dsimp only
  rw [if_neg ha, if_neg ho, getField_code hf]
  exact congrArg (StateT.run · rest) (if_neg (not_not.mpr hty))

theorem STObject.setStep_cases {inp rest : Blob} {vs : List STVar}
    (h : (STObject.setStep readVar fields).run inp = .ok (vs, rest)) :
    inp = [] ∧ vs = [] ∧ rest = [] ∨ inp = endOfObject ++ rest ∧ vs = [] ∨
      ∃ f mid v mid' vs', SField.IsEncodable f ∧ inp = f.addID ++ mid ∧
        (readVar f).run mid = .ok (v, mid') ∧ fields.run mid' = .ok (vs', rest) ∧ vs = v :: vs' := by
  by_cases he : inp = []
  · subst he
    cases h
    exact .inl ⟨rfl, rfl, rfl⟩
  unfold setStep at h
  rw [run_unlessEmpty he] at h
  obtain ⟨⟨type, name⟩, mid, hid, run⟩ := bind_eq_ok h
  obtain ⟨-, ⟨hnm, -⟩, hi⟩ := eq_of_run_getFieldID hid
  dsimp only at run
  by_cases ho : type = SerializedTypeID.object.code ∧ name = 1
  · rw [if_pos ho] at run
    cases run
    obtain ⟨rfl, rfl⟩ := ho
    exact .inr (.inl ⟨hi, rfl⟩)
  rw [if_neg ho] at run
  by_cases ha : type = SerializedTypeID.array.code ∧ name = 1
  · rw [if_pos ha] at run
    cases run
  rw [if_neg ha] at run
  cases hfi : getField type name with
  | none =>
    rw [hfi] at run
    cases run
  | some f =>
    rw [hfi] at run
    obtain ⟨hf, rfl, rfl⟩ := isEncodable_of_getField hnm hfi ho ha
    obtain ⟨v, mid', hv, hnx⟩ := bind_eq_ok run
    obtain ⟨vs', rest', hvs, hpu⟩ := bind_eq_ok hnx
    cases hpu
    exact .inr (.inr ⟨f, mid, v, mid', vs', hf, hi, hv, hvs, rfl⟩)

end Rounds

theorem STArray.delimited_readStep (hfs : Delimited fields) (hob : Delimited objects) :
    Delimited (readStep fields objects) := by
  refine Delimited.unlessEmpty (b := 0xF1) ?_ rfl rfl
  refine delimited_getFieldID.bind fun id => ?_
  refine delimited_ite (delimited_pure _) (delimited_ite (delimited_throw _) ?_)
  cases getField id.1 id.2 with
  | none => exact delimited_throw _
  | some f =>
    refine delimited_ite (delimited_throw _) (hfs.bind fun vs => ?_)
    cases setTypeFromSField f vs with
    | none => exact delimited_throw _
    | some o => exact hob.bind fun os => delimited_pure _

theorem STArray.agreeBelow_readStep (hd : Delimited fields) (hd' : Delimited objects)
    (hfs : AgreeBelow n fields fields') (hob : AgreeBelow n objects objects') :
    AgreeBelow (n + 1) (readStep fields objects) (readStep fields' objects') := by
  refine .unlessEmpty _ (consumes_getFieldID.agreeBelow_bind fun id => ?_)
  refine .ite (.refl _ _) (.ite (.refl _ _) ?_)
  cases getField id.1 id.2 with
  | none => exact .refl _ _
  | some f =>
    refine .ite (.refl _ _) (hfs.bind hd fun vs => ?_)
    cases setTypeFromSField f vs with
    | none => exact .refl _ _
    | some o => exact hob.bind hd' fun os => .refl _ _

end Objects

theorem STObject.delimited_setRounds (rds : ℕ) :
    Delimited (STObject.setRounds rds) ∧ Delimited (readRounds rds) := by
  induction rds with
  | zero => exact ⟨delimited_throw _, delimited_throw _⟩
  | succ rds ih =>
    refine ⟨?_, delimited_readStep ih.1 ih.2⟩
    exact delimited_setStep (delimited_readWith ih.1 ih.2) ih.1

theorem STObject.stable_setRounds : Stable STObject.setRounds ∧ Stable readRounds := by
  refine forall_and.mp fun n => ?_
  induction n with
  | zero => exact ⟨fun _ hl => absurd hl (Nat.not_lt_zero _),
      fun _ hl => absurd hl (Nat.not_lt_zero _)⟩
  | succ n ih =>
    obtain ⟨hfs, hob⟩ := delimited_setRounds n
    refine ⟨?_, agreeBelow_readStep hfs hob ih.1 ih.2⟩
    exact agreeBelow_setStep (delimited_readWith hfs hob) hfs
      (agreeBelow_readWith hfs hob ih.1 ih.2) ih.1

theorem STObject.delimited_set : Delimited STObject.set :=
  stable_setRounds.1.delimited_unbounded fun rounds => (delimited_setRounds rounds).1

theorem STArray.delimited_read : Delimited read :=
  stable_setRounds.2.delimited_unbounded fun rounds => (delimited_setRounds rounds).2

theorem STVar.delimited_read (f : SField) : Delimited (STVar.read f) :=
  delimited_readWith delimited_set STArray.delimited_read f

theorem STObject.set_eq : STObject.set = STObject.setStep STVar.read STObject.set := by
  funext input
  obtain ⟨hfs, hob⟩ := delimited_setRounds input.length
  have hs := stable_setRounds.1.agreeBelow_unbounded input.length
  have hr := stable_setRounds.2.agreeBelow_unbounded input.length
  exact agreeBelow_setStep (delimited_readWith hfs hob) hfs
    (agreeBelow_readWith hfs hob hs hr) hs input (Nat.lt_succ_self _)

theorem STArray.read_eq : read = readStep STObject.set read := by
  funext input
  obtain ⟨hfs, hob⟩ := delimited_setRounds input.length
  have hs := stable_setRounds.1.agreeBelow_unbounded input.length
  have hr := stable_setRounds.2.agreeBelow_unbounded input.length
  exact agreeBelow_readStep hfs hob hs hr input (Nat.lt_succ_self _)

end Sand
