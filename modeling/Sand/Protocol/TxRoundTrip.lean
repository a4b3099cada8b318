import Sand.Protocol.Parsed
import Sand.Protocol.TxBytes
import Sand.SHAMap.TreeNode

/-!
# Transactions written again

An accepted transaction is written with its fields in order, every end marker in place and nothing
behind.
-/

namespace Sand

open ByteReader Serializer STObject List STVar BigEndian TxFormats Except

/-! ## Sizes -/

/-- The size of a byte string with its length in front. -/
def Serializer.sizeVL (length : ℕ) : ℕ :=
  (if length ≤ 192 then 1 else if length ≤ 12480 then 2 else 3) + length

def STPathElement.size (e : STPathElement) : ℕ :=
  1 + (if e.nodeType &&& typeAccount ≠ 0 then 20 else 0) +
    (if e.nodeType &&& typeCurrency ≠ 0 then 20 else 0) +
    (if e.nodeType &&& typeIssuer ≠ 0 then 20 else 0)

def STValue.size : STValue → ℕ
  | notPresent => 0
  | uint8 _ => 1
  | uint16 _ => 2
  | uint32 _ => 4
  | uint64 _ => 8
  | hash128 _ => 16
  | hash160 _ => 20
  | hash256 _ => 32
  | amount a => if a.native then 8 else 48
  | vl bytes => sizeVL bytes.length
  | account bytes => sizeVL bytes.length
  | pathSet paths =>
    (paths.map fun path => (path.map STPathElement.size).sum).sum + max paths.length 1
  | vector256 hashes => sizeVL (32 * hashes.length)

mutual

def STVar.size : STVar → ℕ
  | .value f v => f.addID.length + v.size
  | .object o => o.fName.addID.length + o.size + 1
  | .array f os => f.addID.length + STArray.size os + 1

def STObject.size : STObject → ℕ
  | .mk _ _ fields => STVar.totalSize fields

def STVar.totalSize : List STVar → ℕ
  | [] => 0
  | v :: vs => (if v.isIncluded then v.size else 0) + STVar.totalSize vs

def STArray.size : List STObject → ℕ
  | [] => 0
  | o :: os => o.fName.addID.length + o.size + 1 + STArray.size os

end

variable {bytes : Blob}

theorem length_addVL {data : Blob} (h : addVL data = .ok bytes) :
    bytes.length = sizeVL data.length := by
  unfold addVL addEncoded at h
  unfold sizeVL
  split_ifs at h
  all_goals cases h
  all_goals
    simp [*]
    omega

theorem STPathElement.length_add (e : STPathElement) : e.add.length = e.size := by
  unfold add size add160
  split <;> split <;> split <;> simp [length_bytes]

theorem STPathSet.length_add (pts : List (List STPathElement)) :
    (add pts).length = (STValue.pathSet pts).size := by
  have he (path : List STPathElement) :
      (path.flatMap STPathElement.add).length = (path.map STPathElement.size).sum := by
    rw [length_flatMap]
    simp [STPathElement.length_add]
  unfold add STValue.size
  induction pts with
  | nil => rfl
  | cons path pts ih =>
    cases pts with
    | nil => simp [he]
    | cons next pts =>
      simp only [map_cons, intercalate_cons_cons, length_append,
        sum_cons, length_cons, length_nil] at ih ⊢
      simp only [he] at ih ⊢
      omega

theorem STAmount.length_addBytes (a : STAmount) :
    a.addBytes.length = if a.native then 8 else 48 := by
  unfold addBytes add160
  by_cases hna : a.native
  · rw [if_pos hna, if_pos hna, length_bytes]
  · rw [if_neg hna, if_neg hna]
    simp

theorem STValue.length_add {v : STValue} (h : v.add = .ok bytes) : bytes.length = v.size := by
  cases v with
  | vl data | account data => exact length_addVL h
  | pathSet paths =>
    cases h
    exact STPathSet.length_add paths
  | vector256 hashes =>
    have hl : (hashes.flatMap fun x => BigEndian.bytes 32 x.toNat).length =
        32 * hashes.length := by
      simp [length_bytes, Nat.mul_comm]
    rw [length_addVL h, hl, size]
  | amount a =>
    obtain rfl := ok.inj h
    exact STAmount.length_addBytes a
  | notPresent =>
    obtain rfl := ok.inj h
    rfl
  | _ =>
    obtain rfl := ok.inj h
    rw [length_bytes]
    rfl

theorem STVar.totalSize_eq (vs : List STVar) :
    STVar.totalSize vs = ((vs.filter STVar.isIncluded).map STVar.size).sum := by
  induction vs with
  | nil => rfl
  | cons v vs ih =>
    rw [STVar.totalSize, ih, filter_cons]
    split
    · rw [map_cons, sum_cons]
    · rw [Nat.zero_add]

theorem length_addAll {vs : List STVar}
    (hvs : ∀ v ∈ vs, ∀ part, v.encode = .ok part → part.length = v.size)
    (h : addAll (vs.map STVar.encode) = .ok bytes) : bytes.length = (vs.map STVar.size).sum := by
  induction vs generalizing bytes with
  | nil =>
    cases h
    rfl
  | cons v vs ih =>
    obtain ⟨hh, hta⟩ := forall_mem_cons.mp hvs
    rw [map_cons, addAll] at h
    cases hp : v.encode with
    | error e =>
      rw [hp] at h
      cases h
    | ok part =>
      cases hpt : addAll (vs.map STVar.encode) with
      | error e =>
        rw [hp, hpt] at h
        cases h
      | ok parts =>
        rw [hp, hpt] at h
        obtain rfl := ok.inj h
        rw [length_append, map_cons, sum_cons, hh part hp, ih hta hpt]

theorem STVar.length_encode {v : STVar} {part : Blob} (h : v.encode = .ok part) :
    ∃ bytes, v.add = .ok bytes ∧
      part.length = v.fName.addID.length + bytes.length + v.endMarker.length := by
  unfold STVar.encode at h
  cases ha : v.add with
  | error e =>
    rw [ha] at h
    cases h
  | ok bytes =>
    rw [ha] at h
    obtain rfl := ok.inj h
    exact ⟨bytes, rfl, by simp only [length_append]⟩

theorem STArray.length_add {os : List STObject}
    (hos : ∀ o ∈ os, ∀ part, STObject.add o = .ok part → part.length = o.size)
    (h : STArray.add os = .ok bytes) : bytes.length = STArray.size os := by
  induction os generalizing bytes with
  | nil =>
    cases h
    rfl
  | cons o os ih =>
    obtain ⟨hh, hta⟩ := forall_mem_cons.mp hos
    rw [STArray.add] at h
    cases hp : o.add with
    | error e =>
      rw [hp] at h
      cases h
    | ok part =>
      cases hpt : STArray.add os with
      | error e =>
        rw [hp, hpt] at h
        cases h
      | ok parts =>
        rw [hp, hpt] at h
        obtain rfl := ok.inj h
        simp only [length_append]
        rw [hh part hp, ih hta hpt, STArray.size]
        rfl

theorem STObject.length_add {o : STObject} (ho : o.WellFormed) (h : o.add = .ok bytes) :
    bytes.length = o.size := by
  have hal : (∀ v : STVar, v.WellFormed → ∀ part, v.encode = .ok part → part.length = v.size) ∧
      ∀ o : STObject, o.WellFormed → ∀ bytes, o.add = .ok bytes → bytes.length = o.size := by
    refine STVar.induct ?_ ?_ ?_ ?_
    · intro f v _ part hp
      obtain ⟨bytes, ha, hl⟩ := length_encode hp
      rw [hl, STValue.length_add ha]
      rfl
    · intro o ih hv part hp
      cases hv with
      | object _ ho =>
        obtain ⟨bytes, ha, hl⟩ := length_encode hp
        rw [hl, ih ho bytes ha]
        rfl
    · intro f os ih hv part hp
      cases hv with
      | array _ _ _ hos =>
        obtain ⟨bytes, ha, hl⟩ := length_encode hp
        rw [hl, STArray.length_add (fun o ho => ih o ho (hos o ho)) ha]
        rfl
    · intro f type fields ih ho bytes ha
      have hwr := perm_writtenFields ho.names.codes
      rw [add_eq] at ha
      rw [length_addAll (fun v hv => ?_) ha, (hwr.map STVar.size).sum_nat]
      · exact (totalSize_eq fields).symm
      · have hm := hwr.mem_iff.mp hv
        exact ih v (mem_of_mem_filter hm) (ho.field hm)
  exact hal.2 o ho bytes h

/-! ## The round trip -/

theorem TxFormats.elements {type : UInt16} {fmt : SOTemplate} (h : findByType type = some fmt) :
    (fmt.map Prod.fst).Nodup ∧ ∀ e ∈ fmt, e.2 = .default → e.1.fieldType = .pathSet := by
  obtain ⟨own, how, rfl⟩ := Option.map_eq_some_iff.mp h
  unfold ownFields at how
  split at how <;> cases how <;> decide +kernel

namespace SerializedTx

variable {fields : List STVar}

theorem ofFields_eq_ok_iff {tx : SerializedTx} : ofFields fields = .ok tx ↔
      STObject.getFieldU16 fields sfTransactionType = .ok tx.txType ∧
        ∃ format, findByType tx.txType = some format ∧ (STObject.setType format fields).1 ∧
          tx.object = .mk sfTransaction (some format) (STObject.setType format fields).2 := by
  obtain ⟨txType, object⟩ := tx
  unfold ofFields
  cases ht : getFieldU16 fields sfTransactionType with
  | error e => exact iff_of_false nofun nofun
  | ok type =>
    simp only [bind, Except.bind]
    cases hfm : findByType type with
    | none =>
      refine iff_of_false nofun ?_
      rintro ⟨heq, format, hfd, -⟩
      cases heq
      cases hfm.symm.trans hfd
    | some format =>
      dsimp only
      rcases hse : setType format fields with ⟨valid, taken⟩
      constructor
      · cases valid with
        | false => nofun
        | true =>
          intro h
          cases h
          exact ⟨rfl, format, hfm, by rw [hse], by rw [hse]⟩
      · rintro ⟨heq, format', hfd, hvd, hob⟩
        cases heq
        cases hfm.symm.trans hfd
        rw [hse] at hvd hob
        obtain rfl : valid := hvd
        obtain rfl : object = _ := hob
        rfl

variable {f : SField} {n : UInt16}

theorem mem_of_getFieldU16 (hfs : ∀ v ∈ fields, v.IsRead)
    (h : STObject.getFieldU16 fields f = .ok n) : STVar.value f (.uint16 n) ∈ fields := by
  unfold getFieldU16 at h
  cases hfd : fields.find? fun v => v.fName == f with
  | none =>
    rw [hfd] at h
    cases h
  | some v =>
    have hm := mem_of_find?_eq_some hfd
    have hn : v.fName = f := by simpa using List.find?_some hfd
    rw [hfd] at h
    cases v with
    | value g v =>
      obtain rfl : g = f := hn
      cases v with
      | notPresent => cases (hfs _ hm).sType
      | uint16 m =>
        obtain rfl := ok.inj h
        exact hm
      | _ => cases h
    | object o | array g os => cases h

theorem getFieldU16_of_back {vs ws : List STVar} (h : List.Forall₂ STVar.Back vs ws)
    (hns : STObject.NamesDiffer vs)
    (hm : STVar.value f (.uint16 n) ∈ vs) : STObject.getFieldU16 ws f = .ok n := by
  have hs : (STVar.value f (.uint16 n)).Survives := survives_value.mpr trivial
  obtain ⟨w, hw, hn⟩ : ∃ w ∈ ws, w.fName = f := by
    have hf : f ∈ vs.map STVar.fName := mem_map_of_mem hm
    rw [← names_of_back h] at hf
    exact mem_map.mp hf
  unfold getFieldU16
  cases hfd : ws.find? fun v => v.fName == f with
  | none => exact absurd hn (by simpa using List.find?_eq_none.mp hfd w hw)
  | some w' =>
    have hn' : w'.fName = f := by simpa using List.find?_some hfd
    have hbk := back_of_names h hns hm (mem_of_find?_eq_some hfd) hn'.symm
    have ht := hbk.type
    have heq := hbk.same.mpr hs
    cases w' with
    | value g v =>
      cases v with
      | uint16 m => exact congrArg ok (eq_of_beq heq)
      | _ => cases ht
    | object o | array g os => cases ht

theorem leavesOutDefaults_of_isRead {type : UInt16} {fmt : SOTemplate}
    (hfm : findByType type = some fmt) (hfs : ∀ v ∈ fields, v.IsRead) :
    STObject.LeavesOutDefaults fmt fields := by
  rintro f hf v hv rfl
  exact (hfs v hv).paths ((elements hfm).2 _ hf rfl)

section Accepted

variable {tx : SerializedTx}

section

variable (hfs : ∀ v ∈ fields, v.IsRead)
include hfs

section

variable (h : ofFields fields = .ok tx)
include h

/-- It has the fields that were read, in its format's order. -/
theorem perm_of_ofFields : (tx.object.fields.filter STVar.isIncluded).Perm fields := by
  obtain ⟨-, format, -, hvd, hob⟩ := ofFields_eq_ok_iff.mp h
  rw [hob]
  exact perm_setType (fun v hv => (hfs v hv).isIncluded) hvd

theorem rewritable_of_ofFields (hre : ∀ v ∈ fields, v.Rewritable) :
    tx.object.WellFormed ∧ tx.object.Survives ∧ tx.object.Exact := by
  have hpe := perm_of_ofFields hfs h
  obtain ⟨-, format, hfm, -, hob⟩ := ofFields_eq_ok_iff.mp h
  refine rewritable_of_fields (fun v hv hin => ?_) ?_ fun v hv => ?_
  · rw [hob] at hv
    exact hfs v ((mem_setType hv).resolve_right hin)
  · rw [hob]
    change ((setType format fields).2.map STVar.fName).Nodup
    rw [names_setType]
    exact (elements hfm).1
  · exact hre v (hpe.mem_iff.mp hv)

theorem size_of_ofFields : tx.object.size = STVar.totalSize fields := by
  have hi : fields.filter STVar.isIncluded = fields :=
    filter_eq_self.mpr fun v hv => (hfs v hv).isIncluded
  have hsi : tx.object.size = STVar.totalSize tx.object.fields := by
    cases tx.object
    rfl
  rw [hsi, totalSize_eq, totalSize_eq, hi, ((perm_of_ofFields hfs h).map STVar.size).sum_nat]

/-- Fields read back make up a transaction again. -/
theorem exists_ofFields_of_back
    (hwf : tx.object.WellFormed) {vs : List STVar} (hr : ∀ v ∈ vs, v.IsRead)
    (hvs : List.Forall₂ STVar.Back (STObject.writtenFields tx.object.fields) vs) :
    ∃ tx', ofFields vs = .ok tx' ∧ tx.object.Back tx'.object ∧
      tx'.object.mType = tx.object.mType ∧ tx.object.mType.isSome ∧
      tx'.object.fields.map STVar.fName = tx.object.fields.map STVar.fName := by
  have hwr := perm_writtenFields hwf.names.codes
  have hpe := hwr.trans (perm_of_ofFields hfs h)
  have hd : STObject.NamesDiffer (writtenFields tx.object.fields) :=
    (hwr.map _).nodup_iff.mpr ((filter_sublist.map _).nodup hwf.names)
  obtain ⟨ht, format, hfm, hvd, hob⟩ := ofFields_eq_ok_iff.mp h
  have ht' : getFieldU16 vs sfTransactionType = .ok tx.txType :=
    getFieldU16_of_back hvs hd (hpe.mem_iff.mpr (mem_of_getFieldU16 hfs ht))
  have hns : (vs.map STVar.fName).Perm (fields.map STVar.fName) := by
    rw [names_of_back hvs]
    exact hpe.map _
  have hvd' : (setType format vs).1 := by
    rw [setType_valid_of_perm (leavesOutDefaults_of_isRead hfm hr)
      (leavesOutDefaults_of_isRead hfm hfs) hns, hvd]
  refine ⟨⟨tx.txType, .mk sfTransaction (some format) (setType format vs).2⟩,
    ofFields_eq_ok_iff.mpr ⟨ht', format, hfm, hvd', rfl⟩,
    back_of_setType hwf hvs _ (elements hfm).1 hvd', ?_, ?_, ?_⟩
  · rw [hob]
    rfl
  · rw [hob]
    rfl
  · rw [hob]
    exact (names_setType format vs).trans (names_setType format fields).symm

end

end

end Accepted

/-- Its bytes are accepted as an equal transaction. -/
def comesBack (tx : SerializedTx) : Bool :=
  match tx.object.add with
  | .error _ => false
  | .ok bytes =>
    match read.run bytes with
    | .error _ => false
    | .ok (tx', _) => tx'.object.equal tx.object

/-- It can be written again, and the size is in the limits. -/
structure Rewritable (fields : List STVar) : Prop where
  each : ∀ v ∈ fields, v.Rewritable
  min : txMinSizeBytes ≤ STVar.totalSize fields
  max : STVar.totalSize fields ≤ txMaxSizeBytes

section Identifier

variable [Sha512Half]

def getTransactionID (tx : SerializedTx) : Option UInt256 :=
  tx.object.add.toOption.map fun bytes => sha512Half (HashPrefix.transactionID ++ bytes)

/-- What is written is accepted as equal, with its identifier. -/
def RoundTrips (tx : SerializedTx) : Prop :=
  ∃ bytes tx' rest, tx.object.add = .ok bytes ∧ read.run bytes = .ok (tx', rest) ∧
    tx'.getTransactionID = tx.getTransactionID ∧
    (tx'.object.equal tx.object ∧ tx.object.equal tx'.object) ∧
    tx'.object.isEquivalent tx.object ∧ tx.object.isEquivalent tx'.object

/-- If its fields can be written again it survives. -/
theorem roundTrips_of_rewritable {input rest : Blob} {tx : SerializedTx} {fields : List STVar}
    (h : read.run input = .ok (tx, rest)) (hse : STObject.set.run input = .ok (fields, rest))
    (hre : Rewritable fields) : tx.RoundTrips := by
  obtain ⟨-, fields', hse', hof⟩ := run_read_eq_ok_iff.mp h
  obtain ⟨rfl, -⟩ := Prod.mk.inj (ok.inj (hse.symm.trans hse'))
  have hfs := STObject.ensures_set hse
  obtain ⟨hwf, hs, hex⟩ := rewritable_of_ofFields hfs hof hre.each
  obtain ⟨bytes, result, htr⟩ := STObject.exists_roundTrip hwf
  obtain ⟨vs, hr, hvs⟩ := htr.exists_fields hs
  obtain ⟨tx', hof', hbk, ht, hty, hns⟩ :=
    exists_ofFields_of_back hfs hof hwf (STObject.ensures_set hr) hvs
  refine ⟨bytes, tx', [], htr.added, ?_, ?_, ?_, ?_⟩
  · refine run_read_eq_ok_iff.mpr ⟨?_, vs, hr, hof'⟩
    rw [STObject.length_add hwf htr.added, size_of_ofFields hfs hof]
    exact ⟨hre.min, hre.max⟩
  · unfold getTransactionID
    rw [hbk.again hs hex]
  · exact ⟨hbk.equal.mpr hs, hbk.equal'.mpr hs⟩
  · unfold STObject.isEquivalent STObject.isEquivalentBy
    rw [ht, if_pos (by simp [hty]), if_pos (by simp [hty])]
    exact ⟨(hbk.aligned hns).mpr hs, (hbk.aligned' hns).mpr hs⟩

theorem RoundTrips.comesBack {tx : SerializedTx} (h : tx.RoundTrips) : tx.comesBack := by
  obtain ⟨bytes, tx', rest, ha, hr, -, ⟨heu, -⟩, -⟩ := h
  unfold SerializedTx.comesBack
  rw [ha]
  dsimp only
  rw [hr]
  exact heu

end Identifier

theorem run_set_accountSetBytes : STObject.set.run accountSetBytes =
    .ok ([.value sfTransactionType (.uint16 3), .value sfSequence (.uint32 1),
      .value sfFee (.amount (.ofDrops 10)), .value sfSigningPubKey (.vl []),
      .value sfAccount (.account (replicate 20 7))], []) :=
  rfl

theorem accountSetBytes_roundTrips : ∃ tx fields, read.run accountSetBytes = .ok (tx, []) ∧
      STObject.set.run accountSetBytes = .ok (fields, []) ∧ Rewritable fields ∧
      ∀ [Sha512Half], tx.RoundTrips := by
  obtain ⟨tx, hr⟩ : ∃ tx, read.run accountSetBytes = .ok (tx, []) :=
    exists_of_rest (by decide +kernel)
  have hvl {f : SField} {v : STValue} (hv : v.Rewritable) : (STVar.value f v).Rewritable :=
    every_value.mpr hv
  have hre : Rewritable [.value sfTransactionType (.uint16 3),
      .value sfSequence (.uint32 1), .value sfFee (.amount (.ofDrops 10)),
      .value sfSigningPubKey (.vl []), .value sfAccount (.account (replicate 20 7))] := by
    refine ⟨?_, by decide, by decide⟩
    simp only [forall_mem_cons]
    exact ⟨hvl trivial, hvl trivial, hvl trivial, hvl (Nat.zero_le _),
      hvl (by change (replicate 20 (7 : UInt8)).length ≤ 918744; decide), nofun⟩
  exact ⟨tx, _, hr, run_set_accountSetBytes, hre,
    roundTrips_of_rewritable hr run_set_accountSetBytes hre⟩

def memoBytes : Blob :=
  accountSetBytes ++ [0xF9, 0xEA, 0x7C, 0x01, 0xAA, 0x7C, 0x01, 0xBB, 0xE1, 0xF1]

def zeroPathBytes : Blob :=
  [0x12, 0x00, 0x00] ++ [0x24, 0x00, 0x00, 0x00, 0x01] ++
    [0x61, 0x40, 0x00, 0x00, 0x00, 0x00, 0x00, 0x00, 0x0A] ++
    [0x68, 0x40, 0x00, 0x00, 0x00, 0x00, 0x00, 0x00, 0x0A] ++ [0x73, 0x00] ++
    [0x81, 0x14] ++ replicate 20 0x07 ++ [0x83, 0x14] ++ replicate 20 0x08 ++
    [0x01, 0x12, 0x01] ++ replicate 20 0x00 ++ [0x00]

theorem not_roundTrips_of_comesBack {inp : Blob}
    (h : ((read.run inp).toOption.any fun p => !p.1.comesBack)) :
    ∃ tx rest, read.run inp = .ok (tx, rest) ∧ ∀ [Sha512Half], ¬ tx.RoundTrips := by
  cases hr : read.run inp with
  | error e =>
    rw [hr] at h
    cases h
  | ok result =>
    rw [hr] at h
    refine ⟨result.1, result.2, rfl, fun htr => ?_⟩
    change (!result.1.comesBack) at h
    rw [htr.comesBack] at h
    cases h

/-- A type is lost; and the element is taken for the end. -/
theorem accepted_not_roundTrips :
    (∃ tx rest, read.run memoBytes = .ok (tx, rest) ∧ ∀ [Sha512Half], ¬ tx.RoundTrips) ∧
      ∃ tx rest, read.run zeroPathBytes = .ok (tx, rest) ∧ ∀ [Sha512Half], ¬ tx.RoundTrips :=
  ⟨not_roundTrips_of_comesBack (by decide +kernel), not_roundTrips_of_comesBack (by decide +kernel)⟩

end SerializedTx

end Sand
