import Sand.Protocol.Parsing

/-!
# Transactions as bytes

The constructor of a transaction from its bytes.
-/

namespace Sand

open ByteReader STObject List Serializer

structure SerializedTx where
  txType : UInt16
  object : STObject

namespace STObject

def getFieldU16 (fields : List STVar) (f : SField) : Except String UInt16 :=
  match fields.find? fun v => v.fName == f with
  | none => .error "Field not found"
  | some (.value _ .notPresent) => .ok 0
  | some (.value _ (.uint16 n)) => .ok n
  | some _ => .error "Wrong field type"

end STObject

namespace SerializedTx

def txMinSizeBytes : ℕ := 32

def txMaxSizeBytes : ℕ := 1048576

/-- Its type tells the template the fields have to fit. -/
def ofFields (fields : List STVar) : Except String SerializedTx := do
  let txType ← STObject.getFieldU16 fields sfTransactionType
  match TxFormats.findByType txType with
  | none => throw "invalid transaction type"
  | some format =>
    match STObject.setType format fields with
    | (true, taken) => return ⟨txType, .mk sfTransaction (some format) taken⟩
    | (false, _) => throw "transaction not valid"

/-- `STTx (SerialIter&)`. -/
def read : SerialIter SerializedTx := fun input =>
  if input.length < txMinSizeBytes ∨ txMaxSizeBytes < input.length then
    .error "Transaction length invalid"
  else do
    let (fields, rest) ← STObject.set.run input
    let tx ← ofFields fields
    return (tx, rest)

variable {input rest : Blob} {tx : SerializedTx}

/-- The length is in the limits, the fields fit. -/
theorem run_read_eq_ok_iff : read.run input = .ok (tx, rest) ↔
      (txMinSizeBytes ≤ input.length ∧ input.length ≤ txMaxSizeBytes) ∧
        ∃ fields, STObject.set.run input = .ok (fields, rest) ∧ ofFields fields = .ok tx := by
  change (if input.length < txMinSizeBytes ∨ txMaxSizeBytes < input.length then _ else _) = _ ↔ _
  by_cases hln : input.length < txMinSizeBytes ∨ txMaxSizeBytes < input.length
  · rw [if_pos hln]
    refine iff_of_false nofun ?_
    rintro ⟨hl, -⟩
    omega
  rw [if_neg hln]
  have hl : txMinSizeBytes ≤ input.length ∧ input.length ≤ txMaxSizeBytes := by omega
  cases hs : set.run input with
  | error e => exact iff_of_false nofun (by rintro ⟨-, fields, hr, -⟩; cases hr)
  | ok result =>
    obtain ⟨fields, rest'⟩ := result
    change (ofFields fields >>= fun tx => Except.ok (tx, rest')) = _ ↔ _
    cases hfs : ofFields fields with
    | error e =>
      refine iff_of_false nofun ?_
      rintro ⟨-, fields', hr, hof⟩
      cases hr
      rw [hfs] at hof
      cases hof
    | ok tx' =>
      constructor
      · intro h
        cases h
        exact ⟨hl, fields, rfl, hfs⟩
      · rintro ⟨-, fields', hr, hof⟩
        cases hr
        rw [hfs] at hof
        cases hof
        rfl

/-! ## Trailing data -/

def IsField (bytes : Blob) : Prop :=
  ∃ (f : SField) (body : Blob) (v : STVar), f.IsEncodable ∧ bytes = f.addID ++ body ∧
    Reads (STVar.read f) body v

/-- There are bytes behind the last end marker. -/
def HasTrailer (bytes : Blob) : Prop :=
  ∃ (parts : List Blob) (trailer : Blob), (∀ part ∈ parts, IsField part) ∧ trailer ≠ [] ∧
    bytes = parts.flatten ++ (endOfObject ++ trailer)

theorem parts_of_run_set {fs : List STVar} (hrs : rest ≠ [])
    (h : STObject.set.run input = .ok (fs, rest)) :
    ∃ parts : List Blob, (∀ part ∈ parts, IsField part) ∧
      input = parts.flatten ++ (endOfObject ++ rest) := by
  induction hln : input.length using Nat.strong_induction_on generalizing input fs with
  | _ n ih =>
    subst hln
    rw [set_eq] at h
    obtain ⟨-, -, hn⟩ | ⟨hen, -⟩ | ⟨f, mid, v, mid', vs, hf, hi, hv, hvs, -⟩ := setStep_cases h
    · exact absurd hn hrs
    · exact ⟨[], nofun, hen⟩
    · have hm : mid' ≠ [] := by
        rintro rfl
        have hle := delimited_set.length_le hvs
        exact hrs (length_eq_zero_iff.mp (Nat.le_zero.mp hle))
      obtain ⟨body, rfl, hr⟩ : ∃ body, mid = body ++ mid' ∧ Reads (STVar.read f) body v := by
        obtain ⟨body, hsp, hr | ⟨hn, -⟩⟩ := STVar.delimited_read f hv
        · exact ⟨body, hsp, hr⟩
        · exact absurd hn hm
      have hls : mid'.length < input.length := by
        have hid : 0 < f.addID.length := length_pos_iff.mpr f.addID_ne_nil
        rw [hi, length_append, length_append]
        omega
      obtain ⟨parts, hp, rfl⟩ := ih mid'.length hls hvs rfl
      refine ⟨(f.addID ++ body) :: parts, ?_, ?_⟩
      · exact forall_mem_cons.mpr ⟨⟨f, body, v, hf, rfl, hr⟩, hp⟩
      · rw [hi, flatten_cons]
        simp [append_assoc]

theorem run_set_of_parts {parts : List Blob} (hp : ∀ part ∈ parts, IsField part)
    (trailer : Blob) : ∃ fields, STObject.set.run
      (parts.flatten ++ (endOfObject ++ trailer)) = .ok (fields, trailer) := by
  induction parts with
  | nil =>
    refine ⟨[], ?_⟩
    exact run_setStep_end trailer
  | cons part parts ih =>
    obtain ⟨⟨f, body, v, hf, hpa, hr⟩, ho⟩ := forall_mem_cons.mp hp
    obtain ⟨fields, run⟩ := ih ho
    refine ⟨v :: fields, ?_⟩
    rw [set_eq, flatten_cons, hpa, append_assoc, append_assoc,
      run_setStep_field hf, run_bind_of_ok (hr.run _), run_bind_of_ok run]
    rfl

theorem exists_extension (h : read.run input = .ok (tx, rest))
    (hln : input.length < txMaxSizeBytes) :
    ∃ b rest', read.run (input ++ [b]) = .ok (tx, rest') := by
  obtain ⟨hl, fields, hs, hfs⟩ := run_read_eq_ok_iff.mp h
  have hs' : ∃ b rest', set.run (input ++ [b]) = .ok (fields, rest') := by
    obtain ⟨bytes, rfl, hr | ⟨rfl, b, hc⟩⟩ := delimited_set hs
    · exact ⟨0, rest ++ [0], by rw [append_assoc]; exact hr.run _⟩
    · exact ⟨b, [], by rwa [append_nil]⟩
  obtain ⟨b, rest', run⟩ := hs'
  refine ⟨b, rest', run_read_eq_ok_iff.mpr ⟨?_, fields, run, hfs⟩⟩
  rw [length_append, length_singleton]
  omega

/-- An accepted input is consumed unless there are bytes behind an end marker, and it is the only
one of those it begins that is accepted so only if it has the maximal length. -/
theorem consumed_iff_not_hasTrailer (h : read.run input = .ok (tx, rest)) :
    (rest = [] ↔ ¬ HasTrailer input) ∧
      ((∀ suffix rest', suffix ≠ [] → read.run (input ++ suffix) ≠ .ok (tx, rest')) ↔
        input.length = txMaxSizeBytes) := by
  obtain ⟨hl, fields, hs, -⟩ := run_read_eq_ok_iff.mp h
  refine ⟨⟨?_, ?_⟩, ?_, ?_⟩
  · rintro rfl ⟨parts, trailer, hp, hne, rfl⟩
    obtain ⟨fields', run⟩ := run_set_of_parts hp trailer
    rw [hs] at run
    exact hne (congrArg Prod.snd (Except.ok.inj run)).symm
  · intro hno
    by_contra hrs
    obtain ⟨parts, hp, hi⟩ := parts_of_run_set hrs hs
    exact hno ⟨parts, rest, hp, hrs, hi⟩
  · intro hu
    by_contra hln
    obtain ⟨b, rest', run⟩ := exists_extension h (by omega)
    exact hu [b] rest' nofun run
  · intro hln suffix rest' hne run
    have hma := (run_read_eq_ok_iff.mp run).1.2
    have hpo := length_pos_iff.mpr hne
    rw [length_append] at hma
    omega

def accountSetBytes : Blob :=
  [0x12, 0x00, 0x03] ++ [0x24, 0x00, 0x00, 0x00, 0x01] ++
    [0x68, 0x40, 0x00, 0x00, 0x00, 0x00, 0x00, 0x00, 0x0A] ++ [0x73, 0x00] ++
    [0x81, 0x14] ++ List.replicate 20 0x07

theorem exists_of_rest (h : (read.run input).toOption.map Prod.snd = some rest) :
    ∃ tx, read.run input = .ok (tx, rest) := by
  cases run : read.run input with
  | error e =>
    rw [run] at h
    cases h
  | ok result =>
    rw [run] at h
    cases h
    exact ⟨result.1, rfl⟩

theorem accountSetBytes_consumed :
    (∃ tx, read.run accountSetBytes = .ok (tx, [])) ∧ ¬ HasTrailer accountSetBytes := by
  obtain ⟨tx, hr⟩ : ∃ tx, read.run accountSetBytes = .ok (tx, []) :=
    exists_of_rest (by decide +kernel)
  exact ⟨⟨tx, hr⟩, (consumed_iff_not_hasTrailer hr).1.mp rfl⟩

/-- A byte behind an end marker is not consumed. -/
theorem trailing_data_accepted :
    (∃ tx, read.run (accountSetBytes ++ [0xE1, 0x55]) = .ok (tx, [0x55])) ∧
      ∃ tx rest b rest', read.run accountSetBytes = .ok (tx, rest) ∧
        read.run (accountSetBytes ++ [b]) = .ok (tx, rest') := by
  refine ⟨exists_of_rest (by decide +kernel), ?_⟩
  obtain ⟨tx, hr⟩ : ∃ tx, read.run accountSetBytes = .ok (tx, []) :=
    exists_of_rest (by decide +kernel)
  obtain ⟨b, rest', he⟩ := exists_extension hr (by decide)
  exact ⟨tx, [], b, rest', hr, he⟩

end SerializedTx

end Sand
