import Sand.Protocol.ObjectRoundTrip

/-!
# What parsing returns

Every value the readers return is in the form the program keeps it.
-/

namespace Sand

open ByteReader SerialIter STObject List STVar InnerObjectFormats UInt64 SField

/-! ## Values -/

namespace STAmount

theorem ensures_readNative {word : ℕ} (hwo : word < 2 ^ 63) :
    Ensures (readNative word) fun a => a.IsCanonical ∧ a.FitsBesideSign := by
  have hna {m : ℕ} {negative : Bool} (hm : m < 2 ^ 62) (h0 : m = 0 → negative = false) :
      IsCanonical ⟨xrpIssue, .ofNat m, 0, negative⟩ ∧
        FitsBesideSign ⟨xrpIssue, .ofNat m, 0, negative⟩ := by
    have hma : (ofNat m).toNat = m := by
      rw [toNat_ofNat']
      omega
    refine ⟨⟨fun _ => ⟨rfl, rfl, ?_, fun h => h0 ?_⟩, nofun⟩, fun _ => ?_⟩
    · rw [hma]
      unfold cMaxNative
      omega
    · rw [← hma, show ofNat m = 0 from h]
      rfl
    · rw [hma]
      exact hm
  refine ensures_ite (fun _ => ensures_pure (hna (by omega) fun _ => rfl)) fun hsi => ?_
  refine ensures_ite (fun _ => ensures_throw _) fun hne => ?_
  exact ensures_pure (hna (by omega) fun h0 => absurd h0 hne)

theorem ensures_ofWord {iss : Issue} (hc : isXRP iss.currency = false)
    (hac : iss.account ≠ 0) (word : ℕ) :
    Ensures (ofWord iss word) fun a => a.IsCanonical ∧ a.FitsBesideSign := by
  have hiss {a : STAmount} (his : a.issue = iss)
      (hfo : a.mantissa = 0 ∧ a.exponent = -100 ∧ a.negative = false ∨
        (cMinValue ≤ a.mantissa.toNat ∧ a.mantissa.toNat ≤ cMaxValue) ∧
          cMinOffset ≤ a.exponent ∧ a.exponent ≤ cMaxOffset) :
      a.IsCanonical ∧ a.FitsBesideSign := by
    have hnt : ¬ a.native := by
      unfold native
      rw [his, hc]
      exact Bool.false_ne_true
    exact ⟨⟨fun h => absurd h hnt, fun _ => ⟨his ▸ hac, hfo⟩⟩, fun h => absurd h hnt⟩
  refine ensures_ite (fun _ => ensures_ite (fun _ => ensures_throw _) fun _ => ?_) fun _ =>
    ensures_ite (fun _ => ensures_throw _) fun hrn => ?_
  · rw [canonicalized_zero hc]
    exact ensures_pure (hiss rfl (.inl ⟨rfl, rfl, rfl⟩))
  have hval : (ofNat (word % 2 ^ 54)).toNat = word % 2 ^ 54 := by
    rw [toNat_ofNat']
    omega
  simp only [not_or, not_lt] at hrn
  obtain ⟨hmi, hmx, hl, hh⟩ := hrn
  rw [← hval] at hmi hmx ⊢
  rw [canonicalized_of_range hc hmi hmx hl hh]
  exact ensures_pure (hiss rfl (.inr ⟨⟨hmi, hmx⟩, hl, hh⟩))

theorem ensures_read : Ensures read fun a => a.IsCanonical ∧ a.FitsBesideSign := by
  refine (ensures_true _).bind fun word _ => ensures_ite (fun hwo => ?_) fun _ => ?_
  · exact ensures_readNative (by omega)
  refine (ensures_true _).bind fun currency _ => ?_
  refine ensures_ite (fun _ => ensures_throw _) fun hc => ?_
  refine (ensures_true _).bind fun account _ => ?_
  refine ensures_ite (fun _ => ensures_throw _) fun hac => ?_
  exact ensures_ofWord (by simpa using hc) (by simpa [isXRP] using hac) word

end STAmount

namespace STPathElement

def IsMade (e : STPathElement) : Prop :=
  ∃ account currency issuer forceCurrency, e = make account currency issuer forceCurrency

variable (account issuer : AccountID) (currency : Currency) (forceCurrency : Bool)

theorem make_typeCurrency : (make account currency issuer forceCurrency).nodeType &&& typeCurrency =
      if forceCurrency || !isXRP currency then typeCurrency else 0 := by
  unfold make
  dsimp only
  cases isXRP account <;> cases forceCurrency || !isXRP currency <;> cases isXRP issuer <;> decide

theorem make_typeIssuer : (make account currency issuer forceCurrency).nodeType &&& typeIssuer =
      if isXRP issuer then 0 else typeIssuer := by
  unfold make
  dsimp only
  cases isXRP account <;> cases forceCurrency || !isXRP currency <;> cases isXRP issuer <;> decide

theorem make_known : (make account currency issuer forceCurrency).nodeType &&& ~~~typeAll = 0 := by
  unfold make
  dsimp only
  cases isXRP account <;> cases forceCurrency || !isXRP currency <;> cases isXRP issuer <;> decide

variable {e : STPathElement}

theorem IsMade.typeFits (h : e.IsMade) : e.TypeFits := by
  obtain ⟨account, currency, issuer, force, rfl⟩ := h
  refine ⟨?_, fun hne => ?_, fun hne => ?_⟩
  · rw [make_typeAccount]
    change _ ↔ account ≠ 0
    by_cases h0 : account = 0 <;> simp [isXRP, h0, typeAccount]
  · have hc : isXRP currency = false := by simpa [isXRP, make] using hne
    rw [make_typeCurrency, hc]
    simp [typeCurrency]
  · have hir : isXRP issuer = false := by simpa [isXRP, make] using hne
    rw [make_typeIssuer, hir]
    decide

theorem IsMade.reread_eq (h : e.IsMade) : e.reread = e := by
  have hk (p : Prop) [Decidable p] {x : BitVec 160} (hx : x ≠ 0 → p) :
      (if p then x else 0) = x := by
    by_cases hp : p
    · exact if_pos hp
    · rw [if_neg hp]
      exact (not_not.mp fun hne => hp (hx hne)).symm
  have hfi := h.typeFits
  unfold reread
  rw [hk _ hfi.account.mpr, hk _ hfi.currency, hk _ hfi.issuer]
  obtain ⟨account, currency, issuer, force, rfl⟩ := h
  rw [make_typeCurrency]
  cases force <;> cases hc : isXRP currency <;> simp [make, hc, typeCurrency]

theorem IsMade.isTyped (h : e.IsMade) (hne : e.nodeType ≠ 0) : e.IsTyped := by
  obtain ⟨account, currency, issuer, force, rfl⟩ := h
  exact ⟨hne, make_known ..⟩

theorem ensures_read (ity : BitVec 8) : Ensures (read ity) IsMade := by
  refine (ensures_true _).bind fun account _ => (ensures_true _).bind fun currency _ => ?_
  exact (ensures_true _).bind fun issuer _ => ensures_pure ⟨account, currency, issuer, _, rfl⟩

end STPathElement

namespace STPathSet

/-- Paths, none empty, with type words of the identifiers. -/
def IsRead (paths : List (List STPathElement)) : Prop :=
  paths ≠ [] ∧ ∀ path ∈ paths, path ≠ [] ∧ ∀ e ∈ path, STPathElement.IsMade e

theorem ensures_readStep {next : List STPathElement → SerialIter (List (List STPathElement))}
    (hn : ∀ path, (∀ e ∈ path, STPathElement.IsMade e) → Ensures (next path) IsRead)
    {path : List STPathElement} (hpt : ∀ e ∈ path, STPathElement.IsMade e) :
    Ensures (readStep next path) IsRead := by
  refine (ensures_true _).bind fun iType _ => ensures_ite (fun _ => ?_) fun _ =>
    ensures_ite (fun _ => ?_) fun _ => ?_
  · refine ensures_ite (fun _ => ensures_throw _) fun hne => ensures_pure ⟨nofun, ?_⟩
    exact forall_mem_singleton.mpr ⟨by simpa using hne, hpt⟩
  · refine ensures_ite (fun _ => ensures_throw _) fun hne => ?_
    refine (hn [] nofun).bind fun paths hpa => ensures_pure ⟨nofun, ?_⟩
    exact forall_mem_cons.mpr ⟨⟨by simpa using hne, hpt⟩, hpa.2⟩
  · refine ensures_ite (fun _ => ensures_throw _) fun _ => ?_
    refine (STPathElement.ensures_read _).bind fun e he => hn _ ?_
    exact forall_mem_append.mpr ⟨hpt, forall_mem_singleton.mpr he⟩

theorem ensures_read : Ensures (read []) IsRead := by
  have hro (rounds : ℕ) : ∀ path, (∀ e ∈ path, STPathElement.IsMade e) →
      Ensures (readRounds rounds path) IsRead := by
    induction rounds with
    | zero => exact fun _ _ => ensures_throw _
    | succ rounds ih => exact fun path hpt => ensures_readStep ih hpt
  exact ensures_unbounded fun rounds => hro rounds [] nofun

end STPathSet

namespace STValue

/-- Writable length, and no element taken for the end. -/
def Rewritable : STValue → Prop
  | vl bytes => bytes.length ≤ 918744
  | account bytes => bytes.length ≤ 918744
  | vector256 hashes => 32 * hashes.length ≤ 918744
  | pathSet paths => ∀ path ∈ paths, ∀ e ∈ path, e.nodeType ≠ 0
  | _ => True

structure IsRead (type : SerializedTypeID) (v : STValue) : Prop where
  sType : ∀ f, (value f v).getSType = some type
  rewritable : v.Rewritable → v.WellFormed type ∧ v.Survives ∧ v.Exact
  paths : type = .pathSet → ∀ f, (value f v).isDefault = false

theorem ensures_read (type : SerializedTypeID) : Ensures (read type) (IsRead type) := by
  have hpl {α : Type} {r : SerialIter α} {f : α → STValue}
      (h : ∀ a, IsRead type (f a)) : Ensures (f <$> r) (IsRead type) :=
    (ensures_true r).map fun a _ => h a
  cases type with
  | uint8 | uint16 | uint32 | uint64 | hash128 | hash160
  | hash256 => exact hpl fun _ => ⟨fun _ => rfl, fun _ => ⟨trivial, trivial, trivial⟩, nofun⟩
  | amount =>
    refine STAmount.ensures_read.map fun a ha => ?_
    exact ⟨fun _ => rfl, fun _ => ⟨ha.1, ha.2, trivial⟩, nofun⟩
  | vl | account => exact hpl fun _ => ⟨fun _ => rfl, fun h => ⟨h, trivial, trivial⟩, nofun⟩
  | pathSet =>
    refine STPathSet.ensures_read.map fun paths hpa => ?_
    refine ⟨fun _ => rfl, fun hrw => ⟨?_, ⟨hpa.1, ?_⟩, ?_⟩, fun _ _ => ?_⟩
    · intro path hpt
      obtain ⟨hne, hmd⟩ := hpa.2 path hpt
      exact ⟨hne, fun e he => (hmd e he).isTyped (hrw path hpt e he)⟩
    · exact fun path hpt e he => ((hpa.2 path hpt).2 e he).typeFits
    · exact fun path hpt e he => ((hpa.2 path hpt).2 e he).reread_eq
    · exact isEmpty_eq_false_iff.mpr hpa.1
  | vector256 => exact hpl fun _ => ⟨fun _ => rfl, fun h => ⟨h, trivial, trivial⟩, nofun⟩
  | object | array | transaction => exact ensures_throw _

end STValue

/-! ## Objects -/

/-- Every value can be written, no object has a name twice. -/
abbrev STVar.Rewritable : STVar → Prop :=
  STVar.Every STValue.Rewritable fun o => STObject.NamesDiffer o.fields

structure STVar.IsRead (v : STVar) : Prop where
  encodable : v.fName.IsEncodable
  sType : v.getSType = some v.fName.fieldType
  rewritable : v.Rewritable → v.WellFormed ∧ v.Survives ∧ v.Exact
  paths : v.fName.fieldType = .pathSet → v.isDefault = false

theorem STVar.IsRead.isIncluded {v : STVar} (h : v.IsRead) : v.isIncluded := by
  rw [STVar.isIncluded, h.sType, h.encodable.isBinary]
  rfl

/-- What is said of a nested object that was read. -/
structure STObject.IsRead (o : STObject) : Prop where
  nested : o.IsNested
  fits : o.FitsPlace
  rewritable : NamesDiffer o.fields → (∀ v ∈ o.fields.filter STVar.isIncluded, v.Rewritable) →
    o.WellFormed ∧ o.Survives ∧ o.Exact

variable {o : STObject}

theorem STObject.rewritable_of_fields (hfs : ∀ v ∈ o.fields, v.getSType ≠ none → v.IsRead)
    (hns : NamesDiffer o.fields) (hal : ∀ v ∈ o.fields.filter STVar.isIncluded, v.Rewritable) :
    o.WellFormed ∧ o.Survives ∧ o.Exact := by
  have hg : ∀ v ∈ o.fields, v.getSType ≠ none → v.WellFormed ∧ v.Survives ∧ v.Exact := by
    intro v hv hin
    have hr := hfs v hv hin
    exact hr.rewritable (hal v (mem_filter.mpr ⟨hv, hr.isIncluded⟩))
  have hi : ∀ v ∈ o.fields.filter STVar.isIncluded, v.WellFormed ∧ v.Survives ∧ v.Exact := by
    intro v hv
    obtain ⟨hme, hi⟩ := mem_filter.mp hv
    rw [STVar.isIncluded, Bool.and_eq_true, Option.isSome_iff_ne_none] at hi
    exact hg v hme hi.1
  obtain ⟨f, type, fields⟩ := o
  exact ⟨.mk hns fun v hv hin => (hg v hv hin).1,
    every_iff.mpr fun v hv => (hi v hv).2.1, every_iff.mpr fun v hv => (hi v hv).2.2⟩

theorem STObject.isRead_of_setTypeFromSField {f : SField} (hf : f.IsEncodable)
    (ht : f.fieldType = .object) {vs : List STVar} (hvs : ∀ v ∈ vs, v.IsRead)
    (ho : setTypeFromSField f vs = some o) : o.fName = f ∧ o.IsRead := by
  have hi : ∀ v ∈ vs, v.isIncluded := fun v hv => (hvs v hv).isIncluded
  unfold setTypeFromSField at ho
  cases htp : findSOTemplateBySField f with
  | none =>
    rw [htp] at ho
    cases ho
    refine ⟨rfl, ⟨hf, ht, .inl rfl⟩, fun type ht => ?_, rewritable_of_fields ?_⟩
    · have hno : findSOTemplateBySField f = some type := ht
      rw [htp] at hno
      cases hno
    · exact fun v hv _ => hvs v hv
  | some type =>
    rw [htp] at ho
    obtain ⟨-, hre⟩ := elements htp
    have hd (us : List STVar) : LeavesOutDefaults type us := fun f hf => nomatch hre _ hf
    have hpe : (setType type vs).1 →
        ((setType type vs).2.filter STVar.isIncluded).Perm vs := perm_setType hi
    have hme : ∀ w ∈ (setType type vs).2, w ∈ vs ∨ w.getSType = none := fun w hw => mem_setType hw
    have hns := names_setType type vs
    have hvl : (setType type vs).1 →
        (setType type ((setType type vs).2.filter STVar.isIncluded)).1 := fun h =>
      (setType_valid_of_perm (hd _) (hd vs) ((hpe h).map _)).trans h
    dsimp only at ho
    rcases hse : setType type vs with ⟨valid, taken⟩
    rw [hse] at ho hpe hme hns hvl
    cases valid with
    | false => cases ho
    | true =>
      cases ho
      refine ⟨rfl, ⟨hf, ht, .inr ⟨type, htp, rfl, hns⟩⟩, fun type' ht' => ?_,
        rewritable_of_fields fun v hv hin => ?_⟩
      · have heq : findSOTemplateBySField f = some type' := ht'
        rw [htp] at heq
        cases heq
        exact hvl rfl
      · exact hvs v ((hme v hv).resolve_right hin)

section Rounds

variable {fields : SerialIter (List STVar)} {objects : SerialIter (List STObject)}

theorem STVar.ensures_readWith (hfs : Ensures fields fun vs => ∀ v ∈ vs, v.IsRead)
    (hob : Ensures objects fun os => ∀ o ∈ os, o.IsRead) {f : SField} (hf : f.IsEncodable) :
    Ensures (readWith fields objects f) STVar.IsRead := by
  by_cases hoj : f.fieldType = .object
  · rw [readWith_object hoj]
    refine hfs.bind fun vs hvs => ?_
    cases ho : setTypeFromSField f vs with
    | none => exact ensures_throw _
    | some o =>
      obtain ⟨hnm, hr⟩ := isRead_of_setTypeFromSField hf hoj hvs ho
      have ht : o.fName.fieldType = .object := hr.nested.type
      refine ensures_pure ⟨hr.nested.encodable, congrArg some ht.symm, fun h => ?_, ?_⟩
      · obtain ⟨hns, hal⟩ := every_object.mp h
        obtain ⟨hwf, hs, hex⟩ := hr.rewritable hns (every_iff.mp hal)
        exact ⟨.object hr.nested hwf, survives_object.mpr ⟨hr.fits, hs⟩,
          every_object.mpr ⟨trivial, hex⟩⟩
      · intro hpa
        cases ht.symm.trans hpa
  by_cases har : f.fieldType = .array
  · rw [readWith_array har]
    refine hob.map fun os hos => ⟨hf, congrArg some har.symm, fun h => ?_, ?_⟩
    · have hg : ∀ o ∈ os, o.WellFormed ∧ o.Survives ∧ o.Exact := by
        intro o ho
        obtain ⟨hns, hal⟩ := every_array.mp h o ho
        exact (hos o ho).rewritable hns (every_iff.mp hal)
      exact ⟨.array hf har (fun o ho => (hos o ho).nested) fun o ho => (hg o ho).1,
        survives_array.mpr fun o ho => ⟨(hos o ho).fits, (hg o ho).2.1⟩,
        every_array.mpr fun o ho => ⟨trivial, (hg o ho).2.2⟩⟩
    · intro hpa
      cases har.symm.trans hpa
  · rw [readWith_value hoj har]
    refine (STValue.ensures_read f.fieldType).map fun v hv => ?_
    refine ⟨hf, hv.sType f, fun h => ?_, fun hpa => hv.paths hpa f⟩
    obtain ⟨hwf, hs, hex⟩ := hv.rewritable (every_value.mp h)
    exact ⟨.value hf hwf, survives_value.mpr hs, every_value.mpr hex⟩

theorem SerialIter.ensures_getFieldID : Ensures getFieldID fun id => 0 < id.2 := by
  intro input id rest h
  exact (eq_of_run_getFieldID h).2.1.1

theorem STObject.ensures_setStep {rv : SField → SerialIter STVar}
    (hva : ∀ f, f.IsEncodable → Ensures (rv f) STVar.IsRead)
    (hfs : Ensures fields fun vs => ∀ v ∈ vs, v.IsRead) :
    Ensures (STObject.setStep rv fields) fun vs => ∀ v ∈ vs, v.IsRead := by
  refine Ensures.unlessEmpty (ensures_getFieldID.bind fun id hid => ?_) nofun
  refine ensures_ite (fun _ => ensures_pure nofun) fun hoj => ?_
  refine ensures_ite (fun _ => ensures_throw _) fun har => ?_
  cases hf : getField id.1 id.2 with
  | none => exact ensures_throw _
  | some f =>
    obtain ⟨hen, -⟩ := isEncodable_of_getField hid hf hoj har
    refine (hva f hen).bind fun v hv => hfs.bind fun vs hvs => ensures_pure ?_
    exact forall_mem_cons.mpr ⟨hv, hvs⟩

theorem STArray.ensures_readStep (hfs : Ensures fields fun vs => ∀ v ∈ vs, v.IsRead)
    (hob : Ensures objects fun os => ∀ o ∈ os, o.IsRead) :
    Ensures (STArray.readStep fields objects) fun os => ∀ o ∈ os, o.IsRead := by
  refine Ensures.unlessEmpty (ensures_getFieldID.bind fun id hid => ?_) nofun
  refine ensures_ite (fun _ => ensures_pure nofun) fun har => ?_
  refine ensures_ite (fun _ => ensures_throw _) fun hoj => ?_
  cases hf : getField id.1 id.2 with
  | none => exact ensures_throw _
  | some f =>
    obtain ⟨hen, -⟩ := isEncodable_of_getField hid hf hoj har
    refine ensures_ite (fun _ => ensures_throw _) fun ht => ?_
    refine hfs.bind fun vs hvs => ?_
    cases ho : setTypeFromSField f vs with
    | none => exact ensures_throw _
    | some o =>
      have hr := (isRead_of_setTypeFromSField hen (not_not.mp ht) hvs ho).2
      refine hob.bind fun os hos => ensures_pure ?_
      exact forall_mem_cons.mpr ⟨hr, hos⟩

end Rounds

theorem STObject.ensures_set : Ensures STObject.set fun vs => ∀ v ∈ vs, v.IsRead := by
  have hro (rounds : ℕ) : (Ensures (setRounds rounds) fun vs => ∀ v ∈ vs, v.IsRead) ∧
        Ensures (STArray.readRounds rounds) fun os => ∀ o ∈ os, o.IsRead := by
    induction rounds with
    | zero => exact ⟨ensures_throw _, ensures_throw _⟩
    | succ rounds ih =>
      obtain ⟨hfs, hob⟩ := ih
      refine ⟨ensures_setStep (fun f hf => ?_) hfs, STArray.ensures_readStep hfs hob⟩
      exact ensures_readWith hfs hob hf
  exact ensures_unbounded fun rounds => (hro rounds).1

end Sand
