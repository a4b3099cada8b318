import Sand.Protocol.ValueRoundTrip

/-!
# Objects read back

An object is read back field by field, in the order of the codes.
-/

namespace Sand

open ByteReader Serializer STObject List STVar STArray Option InnerObjectFormats Bool

/-- Without a template, or with that of its place. -/
structure STObject.IsNested (o : STObject) : Prop where
  encodable : o.fName.IsEncodable
  type : o.fName.fieldType = .object
  template : o.mType = none ∨ ∃ type, findSOTemplateBySField o.fName = some type ∧
    o.mType = some type ∧ o.fields.map STVar.fName = type.map Prod.fst

mutual

/-- It can be written, and its type can hold it. -/
inductive STVar.WellFormed : STVar → Prop where
  | value {f : SField} {v : STValue} (hf : f.IsEncodable) (hv : v.WellFormed f.fieldType) :
      STVar.WellFormed (.value f v)
  | object {o : STObject} (hne : o.IsNested) (ho : STObject.WellFormed o) :
      STVar.WellFormed (.object o)
  | array {f : SField} {os : List STObject} (hf : f.IsEncodable) (ht : f.fieldType = .array)
      (hne : ∀ o ∈ os, STObject.IsNested o) (hos : ∀ o ∈ os, STObject.WellFormed o) :
      STVar.WellFormed (.array f os)

/-- Different names, and those there are well-formed. -/
inductive STObject.WellFormed : STObject → Prop where
  | mk {f : SField} {type : Option SOTemplate} {fields : List STVar}
      (hns : STObject.NamesDiffer fields)
      (hfs : ∀ v ∈ fields, v.getSType ≠ none → STVar.WellFormed v) :
      STObject.WellFormed (.mk f type fields)

end

section Every

variable (P : STValue → Prop) (Q : STObject → Prop)

mutual

/-- Every value has one property, every object another. -/
inductive STVar.Every : STVar → Prop where
  | value {f : SField} {v : STValue} (hv : P v) : STVar.Every (.value f v)
  | object {o : STObject} (hpc : Q o) (ho : STObject.Every o) : STVar.Every (.object o)
  | array {f : SField} {os : List STObject} (hpa : ∀ o ∈ os, Q o)
      (hos : ∀ o ∈ os, STObject.Every o) : STVar.Every (.array f os)

inductive STObject.Every : STObject → Prop where
  | mk {f : SField} {type : Option SOTemplate} {fields : List STVar}
      (hfs : ∀ v ∈ fields.filter STVar.isIncluded, STVar.Every v) :
      STObject.Every (.mk f type fields)

end

end Every

section EveryLemmas

variable {P : STValue → Prop} {Q : STObject → Prop} {f : SField} {o : STObject}

theorem STVar.every_value {v : STValue} : (STVar.value f v).Every P Q ↔ P v :=
  ⟨fun h => by cases h; assumption, .value⟩

theorem STVar.every_object : (STVar.object o).Every P Q ↔ Q o ∧ o.Every P Q :=
  ⟨fun h => by cases h; exact ⟨‹_›, ‹_›⟩, fun h => .object h.1 h.2⟩

theorem STVar.every_array {os : List STObject} :
    (STVar.array f os).Every P Q ↔ ∀ o ∈ os, Q o ∧ o.Every P Q := by
  constructor
  · rintro ⟨⟩
    next hpa hos => exact fun o ho => ⟨hpa o ho, hos o ho⟩
  · exact fun h => .array (fun o ho => (h o ho).1) fun o ho => (h o ho).2

theorem STObject.every_iff :
    o.Every P Q ↔ ∀ v ∈ o.fields.filter STVar.isIncluded, v.Every P Q := by
  obtain ⟨f, type, fields⟩ := o
  exact ⟨fun h => by cases h; assumption, .mk⟩

end EveryLemmas

/-- The object has just the fields its place asks for. -/
def STObject.FitsPlace (o : STObject) : Prop :=
  ∀ type, findSOTemplateBySField o.fName = some type →
    (setType type (o.fields.filter STVar.isIncluded)).1

/-- Every value survives, and every object fits. -/
abbrev STVar.Survives : STVar → Prop :=
  STVar.Every STValue.Survives STObject.FitsPlace

abbrev STObject.Survives : STObject → Prop :=
  STObject.Every STValue.Survives STObject.FitsPlace

/-- Every value is written as before once it is back. -/
abbrev STVar.Exact : STVar → Prop :=
  STVar.Every STValue.Exact fun _ => True

abbrev STObject.Exact : STObject → Prop :=
  STObject.Every STValue.Exact fun _ => True

variable {f : SField} {v : STVar} {o : STObject} {os : List STObject} {vs ws : List STVar}
  {bytes : Blob} {result : Option (List STVar)}

theorem STVar.survives_value {v : STValue} : (STVar.value f v).Survives ↔ v.Survives := every_value

theorem STVar.survives_object : (STVar.object o).Survives ↔ o.FitsPlace ∧ o.Survives := every_object

theorem STVar.survives_array : (STVar.array f os).Survives ↔ ∀ o ∈ os, o.FitsPlace ∧ o.Survives :=
  every_array

theorem STObject.survives_iff : o.Survives ↔ ∀ v ∈ o.fields.filter STVar.isIncluded, v.Survives :=
  every_iff

/-! ## Fields -/

structure STVar.Back (v v' : STVar) : Prop where
  name : v'.fName = v.fName
  type : v'.getSType = v.getSType
  same : v'.isEquivalent v ↔ v.Survives
  same' : v.isEquivalent v' ↔ v.Survives
  again : v.Survives → v.Exact → v'.add = v.add

/-- What becomes of a field that is written and read. -/
structure STVar.RoundTrip (v : STVar) (bytes : Blob) (result : Option STVar) : Prop where
  added : v.add = .ok bytes
  yields : Yields (STVar.read v.fName) (bytes ++ v.endMarker) result
  back : ∀ v' ∈ result, v.Back v'
  lost : result = none → ¬ v.Survives

theorem STVar.WellFormed.isEncodable (h : v.WellFormed) : v.fName.IsEncodable := by
  cases h with
  | value hf _ => exact hf
  | object hne _ => exact hne.encodable
  | array hf _ _ _ => exact hf

theorem STObject.WellFormed.names (h : o.WellFormed) : NamesDiffer o.fields := by
  cases h
  assumption

theorem STObject.WellFormed.field (h : o.WellFormed) (hv : v ∈ o.fields.filter STVar.isIncluded) :
    v.WellFormed := by
  cases h with
  | mk hns hfs =>
    obtain ⟨hm, hi⟩ := mem_filter.mp hv
    rw [STVar.isIncluded, and_eq_true, isSome_iff_ne_none] at hi
    exact hfs v hm hi.1

theorem STVar.getSType_value_of_wellFormed {type : SerializedTypeID} {v : STValue}
    (hv : v.WellFormed type) : (STVar.value f v).getSType = some type := by
  cases v <;> cases type <;> first | rfl | exact hv.elim

theorem STVar.exists_roundTrip_value {v : STValue} (hv : v.WellFormed f.fieldType) :
    ∃ bytes result, (STVar.value f v).RoundTrip bytes result := by
  have hob : f.fieldType ≠ .object := by
    intro h
    rw [h] at hv
    cases v <;> exact hv.elim
  have har : f.fieldType ≠ .array := by
    intro h
    rw [h] at hv
    cases v <;> exact hv.elim
  obtain ⟨bytes, result, htr⟩ := STValue.exists_roundTrip hv
  refine ⟨bytes, result.map (STVar.value f), htr.added, ?_, ?_, ?_⟩
  · rw [endMarker, append_nil, STVar.read, fName, readWith_value hob har]
    exact htr.yields.map _
  · rintro v' hv'
    obtain ⟨w, rfl, rfl⟩ := map_eq_some_iff.mp hv'
    have heq : w.isEquivalent v ↔ v.Survives := by
      rw [← htr.same]
      simp
    refine ⟨rfl, ?_, ?_, ?_, ?_⟩
    · rw [htr.type w rfl, getSType_value_of_wellFormed hv]
    · rw [isEquivalent_value, heq, survives_value]
    · rw [isEquivalent_value, STValue.isEquivalent_comm, heq, survives_value]
    · intro hs he
      cases htr.again (survives_value.mp hs) (every_value.mp he)
      rfl
  · intro hno
    obtain rfl := map_eq_none_iff.mp hno
    rw [survives_value, ← htr.same]
    rintro ⟨_, ⟨⟩, _⟩

theorem STObject.exists_roundTrip_fields
    (hvs : ∀ v ∈ vs, v.fName.IsEncodable ∧ ∃ bytes result, v.RoundTrip bytes result) :
    ∃ bytes result, addAll (vs.map STVar.encode) = .ok bytes ∧
      (∀ tail, (STObject.set.run (bytes ++ tail)).toOption = result.bind fun vs' =>
        (STObject.set.run tail).toOption.map fun p => (vs' ++ p.1, p.2)) ∧
      (∀ vs' ∈ result, List.Forall₂ STVar.Back vs vs') ∧
      (result = none → ∃ v ∈ vs, ¬ v.Survives) := by
  induction vs with
  | nil =>
    refine ⟨[], some [], rfl, fun tail => ?_, ?_, nofun⟩
    · rw [nil_append]
      cases (set.run tail).toOption <;> rfl
    · rintro vs' hvs'
      cases hvs'
      exact .nil
  | cons v vs ih =>
    obtain ⟨⟨hf, bytes, result, htr⟩, hot⟩ := forall_mem_cons.mp hvs
    obtain ⟨bytes', result', ha, hr, hbk, hl⟩ := ih hot
    refine ⟨v.fName.addID ++ bytes ++ v.endMarker ++ bytes',
      result.bind fun v' => result'.map (v' :: ·), ?_, fun tail => ?_, ?_, ?_⟩
    · rw [map_cons, addAll, STVar.encode, htr.added, ha]
      rfl
    · have hsp : v.fName.addID ++ bytes ++ v.endMarker ++ bytes' ++ tail =
          v.fName.addID ++ ((bytes ++ v.endMarker) ++ (bytes' ++ tail)) := by
        simp [append_assoc]
      rw [hsp, set_eq, run_setStep_field hf, toOption_run_bind, htr.yields, ← set_eq]
      cases result with
      | none => rfl
      | some v' =>
        change ((set >>= fun vs' => pure (v' :: vs')).run _).toOption = _
        rw [toOption_run_bind, hr]
        cases result' with
        | none => rfl
        | some vs' => cases (set.run tail).toOption <;> rfl
    · rintro ws hws
      obtain ⟨v', rfl, hws⟩ := bind_eq_some_iff.mp hws
      obtain ⟨vs', rfl, rfl⟩ := map_eq_some_iff.mp hws
      exact .cons (htr.back v' rfl) (hbk vs' rfl)
    · intro hno
      cases result with
      | none => exact ⟨v, mem_cons_self, htr.lost rfl⟩
      | some v' =>
        obtain ⟨w, hw, hnt⟩ := hl (map_eq_none_iff.mp hno)
        exact ⟨w, mem_cons_of_mem _ hw, hnt⟩

/-! ## Objects -/

structure STObject.Back (o o' : STObject) : Prop where
  equal : o'.equal o ↔ o.Survives
  equal' : o.equal o' ↔ o.Survives
  sorted : equivalentFields STVar.isEquivalent o'.getSortedFields o.getSortedFields ↔ o.Survives
  sorted' : equivalentFields STVar.isEquivalent o.getSortedFields o'.getSortedFields ↔ o.Survives
  aligned : o'.fields.map STVar.fName = o.fields.map STVar.fName →
    (equivalentFields STVar.isEquivalent o'.fields o.fields ↔ o.Survives)
  aligned' : o'.fields.map STVar.fName = o.fields.map STVar.fName →
    (equivalentFields STVar.isEquivalent o.fields o'.fields ↔ o.Survives)
  again : o.Survives → o.Exact → o'.add = o.add

section

variable (h : List.Forall₂ STVar.Back vs ws)
include h

theorem STVar.names_of_back : ws.map STVar.fName = vs.map STVar.fName := by
  induction h with
  | nil => rfl
  | cons hbk _ ih => rw [map_cons, map_cons, hbk.name, ih]

theorem STVar.back_of_names (hns : STObject.NamesDiffer vs)
    {w : STVar} (hv : v ∈ vs) (hw : w ∈ ws) (hn : v.fName = w.fName) : v.Back w := by
  induction h with
  | nil => cases hv
  | @cons v' w' vs ws hbk hta ih =>
    have heq := names_of_back hta
    obtain ⟨hnt, hot⟩ := nodup_cons.mp hns
    rcases mem_cons.mp hv with rfl | hv
    · rcases mem_cons.mp hw with rfl | hw
      · exact hbk
      · exact absurd (heq ▸ hn ▸ mem_map_of_mem hw) hnt
    · rcases mem_cons.mp hw with rfl | hw
      · exact absurd (hbk.name ▸ hn ▸ mem_map_of_mem hv) hnt
      · exact ih hot hv hw

theorem STVar.encode_eq_of_back (hs : ∀ v ∈ vs, v.Survives) (he : ∀ v ∈ vs, v.Exact) :
    ws.map STVar.encode = vs.map STVar.encode := by
  induction h with
  | nil => rfl
  | cons hbk _ ih =>
    obtain ⟨hsu, hs⟩ := forall_mem_cons.mp hs
    obtain ⟨hex, he⟩ := forall_mem_cons.mp he
    rw [map_cons, map_cons, ih hs he, STVar.encode, STVar.encode,
      hbk.again hsu hex, hbk.name, endMarker_eq_of_getSType hbk.type]

end

theorem STVar.eq_notPresent_of_getSType (h : v.getSType = none) :
    ∃ f, v = .value f .notPresent := by
  cases v with
  | value f v => cases v <;> first | exact ⟨f, rfl⟩ | cases h
  | object o | array f os => cases h

theorem STObject.WellFormed.isIncluded (h : o.WellFormed) (hv : v ∈ o.fields)
    (hin : v.getSType ≠ none) : v.isIncluded := by
  cases h with
  | mk hns hfs =>
    rw [STVar.isIncluded, and_eq_true, isSome_iff_ne_none]
    exact ⟨hin, (hfs v hv hin).isEncodable.isBinary⟩

variable {o' : STObject}

theorem STObject.back_of_fields (ho : o.WellFormed)
    (hvs : List.Forall₂ STVar.Back (writtenFields o.fields) vs)
    (hpe : (o'.fields.filter STVar.isIncluded).Perm vs) (hd' : NamesDiffer o'.fields)
    (hi' : ∀ w ∈ o'.fields, w.getSType ≠ none → w.isIncluded) : o.Back o' := by
  have hwr := perm_writtenFields ho.names.codes
  have hd : NamesDiffer (writtenFields o.fields) :=
    (hwr.map _).nodup_iff.mpr ((filter_sublist.map _).nodup ho.names)
  have hns : ((o'.fields.filter STVar.isIncluded).map STVar.fName).Perm
      ((o.fields.filter STVar.isIncluded).map STVar.fName) := by
    refine (hpe.map _).trans ?_
    rw [names_of_back hvs]
    exact hwr.map _
  have hbk : ∀ v ∈ o.fields.filter STVar.isIncluded, ∀ w ∈ o'.fields.filter STVar.isIncluded,
      v.fName = w.fName → v.Back w := fun v hv w hw hn =>
    back_of_names hvs hd (hwr.mem_iff.mpr hv) (hpe.mem_iff.mp hw) hn
  -- a comparison of the fields of one name asks whether the fields of the object survive
  have hal {P : STVar → STVar → Prop} (hP : ∀ v w, v.Back w → (P v w ↔ v.Survives)) :
      (∀ v ∈ o.fields.filter STVar.isIncluded, ∀ w ∈ o'.fields.filter STVar.isIncluded,
        v.fName = w.fName → P v w) ↔ o.Survives := by
    rw [survives_iff]
    refine forall₂_congr fun v hv => ⟨fun h => ?_, fun h w hw hn => ?_⟩
    · obtain ⟨w, hw, hn⟩ := mem_map.mp (hns.mem_iff.mpr (mem_map_of_mem hv))
      exact (hP v w (hbk v hv w hw hn.symm)).mp (h w hw hn.symm)
    · exact (hP v w (hbk v hv w hw hn)).mpr h
  -- fields that are not there are not there in either object
  have hab {P : STVar → STVar → Prop}
      (hP : ∀ f g, P (.value f .notPresent) (.value g .notPresent)) :
      (∀ v ∈ o.fields, ∀ w ∈ o'.fields, v.fName = w.fName → P v w) ↔
        ∀ v ∈ o.fields.filter STVar.isIncluded, ∀ w ∈ o'.fields.filter STVar.isIncluded,
          v.fName = w.fName → P v w := by
    refine ⟨fun h v hv w hw => h v (mem_of_mem_filter hv) w (mem_of_mem_filter hw),
      fun h v hv w hw hn => ?_⟩
    by_cases hin : v.getSType = none
    · by_cases hin' : w.getSType = none
      · obtain ⟨f, rfl⟩ := eq_notPresent_of_getSType hin
        obtain ⟨g, rfl⟩ := eq_notPresent_of_getSType hin'
        exact hP f g
      have hw' := mem_filter.mpr ⟨hw, hi' w hw hin'⟩
      obtain ⟨x, hx, hxw⟩ := mem_map.mp (hns.mem_iff.mp (mem_map_of_mem hw'))
      obtain rfl := ho.names.eq (mem_of_mem_filter hx) hv (hxw.trans hn.symm)
      have hso := (mem_filter.mp hx).2
      rw [STVar.isIncluded, hin] at hso
      cases hso
    · have hv' := mem_filter.mpr ⟨hv, ho.isIncluded hv hin⟩
      obtain ⟨y, hy, hyv⟩ := mem_map.mp (hns.mem_iff.mpr (mem_map_of_mem hv'))
      obtain rfl := hd'.eq (mem_of_mem_filter hy) hw (hyv.trans hn)
      exact h v hv' y hy hn
  refine ⟨?_, ?_, ?_, ?_, fun hai => ?_, fun hai => ?_, fun hs he => ?_⟩
  · rw [← hal fun v w hvw => hvw.same', equal, equalBy_iff ho.names hns]
    exact ⟨fun h v hv w hw hn => h w hw v hv hn.symm, fun h w hw v hv hn => h v hv w hw hn.symm⟩
  · rw [← hal fun v w hvw => hvw.same, equal, equalBy_iff hd' hns.symm]
  · rw [← hal fun v w hvw => hvw.same, equivalentFields_sorted_iff hd' hns]
    exact ⟨fun h v hv w hw hn => (h w hw v hv hn.symm).2,
      fun h w hw v hv hn => ⟨(hbk v hv w hw hn.symm).type, h v hv w hw hn.symm⟩⟩
  · rw [← hal fun v w hvw => hvw.same', equivalentFields_sorted_iff ho.names hns.symm]
    exact ⟨fun h v hv w hw hn => (h v hv w hw hn).2,
      fun h v hv w hw hn => ⟨(hbk v hv w hw hn).type.symm, h v hv w hw hn⟩⟩
  · have hP : ∀ v w : STVar, v.Back w →
        ((w.getSType = v.getSType ∧ w.isEquivalent v) ↔ v.Survives) := fun v w hvw => by
      rw [hvw.same]
      exact ⟨fun h => h.2, fun h => ⟨hvw.type, h⟩⟩
    rw [← hal hP, ← hab fun f g => ⟨rfl, rfl⟩, equivalentFields,
      isEqv_iff_of_keys STVar.fName hai hd']
    simp only [and_eq_true, beq_iff_eq]
    exact ⟨fun h v hv w hw hn => h w hw v hv hn.symm, fun h w hw v hv hn => h v hv w hw hn.symm⟩
  · have hP : ∀ v w : STVar, v.Back w →
        ((v.getSType = w.getSType ∧ v.isEquivalent w) ↔ v.Survives) := fun v w hvw => by
      rw [hvw.same']
      exact ⟨fun h => h.2, fun h => ⟨hvw.type.symm, h⟩⟩
    rw [← hal hP, ← hab fun f g => ⟨rfl, rfl⟩, equivalentFields,
      isEqv_iff_of_keys STVar.fName hai.symm ho.names]
    simp [and_eq_true, beq_iff_eq]
  · have hsr : vs.Pairwise fun a b => a.fName.fieldCode < b.fName.fieldCode := by
      have hns : ((writtenFields o.fields).map STVar.fName).Pairwise
          fun f g => f.fieldCode < g.fieldCode :=
        pairwise_map.mpr (sorted_writtenFields o.fields)
      rwa [← names_of_back hvs, pairwise_map] at hns
    rw [add_eq, add_eq, writtenFields_eq_of_sorted hpe hsr]
    refine congrArg addAll (encode_eq_of_back hvs ?_ ?_)
    · exact fun v hv => survives_iff.mp hs v (hwr.mem_iff.mp hv)
    · exact fun v hv => every_iff.mp he v (hwr.mem_iff.mp hv)

structure STObject.RoundTrip (o : STObject) (bytes : Blob) (result : Option (List STVar)) :
    Prop where
  added : o.add = .ok bytes
  run : ∀ tail, (STObject.set.run (bytes ++ tail)).toOption = result.bind fun vs =>
    (STObject.set.run tail).toOption.map fun p => (vs ++ p.1, p.2)
  back : ∀ vs ∈ result, List.Forall₂ STVar.Back (writtenFields o.fields) vs
  lost : result = none → ¬ o.Survives

theorem STObject.RoundTrip.yields (h : o.RoundTrip bytes result) : Yields STObject.set
    (bytes ++ endOfObject) result := by
  intro rest
  have hen : set.run (endOfObject ++ rest) = .ok ([], rest) := by
    exact run_setStep_end rest
  rw [append_assoc, h.run, hen]
  cases result with
  | none => rfl
  | some vs => exact congrArg (fun l => some (l, rest)) (append_nil vs)

theorem STObject.exists_roundTrip_of_fields (ho : o.WellFormed)
    (hfs : ∀ v ∈ o.fields, v.WellFormed → ∃ bytes result, v.RoundTrip bytes result) :
    ∃ bytes result, o.RoundTrip bytes result := by
  have hwr := perm_writtenFields ho.names.codes
  have hm {v : STVar} (hv : v ∈ writtenFields o.fields) :
      v ∈ o.fields.filter STVar.isIncluded := hwr.mem_iff.mp hv
  obtain ⟨bytes, result, ha, hr, hbk, hl⟩ := exists_roundTrip_fields fun v hv =>
    have hv' := ho.field (hm hv)
    ⟨hv'.isEncodable, hfs v (mem_of_mem_filter (hm hv)) hv'⟩
  refine ⟨bytes, result, (add_eq o).trans ha, hr, hbk, fun hno hs => ?_⟩
  obtain ⟨v, hv, hnt⟩ := hl hno
  exact hnt (survives_iff.mp hs v (hm hv))

theorem STVar.isIncluded_of_back (h : List.Forall₂ STVar.Back vs ws)
    (hvs : ∀ v ∈ vs, v.isIncluded) : ∀ w ∈ ws, w.isIncluded := by
  induction h with
  | nil => nofun
  | cons hbk _ ih =>
    obtain ⟨hh, hta⟩ := forall_mem_cons.mp hvs
    refine forall_mem_cons.mpr ⟨?_, ih hta⟩
    rwa [STVar.isIncluded, hbk.name, hbk.type]

theorem STObject.back_of_setType (ho : o.WellFormed)
    (hvs : List.Forall₂ STVar.Back (writtenFields o.fields) vs) (f : SField) {type : SOTemplate}
    (ht : (type.map Prod.fst).Nodup) (hvl : (setType type vs).1) :
    o.Back (.mk f (some type) (setType type vs).2) := by
  have hi := isIncluded_of_back hvs fun v hv =>
    (mem_filter.mp ((perm_writtenFields ho.names.codes).mem_iff.mp hv)).2
  refine back_of_fields ho hvs (perm_setType hi hvl) ?_ fun w hw hin => ?_
  · change ((setType type vs).2.map STVar.fName).Nodup
    rwa [names_setType]
  · exact hi w ((mem_setType hw).resolve_right hin)

theorem STObject.back_of_untyped (ho : o.WellFormed)
    (hvs : List.Forall₂ STVar.Back (writtenFields o.fields) vs) (f : SField) :
    o.Back (.mk f none vs) := by
  have hi := isIncluded_of_back hvs fun v hv =>
    (mem_filter.mp ((perm_writtenFields ho.names.codes).mem_iff.mp hv)).2
  refine back_of_fields ho hvs ?_ ?_ fun w hw _ => hi w hw
  · exact .of_eq (filter_eq_self.mpr hi)
  change (vs.map STVar.fName).Nodup
  rw [names_of_back hvs]
  exact ((perm_writtenFields ho.names.codes).map _).nodup_iff.mpr
    ((filter_sublist.map _).nodup ho.names)

/-- What the nested object has come back as. -/
structure STObject.Placed (o o' : STObject) : Prop where
  name : o'.fName = o.fName
  back : o.Back o'
  fits : o.FitsPlace
  aligned : ∀ type, findSOTemplateBySField o.fName = some type →
    o'.mType = some type ∧ o'.fields.map STVar.fName = type.map Prod.fst

theorem STObject.RoundTrip.place (h : o.RoundTrip bytes result) (ho : o.WellFormed) :
    (∀ o' ∈ result.bind (setTypeFromSField o.fName), o.Placed o') ∧
      (result.bind (setTypeFromSField o.fName) = none → ¬ (o.FitsPlace ∧ o.Survives)) := by
  cases result with
  | none => exact ⟨nofun, fun _ hb => h.lost rfl hb.2⟩
  | some vs =>
    have hvs := h.back vs rfl
    have hns : (vs.map STVar.fName).Perm ((o.fields.filter STVar.isIncluded).map STVar.fName) := by
      rw [names_of_back hvs]
      exact (perm_writtenFields ho.names.codes).map _
    change (∀ o' ∈ setTypeFromSField o.fName vs, _) ∧ (setTypeFromSField o.fName vs = none → _)
    unfold setTypeFromSField
    cases htp : findSOTemplateBySField o.fName with
    | none =>
      refine ⟨fun o' ho' => ?_, nofun⟩
      cases ho'
      refine ⟨rfl, back_of_untyped ho hvs _, fun type ht => ?_, fun type ht => ?_⟩
      · rw [htp] at ht
        cases ht
      · rw [htp] at ht
        cases ht
    | some type =>
      obtain ⟨hnd, hrq⟩ := elements htp
      have hde (us : List STVar) : LeavesOutDefaults type us := fun f hf => nomatch hrq _ hf
      have hvl := setType_valid_of_perm (hde vs) (hde _) hns
      have hfi : o.FitsPlace ↔ (setType type vs).1 := by
        rw [hvl]
        refine ⟨fun hfi => hfi type htp, fun hfi type' ht' => ?_⟩
        rw [htp] at ht'
        cases ht'
        exact hfi
      have hbk := back_of_setType ho hvs o.fName hnd
      have hns' := names_setType type vs
      dsimp only
      rcases hse : setType type vs with ⟨valid, taken⟩
      rw [hse] at hfi hbk hns'
      cases valid with
      | false => exact ⟨nofun, fun _ hb => Bool.false_ne_true (hfi.mp hb.1)⟩
      | true =>
        refine ⟨fun o' ho' => ?_, nofun⟩
        cases ho'
        refine ⟨rfl, hbk rfl, hfi.mpr rfl, fun type' ht' => ?_⟩
        rw [htp] at ht'
        cases ht'
        exact ⟨rfl, hns'⟩

theorem STObject.IsNested.isEquivalent_iff (hne : o.IsNested) (hpl : o.Placed o') :
    (o'.isEquivalent o ↔ o.Survives) ∧ (o.isEquivalent o' ↔ o.Survives) := by
  unfold isEquivalent isEquivalentBy
  rcases hne.template with hno | ⟨type, htp, ht, hns⟩
  · have hle : ¬ ((o'.mType.isSome && o.mType == o'.mType)) := by
      rw [hno]
      cases o'.mType <;> simp
    have hri : ¬ ((o.mType.isSome && o'.mType == o.mType)) := by
      rw [hno]
      simp
    rw [if_neg hle, if_neg hri]
    exact ⟨hpl.back.sorted, hpl.back.sorted'⟩
  · obtain ⟨ht', hns'⟩ := hpl.aligned type htp
    rw [ht, ht', if_pos (by simp), if_pos (by simp)]
    have heq := hns'.trans hns.symm
    exact ⟨hpl.back.aligned heq, hpl.back.aligned' heq⟩

theorem STVar.exists_roundTrip_object (hne : o.IsNested) (ho : o.WellFormed)
    (htr : ∃ bytes result, o.RoundTrip bytes result) :
    ∃ bytes result, (STVar.object o).RoundTrip bytes result := by
  obtain ⟨bytes, result, htr⟩ := htr
  obtain ⟨hpl, hl⟩ := htr.place ho
  refine ⟨bytes, (result.bind (setTypeFromSField o.fName)).map .object, htr.added, ?_, ?_, ?_⟩
  · rw [fName, STVar.read, readWith_object hne.type, map_bind, ← append_nil (bytes ++ _)]
    refine htr.yields.bind fun vs _ => ?_
    change Yields _ [] ((setTypeFromSField o.fName vs).map STVar.object)
    cases setTypeFromSField o.fName vs with
    | none => exact yields_throw _ _
    | some o' => exact reads_pure _
  · rintro v' hv'
    obtain ⟨o', ho', rfl⟩ := map_eq_some_iff.mp hv'
    have hpl := hpl o' ho'
    obtain ⟨heq, heq'⟩ := hne.isEquivalent_iff hpl
    refine ⟨hpl.name, rfl, ?_, ?_, fun hs he => ?_⟩
    · rw [isEquivalent_object, heq, survives_object]
      exact ⟨fun h => ⟨hpl.fits, h⟩, fun h => h.2⟩
    · rw [isEquivalent_object, heq', survives_object]
      exact ⟨fun h => ⟨hpl.fits, h⟩, fun h => h.2⟩
    · exact hpl.back.again (survives_object.mp hs).2 (every_object.mp he).2
  · intro hno
    rw [survives_object]
    exact hl (map_eq_none_iff.mp hno)

theorem STArray.exists_roundTrip_objects
    (hos : ∀ o ∈ os, o.IsNested ∧ o.WellFormed ∧ ∃ bytes result, o.RoundTrip bytes result) :
    ∃ bytes result, STArray.add os = .ok bytes ∧
      (∀ tail, (STArray.read.run (bytes ++ tail)).toOption = result.bind fun os' =>
        (STArray.read.run tail).toOption.map fun p => (os' ++ p.1, p.2)) ∧
      (∀ os' ∈ result, List.Forall₂ STObject.Placed os os') ∧
      (result = none → ∃ o ∈ os, ¬ (STObject.FitsPlace o ∧ o.Survives)) := by
  induction os with
  | nil =>
    refine ⟨[], some [], rfl, fun tail => ?_, ?_, nofun⟩
    · rw [nil_append]
      cases (STArray.read.run tail).toOption <;> rfl
    · rintro os' hos'
      cases hos'
      exact .nil
  | cons o os ih =>
    obtain ⟨⟨hne, ho, bytes, result, htr⟩, hot⟩ := forall_mem_cons.mp hos
    obtain ⟨bytes', result', ha, hr, hbk, hl⟩ := ih hot
    obtain ⟨hpl, hu⟩ := htr.place ho
    refine ⟨o.fName.addID ++ bytes ++ endOfObject ++ bytes',
      (result.bind (setTypeFromSField o.fName)).bind fun o' => result'.map (o' :: ·),
      ?_, fun tail => ?_, ?_, ?_⟩
    · rw [STArray.add, htr.added, ha]
      rfl
    · have hsp : o.fName.addID ++ bytes ++ endOfObject ++ bytes' ++ tail =
          o.fName.addID ++ ((bytes ++ endOfObject) ++ (bytes' ++ tail)) := by
        simp [append_assoc]
      rw [hsp, read_eq, run_readStep_object hne.encodable hne.type,
        toOption_run_bind, htr.yields, ← read_eq]
      cases result with
      | none => rfl
      | some vs =>
        simp only [Option.map_some, Option.bind_some]
        cases setTypeFromSField o.fName vs with
        | none => rfl
        | some o' =>
          rw [toOption_run_bind, hr]
          cases result' with
          | none => rfl
          | some os' => cases (STArray.read.run tail).toOption <;> rfl
    · rintro ws hws
      obtain ⟨o', ho', hws⟩ := bind_eq_some_iff.mp hws
      obtain ⟨os', rfl, rfl⟩ := map_eq_some_iff.mp hws
      exact .cons (hpl o' ho') (hbk os' rfl)
    · intro hno
      cases hre : result.bind (setTypeFromSField o.fName) with
      | none => exact ⟨o, mem_cons_self, hu hre⟩
      | some o' =>
        rw [hre] at hno
        obtain ⟨p, hp, hnt⟩ := hl (map_eq_none_iff.mp hno)
        exact ⟨p, mem_cons_of_mem _ hp, hnt⟩

variable {os' : List STObject}

theorem STArray.isEqv_iff_of_placed (h : List.Forall₂ STObject.Placed os os') :
    (os'.isEqv os STObject.equal ↔ ∀ o ∈ os, o.FitsPlace ∧ o.Survives) ∧
      (os.isEqv os' STObject.equal ↔ ∀ o ∈ os, o.FitsPlace ∧ o.Survives) := by
  induction h with
  | nil => simp
  | cons hpl _ ih =>
    rw [List.isEqv, List.isEqv, and_eq_true, and_eq_true, ih.1, ih.2,
      hpl.back.equal, hpl.back.equal', forall_mem_cons]
    simp [hpl.fits]

theorem STArray.add_eq_of_placed (h : List.Forall₂ STObject.Placed os os')
    (hs : ∀ o ∈ os, STObject.Survives o) (he : ∀ o ∈ os, STObject.Exact o) :
    STArray.add os' = STArray.add os := by
  induction h with
  | nil => rfl
  | cons hpl _ ih =>
    obtain ⟨hsu, hs⟩ := forall_mem_cons.mp hs
    obtain ⟨hex, he⟩ := forall_mem_cons.mp he
    rw [STArray.add, STArray.add, hpl.name, hpl.back.again hsu hex, ih hs he]

theorem STVar.exists_roundTrip_array (ht : f.fieldType = .array)
    (hos : ∀ o ∈ os, o.IsNested ∧ o.WellFormed ∧ ∃ bytes result, o.RoundTrip bytes result) :
    ∃ bytes result, (STVar.array f os).RoundTrip bytes result := by
  obtain ⟨bytes, result, ha, hr, hbk, hl⟩ := exists_roundTrip_objects hos
  refine ⟨bytes, result.map (.array f), ha, ?_, ?_, ?_⟩
  · rw [fName, STVar.read, readWith_array ht]
    refine Yields.map _ fun rest => ?_
    have hen : STArray.read.run (endOfArray ++ rest) = .ok ([], rest) := by
      exact run_readStep_end rest
    rw [endMarker, append_assoc, hr, hen]
    cases result with
    | none => rfl
    | some os' => exact congrArg (fun l => some (l, rest)) (append_nil os')
  · rintro v' hv'
    obtain ⟨os', rfl, rfl⟩ := map_eq_some_iff.mp hv'
    obtain ⟨heq, heq'⟩ := isEqv_iff_of_placed (hbk os' rfl)
    refine ⟨rfl, rfl, ?_, ?_, fun hs he => ?_⟩
    · rw [isEquivalent_array, heq, survives_array]
    · rw [isEquivalent_array, heq', survives_array]
    · exact add_eq_of_placed (hbk os' rfl) (fun o ho => (survives_array.mp hs o ho).2)
        fun o ho => (every_array.mp he o ho).2
  · intro hno
    obtain ⟨o, ho, hnt⟩ := hl (map_eq_none_iff.mp hno)
    rw [survives_array]
    exact fun hal => hnt (hal o ho)

theorem STObject.exists_roundTrip (ho : o.WellFormed) :
    ∃ bytes result, o.RoundTrip bytes result := by
  have hal : (∀ v : STVar, v.WellFormed → ∃ bytes result, v.RoundTrip bytes result) ∧
      ∀ o : STObject, o.WellFormed → ∃ bytes result, o.RoundTrip bytes result := by
    refine STVar.induct ?_ ?_ ?_ ?_
    · intro f v hv
      cases hv with
      | value hf hv => exact exists_roundTrip_value hv
    · intro o ih hv
      cases hv with
      | object hne ho => exact exists_roundTrip_object hne ho (ih ho)
    · intro f os ih hv
      cases hv with
      | array hf ht hne hos =>
        exact exists_roundTrip_array ht fun o ho => ⟨hne o ho, hos o ho, ih o ho (hos o ho)⟩
    · intro f type fields ih ho
      exact exists_roundTrip_of_fields ho ih
  exact hal.2 o ho

theorem STObject.RoundTrip.toOption_run (h : o.RoundTrip bytes result) :
    (STObject.set.run bytes).toOption = result.map (·, []) := by
  have hen : set.run [] = .ok ([], []) := by
    rfl
  have hr := h.run []
  rw [append_nil, hen] at hr
  rw [hr]
  cases result with
  | none => rfl
  | some vs => exact congrArg (fun l => some (l, [])) (append_nil vs)

theorem STObject.RoundTrip.exists_fields (h : o.RoundTrip bytes result) (hs : o.Survives) :
    ∃ vs, STObject.set.run bytes = .ok (vs, []) ∧
      List.Forall₂ STVar.Back (writtenFields o.fields) vs := by
  have hr := h.toOption_run
  cases result with
  | none => exact absurd hs (h.lost rfl)
  | some vs =>
    refine ⟨vs, ?_, h.back vs rfl⟩
    cases hse : set.run bytes with
    | error e =>
      rw [hse] at hr
      cases hr
    | ok r =>
      rw [hse] at hr
      cases hr
      rfl

/-- Its bytes parse to an equal object, all consumed. -/
def STObject.ReadBack (o : STObject) : Prop :=
  ∃ bytes fields, o.add = .ok bytes ∧ STObject.set.run bytes = .ok (fields, []) ∧
    (STObject.mk o.fName none fields).equal o

instance (o : STObject) : Decidable o.ReadBack :=
  match ha : o.add with
  | .error _ => isFalse (by rintro ⟨bytes, fields, h, -⟩; cases ha.symm.trans h)
  | .ok bytes =>
    match hse : STObject.set.run bytes with
    | .error _ => isFalse (by
        rintro ⟨bytes', fields, h, h', -⟩
        cases ha.symm.trans h
        cases hse.symm.trans h')
    | .ok (fields, rest) =>
      decidable_of_iff (rest = [] ∧ (STObject.mk o.fName none fields).equal o) (by
        constructor
        · rintro ⟨rfl, heu⟩
          exact ⟨bytes, fields, ha, hse, heu⟩
        · rintro ⟨bytes', fields', h, h', heu⟩
          cases ha.symm.trans h
          cases hse.symm.trans h'
          exact ⟨rfl, heu⟩)

/-- An object comes back just if every value in it survives and every nested object fits
its place. -/
theorem STObject.readBack_iff_survives (ho : o.WellFormed) : o.ReadBack ↔ o.Survives := by
  obtain ⟨bytes, result, htr⟩ := exists_roundTrip ho
  constructor
  · rintro ⟨bytes', fields, ha, hse, heu⟩
    obtain rfl : bytes = bytes' := Except.ok.inj (htr.added.symm.trans ha)
    have hr := htr.toOption_run
    rw [hse] at hr
    obtain ⟨vs, rfl, hvs⟩ := map_eq_some_iff.mp hr.symm
    cases hvs
    exact (back_of_untyped ho (htr.back _ rfl) _).equal.mp heu
  · intro hs
    obtain ⟨vs, hse, hvs⟩ := htr.exists_fields hs
    exact ⟨bytes, vs, htr.added, hse, (back_of_untyped ho hvs _).equal.mpr hs⟩

/-- Behind an amount and before a list of signers. -/
def STObject.sample : STObject :=
  .mk sfTransaction none [.value sfFee (.amount (.ofDrops 10)), .value sfSequence (.uint32 7),
      .array sfSignerEntries [.mk sfSignerEntry none
        [.value sfAccount (.account [1, 2, 3]), .value sfSignerWeight (.uint16 1)]]]

theorem STObject.sample_readBack : sample.WellFormed ∧ sample.ReadBack := by
  have hfe : (STAmount.ofDrops 10).IsCanonical := ⟨fun _ => ⟨rfl, rfl, by decide, nofun⟩, nofun⟩
  have hac : (STValue.account [1, 2, 3]).WellFormed .account := by
    change ([1, 2, 3] : Blob).length ≤ 918744
    decide
  have het : (STObject.mk sfSignerEntry none
      [.value sfAccount (.account [1, 2, 3]), .value sfSignerWeight (.uint16 1)]).WellFormed := by
    refine .mk (by unfold NamesDiffer; decide) ?_
    simp only [forall_mem_cons]
    exact ⟨fun _ => .value ⟨nofun, by decide, by decide, by decide⟩ hac, fun _ =>
      .value ⟨nofun, by decide, by decide, by decide⟩ trivial, nofun⟩
  have hwf : sample.WellFormed := by
    refine .mk (by unfold NamesDiffer; decide) ?_
    simp only [forall_mem_cons]
    refine ⟨fun _ => .value ⟨nofun, by decide, by decide, by decide⟩ hfe, fun _ =>
      .value ⟨nofun, by decide, by decide, by decide⟩ trivial, fun _ => ?_, nofun⟩
    refine .array ⟨nofun, by decide, by decide, by decide⟩ rfl ?_ ?_
    · simp only [forall_mem_cons]
      exact ⟨⟨⟨nofun, by decide, by decide, by decide⟩, rfl, .inl rfl⟩, nofun⟩
    · simp only [forall_mem_cons]
      exact ⟨het, nofun⟩
  have hfs {P : STVar → Prop} {fields : List STVar} (h : ∀ v ∈ fields, P v) :
      ∀ v ∈ fields.filter STVar.isIncluded, P v := fun v hv => h v (mem_of_mem_filter hv)
  refine ⟨hwf, (readBack_iff_survives hwf).mpr (.mk (hfs ?_))⟩
  simp only [forall_mem_cons]
  refine ⟨.value fun _ => by decide, .value trivial, .array ?_ ?_, nofun⟩
  · simp only [forall_mem_cons]
    refine ⟨fun type ht => ?_, nofun⟩
    cases ht
    rfl
  · simp only [forall_mem_cons]
    refine ⟨.mk (hfs ?_), nofun⟩
    simp only [forall_mem_cons]
    exact ⟨.value trivial, .value trivial, nofun⟩

/-- A native 2^62 comes back as nothing, an empty set of paths not at all. -/
theorem STObject.not_readBack :
    ∃ o o' : STObject, o.WellFormed ∧ ¬ o.ReadBack ∧ o'.WellFormed ∧ ¬ o'.ReadBack := by
  have hdr : (STAmount.ofDrops 4611686018427387904).IsCanonical :=
    ⟨fun _ => ⟨rfl, rfl, by decide, fun _ => rfl⟩, nofun⟩
  refine ⟨.mk sfTransaction none [.value sfAmount (.amount (.ofDrops 4611686018427387904))],
    .mk sfTransaction none [.value sfPaths (.pathSet [])], ?_, by decide +kernel, ?_,
    by decide +kernel⟩
  · refine .mk (by unfold NamesDiffer; decide) ?_
    simp only [forall_mem_cons]
    exact ⟨fun _ => .value ⟨nofun, by decide, by decide, by decide⟩ hdr, nofun⟩
  · refine .mk (by unfold NamesDiffer; decide) ?_
    simp only [forall_mem_cons]
    exact ⟨fun _ => .value ⟨nofun, by decide, by decide, by decide⟩ nofun, nofun⟩

end Sand
