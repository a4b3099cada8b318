import Sand.Protocol.STObject

/-!
# Comparison of objects

The two comparisons of objects come down to comparing the fields of one name.
-/

namespace Sand

open List STObject SField Bool InnerObjectFormats

variable {α : Type} {r : α → α → Bool}

/-! ## Lists compared in turn -/

theorem isEqv_map_iff (g : α → α) (r : α → α → Bool) (l : List α) :
    (l.map g).isEqv l r ↔ ∀ x ∈ l, r (g x) x := by
  induction l with
  | nil => simp
  | cons x l ih => rw [map_cons, isEqv, and_eq_true, ih, forall_mem_cons]

theorem isEqv_comm (hr : ∀ x y, r x y = r y x) (l l' : List α) : l.isEqv l' r = l'.isEqv l r := by
  induction l generalizing l' with
  | nil => cases l' <;> rfl
  | cons x l ih =>
    cases l' with
    | nil => rfl
    | cons y l' => rw [isEqv, isEqv, hr, ih]

variable {l l' : List α}

theorem isEqv_congr {r' : α → α → Bool} (h : ∀ x ∈ l, ∀ y ∈ l', r x y = r' x y) :
    l.isEqv l' r = l.isEqv l' r' := by
  induction l generalizing l' with
  | nil => cases l' <;> rfl
  | cons x l ih =>
    cases l' with
    | nil => rfl
    | cons y l' =>
      have ht : ∀ a ∈ l, ∀ b ∈ l', r a b = r' a b := fun a ha b hb =>
        h a (mem_cons_of_mem _ ha) b (mem_cons_of_mem _ hb)
      rw [isEqv, isEqv, h x mem_cons_self y mem_cons_self, ih ht]

theorem isEqv_iff_of_keys {κ : Type} (key : α → κ)
    (hk : l.map key = l'.map key) (hnd : (l.map key).Nodup) :
    l.isEqv l' r ↔ ∀ x ∈ l, ∀ y ∈ l', key x = key y → r x y := by
  induction l generalizing l' with
  | nil =>
    obtain rfl : l' = [] := map_eq_nil_iff.mp hk.symm
    simp
  | cons x l ih =>
    cases l' with
    | nil => cases hk
    | cons y l' =>
      obtain ⟨hh, ht⟩ := cons_eq_cons.mp hk
      obtain ⟨hnt, hnd⟩ := nodup_cons.mp hnd
      have hx : ∀ b ∈ l', key x ≠ key b := fun b hb heq => hnt (ht ▸ heq ▸ mem_map_of_mem hb)
      have hy : ∀ a ∈ l, key a ≠ key y := fun a ha heq => hnt (hh ▸ heq ▸ mem_map_of_mem ha)
      rw [isEqv, and_eq_true, ih ht hnd]
      constructor
      · rintro ⟨hxy, hrs⟩ a ha b hb hke
        rcases mem_cons.mp ha with rfl | ha
        · rcases mem_cons.mp hb with rfl | hb
          · exact hxy
          · exact absurd hke (hx b hb)
        · rcases mem_cons.mp hb with rfl | hb
          · exact absurd hke (hy a ha)
          · exact hrs a ha b hb hke
      · intro hal
        refine ⟨hal x mem_cons_self y mem_cons_self hh, ?_⟩
        exact fun a ha b hb => hal a (mem_cons_of_mem _ ha) b (mem_cons_of_mem _ hb)

/-! ## The depth of the comparison -/

theorem STVar.depth_le_maxDepth {v : STVar} {vs : List STVar} (h : v ∈ vs) :
    v.depth ≤ STVar.maxDepth vs := by
  induction vs with
  | nil => cases h
  | cons w vs ih =>
    rcases mem_cons.mp h with rfl | h
    · exact Nat.le_max_left _ _
    · exact (ih h).trans (Nat.le_max_right _ _)

theorem STObject.depth_le_maxDepth {o : STObject} {os : List STObject} (h : o ∈ os) :
    o.depth ≤ maxDepth os := by
  induction os with
  | nil => cases h
  | cons p os ih =>
    rcases mem_cons.mp h with rfl | h
    · exact Nat.le_max_left _ _
    · exact (ih h).trans (Nat.le_max_right _ _)

namespace STObject

variable {equiv equiv' : STVar → STVar → Bool} {a b : STObject}

theorem depth_le {v : STVar} (h : v ∈ a.fields) : v.depth ≤ a.depth := by
  obtain ⟨f, type, fields⟩ := a
  exact STVar.depth_le_maxDepth h

theorem perm_getSortedFields (a : STObject) :
    a.getSortedFields.Perm (a.fields.filter STVar.isIncluded) :=
  perm_insertionSort _ _

theorem mem_of_mem_getSortedFields {v : STVar} (h : v ∈ a.getSortedFields) : v ∈ a.fields :=
  mem_of_mem_filter ((perm_getSortedFields a).mem_iff.mp h)

theorem isEquivalentBy_congr (h : ∀ x ∈ a.fields, ∀ y ∈ b.fields, equiv x y = equiv' x y) :
    a.isEquivalentBy equiv b = a.isEquivalentBy equiv' b := by
  have hfs {l l' : List STVar} (hl : ∀ x ∈ l, x ∈ a.fields) (hl' : ∀ y ∈ l', y ∈ b.fields) :
      equivalentFields equiv l l' = equivalentFields equiv' l l' :=
    isEqv_congr fun x hx y hy => by rw [h x (hl x hx) y (hl' y hy)]
  unfold isEquivalentBy
  rw [hfs (fun _ hx => hx) fun _ hy => hy,
    hfs (fun _ => mem_of_mem_getSortedFields) fun _ => mem_of_mem_getSortedFields]

theorem equalBy_congr (h : ∀ x ∈ a.fields, ∀ y ∈ b.fields, equiv y x = equiv' y x) :
    a.equalBy equiv b = a.equalBy equiv' b := by
  unfold equalBy
  congr 1
  rw [Bool.eq_iff_iff, all_eq_true, all_eq_true]
  refine forall₂_congr fun t1 ht1 => ?_
  cases hf : b.fields.find? fun t2 => t1.fName == t2.fName with
  | none => rfl
  | some t2 =>
    dsimp only
    rw [h t1 (mem_of_mem_filter ht1) t2 (mem_of_find?_eq_some hf)]

end STObject

theorem STVar.isEquivalentAt_eq {n m : ℕ} {x y : STVar} (hn : min x.depth y.depth ≤ n)
    (hm : min x.depth y.depth ≤ m) : isEquivalentAt n x y = isEquivalentAt m x y := by
  induction n generalizing m x y with
  | zero =>
    cases x <;> cases y
    all_goals first | (rw [depth, depth] at hn; omega) | simp [isEquivalentAt]
  | succ n ih =>
    cases x <;> cases y
    case object.object a b =>
      rw [depth, depth] at hn hm
      obtain ⟨m, rfl⟩ := (@Nat.exists_eq_add_one m).mpr (by omega)
      refine isEquivalentBy_congr fun x hx y hy => ?_
      have hdx := STObject.depth_le hx
      have hdy := STObject.depth_le hy
      exact ih (by omega) (by omega)
    case array.array f os f' os' =>
      rw [depth, depth] at hn hm
      obtain ⟨m, rfl⟩ := (@Nat.exists_eq_add_one m).mpr (by omega)
      refine isEqv_congr fun a ha b hb => STObject.equalBy_congr fun x hx y hy => ?_
      have hdx := (STObject.depth_le hx).trans (STObject.depth_le_maxDepth ha)
      have hdy := (STObject.depth_le hy).trans (STObject.depth_le_maxDepth hb)
      exact ih (by omega) (by omega)
    all_goals simp [isEquivalentAt]

namespace STVar

theorem isEquivalent_eq_at {n : ℕ} {x y : STVar} (h : min x.depth y.depth ≤ n) :
    x.isEquivalent y = isEquivalentAt n x y :=
  isEquivalentAt_eq (Nat.min_le_left _ _) h

theorem isEquivalent_object (a b : STObject) :
    (object a).isEquivalent (object b) = a.isEquivalent b := by
  refine isEquivalentBy_congr fun x hx y _ => ?_
  have hdx := STObject.depth_le hx
  exact (isEquivalent_eq_at (by omega)).symm

theorem isEquivalent_array (f f' : SField) (as bs : List STObject) :
    (array f as).isEquivalent (array f' bs) = as.isEqv bs equal := by
  refine isEqv_congr fun a ha b _ => STObject.equalBy_congr fun x hx y _ => ?_
  have hdx := (STObject.depth_le hx).trans (STObject.depth_le_maxDepth ha)
  exact (isEquivalent_eq_at (by omega)).symm

theorem isEquivalent_value (f f' : SField) (v w : STValue) :
    (value f v).isEquivalent (value f' w) = v.isEquivalent w := by
  rw [isEquivalent, depth, isEquivalentAt]

end STVar

/-! ## Fields of different names -/

namespace STObject

variable {equiv : STVar → STVar → Bool} {a b : STObject}

def NamesDiffer (fields : List STVar) : Prop :=
  (fields.map STVar.fName).Nodup

variable {fields vs : List STVar} {v : STVar} {type : SOTemplate}

theorem NamesDiffer.eq (h : NamesDiffer fields) {w : STVar}
    (hv : v ∈ fields) (hw : w ∈ fields) (hnm : v.fName = w.fName) : v = w :=
  inj_on_of_nodup_map h hv hw hnm

theorem isBinary_of_mem_filter (hv : v ∈ fields.filter STVar.isIncluded) : v.fName.isBinary := by
  have hi := (mem_filter.mp hv).2
  rw [STVar.isIncluded, and_eq_true] at hi
  exact hi.2

theorem NamesDiffer.codes (h : NamesDiffer fields) :
    ((fields.filter STVar.isIncluded).map fun v => v.fName.fieldCode).Nodup := by
  refine List.Nodup.map_on ?_ ((List.Nodup.of_map _ h).filter _)
  intro v hv w hw hc
  refine h.eq (mem_of_mem_filter hv) (mem_of_mem_filter hw) ?_
  exact fieldCode_injOn (isBinary_of_mem_filter hv) (isBinary_of_mem_filter hw) hc

theorem equalBy_iff (hb : NamesDiffer b.fields)
    (hns : ((a.fields.filter STVar.isIncluded).map STVar.fName).Perm
      ((b.fields.filter STVar.isIncluded).map STVar.fName)) :
    a.equalBy equiv b ↔ ∀ x ∈ a.fields.filter STVar.isIncluded,
      ∀ y ∈ b.fields.filter STVar.isIncluded, x.fName = y.fName → equiv y x := by
  have hcn : (b.fields.filter STVar.isIncluded).length =
      (a.fields.filter STVar.isIncluded).length := by
    simpa using hns.length_eq.symm
  unfold equalBy
  rw [hcn, beq_self_eq_true, Bool.and_true, all_eq_true]
  refine forall₂_congr fun x hx => ?_
  obtain ⟨y, hy, hnm⟩ : ∃ y ∈ b.fields.filter STVar.isIncluded, y.fName = x.fName :=
    mem_map.mp (hns.mem_iff.mp (mem_map_of_mem hx))
  have hyb : y ∈ b.fields := mem_of_mem_filter hy
  have hf : b.fields.find? (fun t2 => x.fName == t2.fName) = some y := by
    cases hf : b.fields.find? fun t2 => x.fName == t2.fName with
    | none =>
      have hno := List.find?_eq_none.mp hf y hyb
      simp [hnm] at hno
    | some z =>
      have hz : x.fName = z.fName := by simpa using List.find?_some hf
      rw [hb.eq (mem_of_find?_eq_some hf) hyb (hz.symm.trans hnm.symm)]
  rw [hf]
  constructor
  · intro heu z hz hxz
    rwa [hb.eq (mem_of_mem_filter hz) hyb (hxz.symm.trans hnm.symm)]
  · intro hal
    exact hal y hy hnm.symm

/-- `equivalentSTObject` compares the fields of one name. -/
theorem equivalentFields_sorted_iff (ha : NamesDiffer a.fields)
    (hns : ((a.fields.filter STVar.isIncluded).map STVar.fName).Perm
      ((b.fields.filter STVar.isIncluded).map STVar.fName)) :
    equivalentFields equiv a.getSortedFields b.getSortedFields ↔
      ∀ x ∈ a.fields.filter STVar.isIncluded, ∀ y ∈ b.fields.filter STVar.isIncluded,
        x.fName = y.fName → x.getSType = y.getSType ∧ equiv x y := by
  have hme (o : STObject) {v : STVar} :
      v ∈ o.getSortedFields ↔ v ∈ o.fields.filter STVar.isIncluded :=
    (perm_getSortedFields o).mem_iff
  have hs (o : STObject) : (o.getSortedFields.map fun v => v.fName.fieldCode).Pairwise
      (· ≤ ·) := by
    refine pairwise_map.mpr ?_
    exact pairwise_insertionSort (fun v w : STVar => v.fName.fieldCode ≤ w.fName.fieldCode) _
  have hco (o : STObject) : (o.getSortedFields.map fun v => v.fName.fieldCode).Perm
      (((o.fields.filter STVar.isIncluded).map STVar.fName).map fieldCode) := by
    rw [map_map]
    exact (perm_getSortedFields o).map _
  have hk : (a.getSortedFields.map fun v => v.fName.fieldCode) =
      b.getSortedFields.map fun v => v.fName.fieldCode := by
    have hp := (hco a).trans ((hns.map fieldCode).trans (hco b).symm)
    exact hp.eq_of_pairwise (fun x y _ _ => Nat.le_antisymm) (hs a) (hs b)
  have hnd : (a.getSortedFields.map fun v => v.fName.fieldCode).Nodup :=
    ((perm_getSortedFields a).map _).nodup_iff.mpr ha.codes
  unfold equivalentFields
  rw [isEqv_iff_of_keys (fun v => v.fName.fieldCode) hk hnd]
  constructor
  · intro hal x hx y hy hnm
    have hpa := hal x ((hme a).mpr hx) y ((hme b).mpr hy) (congrArg fieldCode hnm)
    rwa [and_eq_true, beq_iff_eq] at hpa
  · intro hal x hx y hy hc
    have hx := (hme a).mp hx
    have hy := (hme b).mp hy
    rw [and_eq_true, beq_iff_eq]
    exact hal x hx y hy (fieldCode_injOn (isBinary_of_mem_filter hx) (isBinary_of_mem_filter hy) hc)

/-! ## Templates -/

theorem names_setType (type : SOTemplate) (vs : List STVar) :
    (setType type vs).2.map STVar.fName = type.map Prod.fst := by
  induction type generalizing vs with
  | nil => rfl
  | cons element type ih =>
    obtain ⟨f, flags⟩ := element
    rw [setType]
    cases hf : vs.find? fun v => v.fName == f with
    | none => exact congrArg (f :: ·) (ih vs)
    | some v =>
      have hnm : v.fName = f := by simpa using List.find?_some hf
      exact congrArg₂ List.cons hnm (ih _)

theorem mem_setType {w : STVar} (hw : w ∈ (setType type vs).2) : w ∈ vs ∨ w.getSType = none := by
  induction type generalizing vs with
  | nil => cases hw
  | cons element type ih =>
    obtain ⟨f, flags⟩ := element
    rw [setType] at hw
    cases hf : vs.find? fun v => v.fName == f with
    | none =>
      rw [hf] at hw
      rcases mem_cons.mp hw with rfl | hw
      · exact .inr rfl
      · exact ih hw
    | some v =>
      rw [hf] at hw
      rcases mem_cons.mp hw with rfl | hw
      · exact .inl (mem_of_find?_eq_some hf)
      · exact (ih hw).imp_left mem_of_mem_eraseP

def LeavesOutDefaults (type : SOTemplate) (vs : List STVar) : Prop :=
  ∀ f, (f, SOEFlags.default) ∈ type → ∀ v ∈ vs, v.fName = f → v.isDefault = false

/-- Apart from defaults, fitting depends on names only. -/
theorem setType_valid_of_perm {ws : List STVar} (hvs : LeavesOutDefaults type vs)
    (hws : LeavesOutDefaults type ws) (hns : (vs.map STVar.fName).Perm (ws.map STVar.fName)) :
    (setType type vs).1 = (setType type ws).1 := by
  induction type generalizing vs ws with
  | nil =>
    have hal (us : List STVar) : (us.all fun v => v.fName.isDiscardable) =
        (us.map STVar.fName).all isDiscardable := by
      rw [all_map]
      rfl
    change (vs.all fun v => v.fName.isDiscardable) = ws.all fun v => v.fName.isDiscardable
    rw [hal, hal, Bool.eq_iff_iff, all_eq_true, all_eq_true]
    exact forall_congr' fun f => imp_congr_left hns.mem_iff
  | cons element type ih =>
    obtain ⟨f, flags⟩ := element
    have he (us : List STVar) : (us.eraseP fun v => v.fName == f).map STVar.fName =
        (us.map STVar.fName).erase f := by
      rw [erase_eq_eraseP', eraseP_map]
      rfl
    have hfn (us : List STVar) : (us.find? fun v => v.fName == f).isSome =
        (us.map STVar.fName).contains f := by
      rw [Bool.eq_iff_iff, List.find?_isSome]
      simp
    have hsa : (vs.find? fun v => v.fName == f).isSome =
        (ws.find? fun v => v.fName == f).isSome := by
      rw [hfn, hfn, Bool.eq_iff_iff, contains_iff_mem, contains_iff_mem, hns.mem_iff]
    have hrs : ((vs.eraseP fun v => v.fName == f).map STVar.fName).Perm
        ((ws.eraseP fun v => v.fName == f).map STVar.fName) := by
      rw [he, he]
      exact hns.erase f
    have ho {us : List STVar} (hus : LeavesOutDefaults ((f, flags) :: type) us) :
        LeavesOutDefaults type us := fun g hg => hus g (mem_cons_of_mem _ hg)
    have ht := ih (fun g hg v hv => ho hvs g hg v (mem_of_mem_eraseP (p := _) hv))
      (fun g hg v hv => ho hws g hg v (mem_of_mem_eraseP (p := _) hv)) hrs
    have hd {us : List STVar} {u : STVar} (hus : LeavesOutDefaults ((f, flags) :: type) us)
        (hu : us.find? (fun v => v.fName == f) = some u) :
        (flags == .default && u.isDefault) = false := by
      cases hfl : flags == SOEFlags.default with
      | false => rfl
      | true =>
        obtain rfl := eq_of_beq hfl
        exact hus f mem_cons_self u (mem_of_find?_eq_some hu) (by simpa using List.find?_some hu)
    rw [setType, setType]
    cases hv : vs.find? fun v => v.fName == f with
    | none =>
      cases hw : ws.find? fun v => v.fName == f with
      | none => exact congrArg (· && flags != .required) (ih (ho hvs) (ho hws) hns)
      | some w => simp [hv, hw] at hsa
    | some v =>
      cases hw : ws.find? fun v => v.fName == f with
      | none => simp [hv, hw] at hsa
      | some w =>
        dsimp only
        rw [ht, hd hvs hv, hd hws hw]

theorem perm_cons_eraseP {f : SField} (h : vs.find? (fun v => v.fName == f) = some v) :
    (v :: vs.eraseP fun v => v.fName == f).Perm vs := by
  obtain ⟨hv, as, bs, hsp, hnt⟩ := List.find?_eq_some_iff_append.mp h
  have hft : vs.eraseP (fun v => v.fName == f) = as ++ bs := by
    rw [hsp, eraseP_append_right _ fun b hb => by simpa using hnt b hb,
      eraseP_cons_of_pos (p := fun w : STVar => w.fName == f) hv]
  rw [hft, hsp]
  exact perm_middle.symm

theorem perm_setType (hvs : ∀ v ∈ vs, v.isIncluded) (hvl : (setType type vs).1) :
    ((setType type vs).2.filter STVar.isIncluded).Perm vs := by
  induction type generalizing vs with
  | nil =>
    cases vs with
    | nil => exact .nil
    | cons v vs =>
      have hdi := all_eq_true.mp hvl v mem_cons_self
      have hi := hvs v mem_cons_self
      rw [STVar.isIncluded, and_eq_true] at hi
      have hlt := of_decide_eq_true hi.2
      have hgt := of_decide_eq_true hdi
      omega
  | cons element type ih =>
    obtain ⟨f, flags⟩ := element
    rw [setType] at hvl ⊢
    cases hf : vs.find? fun v => v.fName == f with
    | none =>
      rw [hf] at hvl
      obtain ⟨hvl, -⟩ := and_eq_true_iff.mp hvl
      exact ih hvs hvl
    | some v =>
      rw [hf] at hvl
      obtain ⟨hvl, -⟩ := and_eq_true_iff.mp hvl
      have hrs := ih (fun w hw => hvs w (mem_of_mem_eraseP hw)) hvl
      rw [filter_cons_of_pos (hvs v (mem_of_find?_eq_some hf))]
      exact (hrs.cons v).trans (perm_cons_eraseP hf)

end STObject

theorem InnerObjectFormats.elements {f : SField} {type : SOTemplate}
    (h : findSOTemplateBySField f = some type) :
    (type.map Prod.fst).Nodup ∧ ∀ e ∈ type, e.2 = .required := by
  unfold findSOTemplateBySField at h
  split at h
  · cases h
    decide
  split at h
  · cases h
    decide
  split at h
  · cases h
    decide
  · cases h

end Sand
