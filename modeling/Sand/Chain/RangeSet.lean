import Mathlib

/-!
# Ranges of ledgers

A set of integers is kept as a map from the lowest value of each range to its highest.
-/

namespace Sand.RangeSet

open Finset

/-- The map `mRanges`, by lowest values. -/
abbrev Map := List (ℕ × ℕ)

def absent : ℕ := 2 ^ 32 - 1

/-- Subtraction of one on 32 bits. -/
def pred (v : ℕ) : ℕ := (v + absent) % 2 ^ 32

def succ (v : ℕ) : ℕ := (v + 1) % 2 ^ 32

def contains (it : ℕ × ℕ) (v : ℕ) : Bool := decide (it.1 ≤ v ∧ v ≤ it.2)

/-- The assignment `mRanges[k] = x`. -/
def assign (k x : ℕ) : Map → Map
  | [] => [(k, x)]
  | r :: rs =>
    if k < r.1 then (k, x) :: r :: rs
    else if k = r.1 then (k, x) :: rs
    else r :: assign k x rs

def simplifyFrom (it : ℕ × ℕ) : Map → Map
  | [] => [it]
  | nit :: rs =>
    if nit.1 - 1 ≤ it.2 then simplifyFrom (it.1, max it.2 nit.2) rs
    else it :: simplifyFrom nit rs

def simplify : Map → Map
  | [] => []
  | it :: rs => simplifyFrom it rs

section Functions

variable (mRanges : Map) (v : ℕ)

def hasValue : Bool := mRanges.any (contains · v)

def getFirst : ℕ := (mRanges.head?.map Prod.fst).getD absent

def getLast : ℕ := (mRanges.getLast?.map Prod.snd).getD absent

def getNext : ℕ :=
  (mRanges.findSome? fun it =>
    if v < it.1 then some it.1
    else if contains it (succ v) then some (succ v) else none).getD absent

def getPrev : ℕ :=
  (mRanges.reverse.findSome? fun it =>
    if it.2 < v then some it.2
    else if contains it (succ v) then some (pred v) else none).getD absent

def prevMissing : ℕ :=
  if v = 0 then absent
  else ((mRanges.reverse.find? (contains · (v - 1))).map fun cur => pred cur.1).getD (v - 1)

def setValue : Map :=
  if hasValue mRanges v then mRanges else simplify (assign v v mRanges)

/-- Where the loop of `setRange` ends; nothing if it returns. -/
def uncovered (minV maxV : ℕ) : Option ℕ :=
  if hasValue mRanges minV then
    if maxV ≤ minV + 1 then none else uncovered (minV + 1) maxV
  else some minV
termination_by maxV - minV

def setRange (minV maxV : ℕ) : Map :=
  match uncovered mRanges minV maxV with
  | none => mRanges
  | some minV => simplify (assign minV maxV mRanges)

def clearValue : Map :=
  match mRanges.find? (contains · v) with
  | none => mRanges
  | some it =>
    if it.1 = v then
      if it.2 = v then mRanges.erase it else assign (v + 1) it.2 (mRanges.erase it)
    else if it.2 = v then assign it.1 (v - 1) mRanges
    else assign (v + 1) it.2 (assign it.1 (v - 1) mRanges)

end Functions

/-- Below `absent`, so that adding one is exact. -/
abbrev Value := Fin absent

inductive Op where
  | setValue (v : Value)
  | setRange (minV maxV : Value) (h : minV ≤ maxV)
  | clearValue (v : Value)

def Op.apply (rs : Map) : Op → Map
  | setValue v => RangeSet.setValue rs v
  | setRange minV maxV _ => RangeSet.setRange rs minV maxV
  | clearValue v => RangeSet.clearValue rs v

/-- What an operation is to do to the set. -/
def Op.update (s : Finset ℕ) : Op → Finset ℕ
  | setValue v => insert v.1 s
  | setRange minV maxV _ => s ∪ Finset.Icc minV.1 maxV
  | clearValue v => s.erase v

def ranges (ops : List Op) : Map := ops.foldl Op.apply []

def members (ops : List Op) : Finset ℕ := ops.foldl Op.update ∅

structure Apart (rs : Map) : Prop where
  bounds : ∀ r ∈ rs, r.1 ≤ r.2 ∧ r.2 < absent
  pairwise : rs.Pairwise fun r r' => r.2 + 1 < r'.1

structure Right (rs : Map) (s : Finset ℕ) (v : ℕ) : Prop where
  apart : Apart rs
  hasValue : ∀ w, hasValue rs w ↔ w ∈ s
  getFirst : getFirst rs = s.min.untopD absent
  getLast : getLast rs = s.max.unbotD absent
  getNext : getNext rs v = (s.filter (v < ·)).min.untopD absent
  getPrev : getPrev rs v = (s.filter (· < v)).max.unbotD absent
  prevMissing : prevMissing rs v = ((range v).filter (· ∉ s)).max.unbotD absent

/-- The range is covered up to its end, where the loop returns. -/
def Op.Drops (s : Finset ℕ) : Op → Prop
  | setRange minV maxV _ => minV < maxV ∧ Finset.Ico minV.1 maxV ⊆ s ∧ maxV.1 ∉ s
  | _ => False

/-- A test of `v + 1` in the place of `v - 1` makes no difference. -/
def PrevFits (s : Finset ℕ) (v : ℕ) : Prop :=
  v = 0 ∨ (v + 1 ∈ s → v - 1 ∈ s) ∧ (v - 1 ∈ s → v ∈ s → v + 1 ∈ s)

variable {rs : Map} {s : Finset ℕ} {v k x : ℕ}

theorem min_untopD {o : Option ℕ} (hso : ∀ x, o = some x → x ∈ s ∧ ∀ y ∈ s, x ≤ y)
    (hno : o = none → s = ∅) : o.getD absent = s.min.untopD absent := by
  cases o with
  | none => simp [hno rfl]
  | some x =>
    obtain ⟨hx, hle⟩ := hso x rfl
    rw [le_antisymm (min_le hx) (Finset.le_min fun y hy => WithTop.coe_le_coe.mpr (hle y hy))]
    rfl

theorem max_unbotD {o : Option ℕ} (hso : ∀ x, o = some x → x ∈ s ∧ ∀ y ∈ s, y ≤ x)
    (hno : o = none → s = ∅) : o.getD absent = s.max.unbotD absent := by
  cases o with
  | none => simp [hno rfl]
  | some x =>
    obtain ⟨hx, hle⟩ := hso x rfl
    rw [le_antisymm (Finset.max_le fun y hy => WithBot.coe_le_coe.mpr (hle y hy)) (le_max hx)]
    rfl

theorem mem_of_max_unbotD (hv : v ≠ absent) (h : s.max.unbotD absent = v) : v ∈ s := by
  cases hm : s.max with
  | bot => simp [hm, hv.symm] at h
  | coe m =>
    rw [hm, WithBot.unbotD_coe] at h
    exact h ▸ mem_of_max hm

theorem succ_eq (hv : v < absent) : succ v = v + 1 :=
  Nat.mod_eq_of_lt (Nat.succ_lt_succ hv)

theorem pred_eq (hpo : 0 < v) (hv : v < absent) : pred v = v - 1 := by
  unfold pred absent at *
  omega

theorem hasValue_iff : hasValue rs v ↔ ∃ r ∈ rs, r.1 ≤ v ∧ v ≤ r.2 := by
  simp [hasValue, contains]

/-! ## The operations -/

theorem Apart.separate (h : Apart rs) {r r' : ℕ × ℕ} (hr : r ∈ rs) (hr' : r' ∈ rs) :
    r = r' ∨ r.2 + 1 < r'.1 ∨ r'.2 + 1 < r.1 := by
  have hp := h.pairwise
  clear h
  induction rs with
  | nil => cases hr
  | cons r₀ rs ih =>
    rw [List.pairwise_cons] at hp
    grind

theorem Apart.sorted (h : Apart rs) : rs.Pairwise (·.1 < ·.1) :=
  h.pairwise.imp_of_mem fun hr _ hlt => by
    have := h.bounds _ hr
    omega

theorem mem_assign (hs : rs.Pairwise (·.1 < ·.1)) {r : ℕ × ℕ} :
    r ∈ assign k x rs ↔ r = (k, x) ∨ r ∈ rs ∧ r.1 ≠ k := by
  induction rs with
  | nil => simp [assign]
  | cons r₀ rs ih =>
    rw [List.pairwise_cons] at hs
    have := ih hs.2
    unfold assign
    split_ifs <;> grind

theorem sorted_assign (hs : rs.Pairwise (·.1 < ·.1)) : (assign k x rs).Pairwise (·.1 < ·.1) := by
  induction rs with
  | nil => simp [assign]
  | cons r₀ rs ih =>
    have hme := @mem_assign rs k x hs.of_cons
    have := ih hs.of_cons
    unfold assign
    split_ifs <;> simp only [List.pairwise_cons] at hs ⊢ <;> grind

theorem simplifyFrom_spec {it : ℕ × ℕ} (hs : (it :: rs).Pairwise (·.1 < ·.1))
    (hb : ∀ r ∈ it :: rs, r.1 ≤ r.2 ∧ r.2 < absent) :
    Apart (simplifyFrom it rs) ∧ (∀ r ∈ simplifyFrom it rs, it.1 ≤ r.1) ∧
      ∀ w, hasValue (simplifyFrom it rs) w ↔ hasValue (it :: rs) w := by
  induction rs generalizing it with
  | nil => exact ⟨⟨hb, by simp [simplifyFrom]⟩, by simp [simplifyFrom], fun w => Iff.rfl⟩
  | cons nit rs ih =>
    unfold simplifyFrom
    simp only [List.pairwise_cons, List.forall_mem_cons, hasValue_iff, List.exists_mem_cons_iff]
      at hs hb ih ⊢
    split_ifs with hle
    · obtain ⟨hap, hlw, hva⟩ := @ih (it.1, max it.2 nit.2) ⟨hs.1.2, hs.2.2⟩ ⟨by grind, hb.2.2⟩
      refine ⟨hap, hlw, fun w => (hva w).trans ?_⟩
      grind
    · obtain ⟨hap, hlw, hva⟩ := ih hs.2 hb.2
      refine ⟨⟨?_, ?_⟩, ?_, fun w => ?_⟩
      · exact List.forall_mem_cons.mpr ⟨hb.1, hap.bounds⟩
      · exact List.pairwise_cons.mpr ⟨fun r hr => by grind, hap.pairwise⟩
      · grind
      · rw [List.exists_mem_cons_iff, hva]

theorem assigned_spec (h : Apart rs) (hk : ¬ hasValue rs k) (hkx : k ≤ x)
    (hx : x < absent) : Apart (simplify (assign k x rs)) ∧
      ∀ w, hasValue (simplify (assign k x rs)) w ↔ hasValue rs w ∨ k ≤ w ∧ w ≤ x := by
  have hme := @mem_assign rs k x h.sorted
  have hin : (k, x) ∈ assign k x rs := hme.mpr (.inl rfl)
  have hs := @sorted_assign rs k x h.sorted
  have hb := h.bounds
  rw [hasValue_iff] at hk
  have hva : ∀ w, hasValue (assign k x rs) w ↔ hasValue rs w ∨ k ≤ w ∧ w ≤ x := by
    intro w
    rw [hasValue_iff, hasValue_iff]
    grind
  cases hrs : assign k x rs with
  | nil => simp [hrs] at hin
  | cons it rest =>
    rw [hrs] at hme hs hva
    obtain ⟨hap, -, hw⟩ := simplifyFrom_spec hs (by grind)
    exact ⟨hap, fun w => (hw w).trans (hva w)⟩

structure Represents (rs : Map) (s : Finset ℕ) : Prop where
  apart : Apart rs
  hasValue : ∀ w, hasValue rs w ↔ w ∈ s

theorem uncovered_spec (rs : Map) {minV maxV : ℕ} (hle : minV ≤ maxV) :
    match uncovered rs minV maxV with
    | none => hasValue rs minV ∧ ∀ w, minV ≤ w → w < maxV → hasValue rs w
    | some m => ¬ hasValue rs m ∧ minV ≤ m ∧ (m < maxV ∨ m = minV) ∧
        ∀ w, minV ≤ w → w < m → hasValue rs w := by
  fun_induction uncovered rs minV maxV with
  | case1 minV hv he =>
    refine ⟨hv, fun w hw hlt => ?_⟩
    rwa [show w = minV by omega]
  | case2 minV hv he ih =>
    have := ih (by omega)
    grind
  | case3 minV hv => exact ⟨hv, le_rfl, .inr rfl, by omega⟩

/-- One range is cut at a value of it. -/
theorem cut_spec {rs' : Map} (h : Apart rs) (hs : rs'.Pairwise (·.1 < ·.1)) {it : ℕ × ℕ}
    (hit : it ∈ rs) (hlo : it.1 ≤ v) (hhi : v ≤ it.2)
    (hme : ∀ r, r ∈ rs' ↔ r ∈ rs ∧ r ≠ it ∨ r = (it.1, v - 1) ∧ it.1 < v ∨
      r = (v + 1, it.2) ∧ v < it.2) :
    Apart rs' ∧ ∀ w, hasValue rs' w ↔ hasValue rs w ∧ w ≠ v := by
  have hb := h.bounds
  have hse := fun r hr => h.separate (r := r) hr hit
  refine ⟨⟨by grind, hs.imp_of_mem fun {r r'} hr hr' hlt => ?_⟩, fun w => ?_⟩
  · rw [hme] at hr hr'
    have := @Apart.separate rs h r r'
    grind
  · have hlf := (hme (it.1, v - 1)).mpr
    have hri := (hme (v + 1, it.2)).mpr
    rw [hasValue_iff, hasValue_iff]
    grind

theorem clearValue_spec (h : Apart rs) (v : ℕ) :
    Apart (clearValue rs v) ∧ ∀ w, hasValue (clearValue rs v) w ↔ hasValue rs w ∧ w ≠ v := by
  unfold clearValue
  split
  next hno =>
    refine ⟨h, fun w => ⟨fun hw => ⟨hw, ?_⟩, And.left⟩⟩
    rintro rfl
    obtain ⟨r, hr, hv⟩ := hasValue_iff.mp hw
    exact List.find?_eq_none.mp hno r hr (decide_eq_true hv)
  next it hso =>
    have hit := List.mem_of_find?_eq_some hso
    have hc := List.find?_some hso
    obtain ⟨hlo, hhi⟩ := of_decide_eq_true hc
    have hb := h.bounds
    have hs := h.sorted
    have hse := fun r hr => h.separate (r := r) hr hit
    have hcu := hs.sublist (List.erase_sublist (a := it))
    have her := fun r => List.Nodup.mem_erase_iff (a := r) (b := it) (hs.imp (by grind))
    split_ifs with hfs hsn hsn
    · exact cut_spec h hcu hit hlo hhi (by grind)
    · refine cut_spec h (sorted_assign hcu) hit hlo hhi fun r => ?_
      rw [mem_assign hcu]
      grind
    · refine cut_spec h (sorted_assign hs) hit hlo hhi fun r => ?_
      rw [mem_assign hs]
      grind
    · have hs' := @sorted_assign rs it.1 (v - 1) hs
      refine cut_spec h (sorted_assign hs') hit hlo hhi fun r => ?_
      rw [mem_assign hs', mem_assign hs]
      grind

theorem apply_represents_iff (h : Represents rs s) (op : Op) :
    Represents (op.apply rs) (op.update s) ↔ ¬ op.Drops s := by
  cases op with
  | setValue v =>
    refine iff_of_true ?_ id
    simp only [Op.apply, Op.update, setValue]
    split_ifs with hv
    · rwa [insert_eq_of_mem ((h.hasValue v).mp hv)]
    · obtain ⟨hap, hw⟩ := assigned_spec h.apart hv le_rfl v.2
      refine ⟨hap, fun w => ?_⟩
      rw [hw, h.hasValue, mem_insert]
      grind
  | clearValue v =>
    obtain ⟨hap, hw⟩ := clearValue_spec h.apart v
    refine iff_of_true ⟨hap, fun w => ?_⟩ id
    rw [Op.apply, hw, h.hasValue, Op.update, mem_erase, and_comm]
  | setRange minV maxV hle =>
    have hsp := uncovered_spec rs hle
    simp only [Op.apply, Op.update, Op.Drops, setRange]
    cases hun : uncovered rs minV maxV with
    | none =>
      simp only [hun, h.hasValue] at hsp
      have hma : maxV.1 ∈ s ↔ ¬ (minV < maxV ∧ Finset.Ico minV.1 maxV ⊆ s ∧ maxV.1 ∉ s) := by
        have hsu : Finset.Ico minV.1 maxV ⊆ s := fun w hw => by grind
        grind
      rw [← hma]
      refine ⟨fun hr => ?_, fun hm => ⟨h.apart, fun w => ?_⟩⟩
      · exact (h.hasValue _).mp ((hr.hasValue maxV).mpr (by simp [hle]))
      · rw [h.hasValue, mem_union, mem_Icc]
        grind
    | some m =>
      simp only [hun, h.hasValue] at hsp
      obtain ⟨hm, hlo, hhi, hin⟩ := hsp
      obtain ⟨hap, hw⟩ := assigned_spec h.apart (mt (h.hasValue m).mp hm) (by grind) maxV.2
      refine iff_of_true ⟨hap, fun w => ?_⟩ fun hd => hm (hd.2.1 ?_)
      · rw [hw, h.hasValue, mem_union, mem_Icc]
        grind
      · grind

/-! ## The queries -/

section Queries

variable (h : Represents rs s)
include h

theorem Represents.mem_iff {w : ℕ} : w ∈ s ↔ ∃ r ∈ rs, r.1 ≤ w ∧ w ≤ r.2 :=
  (h.hasValue w).symm.trans hasValue_iff

theorem Represents.empty (hn : rs = []) : s = ∅ := by
  ext w
  simp [h.mem_iff, hn]

theorem getFirst_eq : getFirst rs = s.min.untopD absent := by
  refine min_untopD (fun x hx => ?_) fun hno => h.empty (by simpa using hno)
  obtain ⟨r, hr, rfl⟩ := Option.map_eq_some_iff.mp hx
  obtain ⟨rest, rfl⟩ := List.head?_eq_some_iff.mp hr
  have hs := List.pairwise_cons.mp h.apart.sorted
  have hb := h.apart.bounds r (by simp)
  simp only [h.mem_iff]
  grind

theorem getLast_eq : getLast rs = s.max.unbotD absent := by
  refine max_unbotD (fun x hx => ?_) fun hno => h.empty (by simpa using hno)
  obtain ⟨r, hr, rfl⟩ := Option.map_eq_some_iff.mp hx
  obtain ⟨init, rfl⟩ := List.getLast?_eq_some_iff.mp hr
  have hs := (List.pairwise_append.mp h.apart.pairwise).2.2
  have hb := h.apart.bounds
  simp only [h.mem_iff]
  grind

theorem getNext_eq (hv : v < absent) : getNext rs v = (s.filter (v < ·)).min.untopD absent := by
  have hb := h.apart.bounds
  rw [getNext, succ_eq hv]
  refine min_untopD (fun x hx => ?_) fun hno => ?_
  · obtain ⟨l, r, l', rfl, hr, hl⟩ := List.findSome?_eq_some_iff.mp hx
    have hs := List.pairwise_append.mp h.apart.pairwise
    rw [List.pairwise_cons] at hs
    simp only [contains, decide_eq_true_eq, mem_filter, h.mem_iff] at hr hl ⊢
    grind
  · rw [List.findSome?_eq_none_iff] at hno
    simp only [contains, decide_eq_true_eq] at hno
    ext w
    simp only [mem_filter, h.mem_iff]
    grind

theorem prevMissing_eq (hv : v < absent) :
    prevMissing rs v = ((range v).filter (· ∉ s)).max.unbotD absent := by
  unfold prevMissing
  split_ifs with h0
  · simp [h0]
  cases hf : rs.reverse.find? (contains · (v - 1)) with
  | none =>
    simp only [List.find?_eq_none, List.mem_reverse, contains, decide_eq_true_eq] at hf
    refine max_unbotD (o := some (v - 1)) (fun x hx => ?_) nofun
    simp only [mem_filter, mem_range, h.mem_iff]
    grind
  | some cur =>
    have hcr := List.mem_reverse.mp (List.mem_of_find?_eq_some hf)
    have hfo := List.find?_some hf
    have hc := of_decide_eq_true hfo
    rcases Nat.eq_zero_or_pos cur.1 with hfi | hfi
    · -- the range starts at zero, and one less wraps to `absent`
      rw [Option.map_some, hfi]
      refine max_unbotD (o := none) nofun fun _ => ?_
      ext w
      simp only [mem_filter, mem_range, h.mem_iff]
      grind
    · rw [Option.map_some, pred_eq hfi (by omega)]
      refine max_unbotD (o := some (cur.1 - 1)) (fun x hx => ?_) nofun
      have hse := fun r hr => h.apart.separate (r := r) hr hcr
      simp only [mem_filter, mem_range, h.mem_iff]
      grind

/-- The search from the top passes by what lies above `v + 1` or ends at `v`. -/
theorem getPrev_spec (hv : v < absent) :
    (getPrev rs v = absent ∧ ∀ r ∈ rs, v + 1 < r.1 ∨ r.2 = v) ∨
    ∃ r ∈ rs, (∀ r' ∈ rs, r.2 < r'.1 → v + 1 < r'.1 ∨ r'.2 = v) ∧
      (r.2 < v ∧ getPrev rs v = r.2 ∨ r.1 ≤ v + 1 ∧ v + 1 ≤ r.2 ∧ getPrev rs v = pred v) := by
  have hb := h.apart.bounds
  rw [getPrev, succ_eq hv]
  cases hf : rs.reverse.findSome? _ with
  | none =>
    simp only [List.findSome?_eq_none_iff, List.mem_reverse, contains, decide_eq_true_eq] at hf
    exact .inl ⟨rfl, by grind⟩
  | some x =>
    obtain ⟨l, r, l', hrs, hr, hl⟩ := List.findSome?_eq_some_iff.mp hf
    have hp := List.pairwise_reverse.mpr h.apart.pairwise
    rw [hrs, List.pairwise_append, List.pairwise_cons] at hp
    have hme (r') : r' ∈ rs ↔ r' ∈ l ∨ r' = r ∨ r' ∈ l' := by
      rw [← List.mem_reverse, hrs, List.mem_append, List.mem_cons]
    simp only [contains, decide_eq_true_eq, Option.getD_some] at hr hl ⊢
    exact .inr ⟨r, (hme r).mpr (.inr (.inl rfl)), by grind, by grind⟩

theorem getPrev_of_next (hpo : 0 < v) (hv : v < absent) (hnx : v + 1 ∈ s) :
    getPrev rs v = v - 1 := by
  have hb := h.apart.bounds
  have hsp := getPrev_spec h hv
  rw [pred_eq hpo hv] at hsp
  obtain ⟨c, hc, hlo, hhi⟩ := h.mem_iff.mp hnx
  have hse := fun r hr => h.apart.separate (r := r) hr hc
  grind

theorem getPrev_of_ends (hv : v < absent) (hnx : v + 1 ∉ s) (hen : ∀ r ∈ rs, r.1 < v → r.2 < v) :
    getPrev rs v = (s.filter (· < v)).max.unbotD absent := by
  have hb := h.apart.bounds
  rcases getPrev_spec h hv with ⟨hpr, ha⟩ | ⟨r, hr, ha, ⟨hlt, hpr⟩ | hin⟩
  · rw [hpr]
    refine max_unbotD (o := none) nofun fun _ => ?_
    ext w
    simp only [mem_filter, h.mem_iff]
    grind
  · rw [hpr]
    have hse := fun r' hr' => h.apart.separate (r := r') hr' hr
    refine max_unbotD (o := some r.2) (fun x hx => ?_) nofun
    simp only [mem_filter, h.mem_iff]
    grind
  · exact absurd (h.mem_iff.mpr ⟨r, hr, hin.1, hin.2.1⟩) hnx

theorem getPrev_eq_iff (hv : v < absent) :
    getPrev rs v = (s.filter (· < v)).max.unbotD absent ↔ PrevFits s v := by
  have hb := h.apart.bounds
  have hsp := getPrev_spec h hv
  rcases Nat.eq_zero_or_pos v with rfl | hpo
  · have hpe : pred 0 = absent := rfl
    refine iff_of_true ?_ (.inl rfl)
    simp only [Nat.not_lt_zero, filter_false, max_empty, WithBot.unbotD_bot]
    grind
  have hla (hm : v - 1 ∈ s) : v - 1 = (s.filter (· < v)).max.unbotD absent :=
    max_unbotD (o := some (v - 1)) (by grind) nofun
  unfold PrevFits
  by_cases hnx : v + 1 ∈ s
  · rw [getPrev_of_next h hpo hv hnx]
    refine ⟨fun heq => ?_, fun hft => hla (by grind)⟩
    have := Finset.mem_filter.mp (mem_of_max_unbotD (by omega) heq.symm)
    grind
  constructor
  · -- a range that ends at `v` is passed by, with `v - 1` in it
    refine fun heq => .inr ⟨fun hm => absurd hm hnx, fun hm hme => absurd ?_ hnx⟩
    rw [← hla hm] at heq
    obtain ⟨c, hc, hlo, hhi⟩ := h.mem_iff.mp hme
    have hse := fun r hr => h.apart.separate (r := r) hr hc
    have := h.mem_iff (w := v + 1)
    grind
  · intro hft
    refine getPrev_of_ends h hv hnx fun r hr hlt => ?_
    by_contra hge
    have := (h.mem_iff (w := v)).mpr ⟨r, hr, by omega, by omega⟩
    have := (h.mem_iff (w := v - 1)).mpr ⟨r, hr, by omega, by omega⟩
    grind

theorem right_iff (hv : v < absent) : Right rs s v ↔ PrevFits s v :=
  ⟨fun hr => (getPrev_eq_iff h hv).mp hr.getPrev, fun hp => ⟨h.apart, h.hasValue, getFirst_eq h,
    getLast_eq h, getNext_eq h hv, (getPrev_eq_iff h hv).mpr hp, prevMissing_eq h hv⟩⟩

end Queries

/-! ## Runs -/

/-- At each point of a run every answer is right. -/
def RightAlong (ops : List Op) (v : Value) : Prop :=
  ∀ p, p <+: ops → Right (ranges p) (members p) v

/-- Every answer is right while no upper end is dropped and the wrong test does no harm. -/
theorem rightAlong_iff (ops : List Op) (v : Value) : RightAlong ops v ↔
    ∀ p, p <+: ops → PrevFits (members p) v ∧ ∀ op, p ++ [op] <+: ops → ¬ op.Drops (members p) := by
  have hst (p : List Op) (op : Op) (h : Represents (ranges p) (members p)) :
      Represents (ranges (p ++ [op])) (members (p ++ [op])) ↔ ¬ op.Drops (members p) := by
    rw [← apply_represents_iff h, ranges, members, List.foldl_concat, List.foldl_concat]
    rfl
  constructor
  · intro h p hp
    have hre (p) (hp : p <+: ops) : Represents (ranges p) (members p) :=
      ⟨(h p hp).apart, (h p hp).hasValue⟩
    exact ⟨(right_iff (hre p hp) v.2).mp (h p hp), fun op hop =>
      (hst p op (hre p hp)).mp (hre _ hop)⟩
  · intro h p hp
    refine (right_iff ?_ v.2).mpr (h p hp).1
    induction p using List.reverseRecOn with
    | nil => exact ⟨⟨nofun, .nil⟩, fun w => by simp [hasValue, ranges, members]⟩
    | append_singleton p op ih =>
      have hp' := (List.prefix_append p [op]).trans hp
      exact (hst p op (ih hp')).mpr ((h p hp').2 op hp)

def threeLedgers : List Op := [.setRange ⟨1, by decide⟩ ⟨3, by decide⟩ (by decide)]

/-- Two is not found before three. -/
theorem two_overlooked : getPrev (ranges threeLedgers) 3 = absent ∧ 2 ∈ members threeLedgers ∧
      ¬ RightAlong threeLedgers ⟨3, by decide⟩ := by
  have hrs : ranges threeLedgers = [(1, 3)] := by
    simp [ranges, threeLedgers, Op.apply, setRange, uncovered, hasValue, assign, simplify,
      simplifyFrom]
  refine ⟨by rw [hrs]; rfl, by decide, fun h => ?_⟩
  have hpr := (h _ List.prefix_rfl).getPrev
  rw [hrs] at hpr
  exact absurd hpr (by decide)

end Sand.RangeSet
