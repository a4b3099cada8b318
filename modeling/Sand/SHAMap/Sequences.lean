import Sand.Library.OrderedMap
import Sand.SHAMap.Replacement
import Sand.SHAMap.Traversal

/-!
# Maps that are changed step by step

A new map and what any sequence of changes makes of it.
-/

namespace Sand

open Family OrderedMap Option

namespace SHAMap

inductive Change where
  | addGiveItem (item : SHAMapItem) (isTransaction hasMeta : Bool)
  | updateGiveItem (item : SHAMapItem) (isTransaction hasMeta : Bool)
  | delItem (id : UInt256)
  deriving DecidableEq

section Run

variable [Sha512Half]

def change (m : SHAMap) : Change → FamilyM (Bool × SHAMap)
  | .addGiveItem item isTransaction hasMeta => m.addGiveItem item isTransaction hasMeta
  | .updateGiveItem item isTransaction hasMeta => m.updateGiveItem item isTransaction hasMeta
  | .delItem id => m.delItem id

/-- In turn, collecting what they return. -/
def changeAll : SHAMap → List Change → FamilyM (List Bool × SHAMap)
  | m, [] => return ([], m)
  | m, c :: cs => do
    let (done, m) ← m.change c
    let (rest, m) ← changeAll m cs
    return (done :: rest, m)

end Run

namespace Change

/-- What a change does to a map from keys to data. -/
def apply (a : OrderedMap UInt256 Blob) : Change → Bool × OrderedMap UInt256 Blob
  | .addGiveItem item _ _ =>
    if (a.find item.key).isSome then (false, a) else (true, a.insert item.key item.data)
  | .updateGiveItem item _ _ =>
    if (a.find item.key).isSome then (true, a.insert item.key item.data) else (false, a)
  | .delItem id => ((a.find id).isSome, a.erase id)

def applyAll : OrderedMap UInt256 Blob → List Change → List Bool × OrderedMap UInt256 Blob
  | a, [] => ([], a)
  | a, c :: cs => ((apply a c).1 :: (applyAll (apply a c).2 cs).1, (applyAll (apply a c).2 cs).2)

def OfType (type : TNType) : Change → Prop
  | .addGiveItem _ isTransaction hasMeta => leafType isTransaction hasMeta = type
  | .updateGiveItem _ isTransaction hasMeta => leafType isTransaction hasMeta = type
  | .delItem _ => True

end Change

section Refinement

variable [Sha512Half]

/-- All nodes are own, the items those of an ordered map. -/
structure Content (m : SHAMap) (f : Family) (t : Tree) (a : OrderedMap UInt256 Blob) : Prop where
  fresh : f.Fresh
  seq_ne : m.seq_ ≠ 0
  holds : Holds f m.seq_ (fun _ => True) (fun _ n => n.getSeq = m.seq_) t m.root_
  rooted : t.Rooted
  mem_iff : ∀ x : SHAMapItem, x ∈ t.items ↔ a.find x.key = some x.data

variable {m m' : SHAMap} {f f' : Family} {t t' : Tree} {a a' : OrderedMap UInt256 Blob}

namespace Content

theorem discipline (h : m.Content f t a) :
    Discipline m.seq_ (fun _ => True) fun _ n => n.getSeq = m.seq_ :=
  ⟨h.seq_ne, fun _ _ _ hse => hse⟩

theorem settled (h : m.Content f t a) (item : SHAMapItem) (type : TNType) :
    m.Settled f item type := by
  intro q leaf ho hq _
  obtain ⟨s, hs, -⟩ := h.holds.of_occurs ho
  exact .inl (hs.of_object hq).extra

theorem lookup_eq (h : m.Content f t a) (k : UInt256) :
    t.lookup k 0 = (a.find k).map (SHAMapItem.mk k) := by
  ext x
  rw [RadixTree.lookup_eq_some_iff h.rooted.placed, h.mem_iff, map_eq_some_iff]
  constructor
  · rintro ⟨hf, rfl⟩
    exact ⟨x.data, hf, rfl⟩
  · rintro ⟨d, hf, rfl⟩
    exact ⟨hf, rfl⟩

theorem of_changes (h : m.Content f t a)
    (hch : Changes m (fun _ => True) (fun _ n => n.getSeq = m.seq_) f m' f' t')
    (hm : ∀ x : SHAMapItem, x ∈ t'.items ↔ a'.find x.key = some x.data) :
    m'.Content f' t' a' := by
  have hse : m'.seq_ = m.seq_ := by rw [hch.map]
  refine ⟨hch.reworks.fresh, hse ▸ h.seq_ne, ?_, hch.rooted, hm⟩
  rw [hse]
  exact hch.holds

end Content

section

omit [Sha512Half]

theorem find_insert_iff (item x : SHAMapItem) :
    (a.insert item.key item.data).find x.key = some x.data ↔
      x = item ∨ (a.find x.key = some x.data ∧ x.key ≠ item.key) := by
  obtain ⟨k, d⟩ := item
  obtain ⟨k', d'⟩ := x
  obtain rfl | hk := eq_or_ne k' k
  · simp [eq_comm]
  · simp [find_insert_ne a d hk, hk]

theorem ne_of_find_eq_none {item : SHAMapItem} (h : a.find item.key = none) (x : SHAMapItem)
    (hx : a.find x.key = some x.data) : x.key ≠ item.key := by
  intro hk
  rw [hk, h] at hx
  cases hx

end

/-- It does as to the ordered map, and keeps one type of leaves. -/
theorem change_run (h : m.Content f t a) (c : Change) :
    ∃ m' f' t', m.change c f = .ok (((c.apply a).1, m'), f') ∧ m'.Content f' t' (c.apply a).2 ∧
      ∀ type, c.OfType type → t.Tagged type → t'.Tagged type := by
  cases c with
  | addGiveItem item isTransaction hasMeta =>
    obtain ⟨m', f', t', hr, hch, hi, hta⟩ := addGiveItem_run h.discipline item
      isTransaction hasMeta h.fresh (fun _ _ => trivial) h.holds h.rooted
    rw [h.lookup_eq] at hr hi
    refine ⟨m', f', t', hr.trans ?_, h.of_changes hch fun x => ?_, ?_⟩
    · cases hf : a.find item.key <;> simp [Change.apply, hf]
    · rw [hi, h.mem_iff]
      cases hf : a.find item.key with
      | none =>
        have hne := ne_of_find_eq_none hf x
        simp only [Change.apply, hf, isSome_none, Bool.false_eq_true, if_false,
          find_insert_iff, map_none, and_true]
        exact or_comm.trans (or_congr Iff.rfl (and_iff_left_of_imp hne).symm)
      | some d => simp [Change.apply, hf]
    · rintro _ rfl
      exact hta
  | updateGiveItem item isTransaction hasMeta =>
    obtain ⟨m', f', t', hr, hch, hi, hta⟩ := updateGiveItem_run h.discipline item
      isTransaction hasMeta h.fresh (fun _ _ => trivial) h.holds h.rooted (h.settled _ _)
    rw [h.lookup_eq] at hr hi
    refine ⟨m', f', t', hr.trans ?_, h.of_changes hch fun x => ?_, ?_⟩
    · cases hf : a.find item.key <;> simp [Change.apply, hf]
    · rw [hi, h.mem_iff]
      cases hf : a.find item.key with
      | none =>
        have hne := ne_of_find_eq_none hf x
        simp only [Change.apply, hf, isSome_none, Bool.false_eq_true, if_false,
          map_none, and_false, false_or]
        exact and_iff_left_of_imp hne
      | some d => simp [Change.apply, hf, find_insert_iff]
    · rintro _ rfl
      exact hta
  | delItem id =>
    obtain ⟨m', f', t', hr, hch, hi, hta⟩ := delItem_run h.discipline id h.fresh
      (fun _ _ => trivial) h.holds h.rooted
    rw [h.lookup_eq] at hr
    refine ⟨m', f', t', hr.trans ?_, h.of_changes hch fun x => ?_, fun type _ => hta type⟩
    · simp [Change.apply]
    rw [hi, h.mem_iff]
    obtain rfl | hk := eq_or_ne x.key id
    · simp [Change.apply]
    · simp [Change.apply, find_erase_ne a hk, hk]

theorem changeAll_run (h : m.Content f t a) (cs : List Change) :
    ∃ m' f' t', m.changeAll cs f = .ok (((Change.applyAll a cs).1, m'), f') ∧
      m'.Content f' t' (Change.applyAll a cs).2 ∧
      ∀ type, (∀ c ∈ cs, c.OfType type) → t.Tagged type → t'.Tagged type := by
  induction cs generalizing m f t a with
  | nil => exact ⟨m, f, t, rfl, h, fun _ _ ht => ht⟩
  | cons c cs ih =>
    obtain ⟨m1, f1, t1, hrun1, h1, htag1⟩ := change_run h c
    obtain ⟨m2, f2, t2, hrun2, h2, htag2⟩ := ih h1
    refine ⟨m2, f2, t2, ?_, h2, fun type hty ht => ?_⟩
    · rw [changeAll, run_bind hrun1]
      dsimp only
      rw [run_bind hrun2]
      rfl
    · refine htag2 type (fun c' hc' => hty c' (List.mem_cons_of_mem _ hc')) ?_
      exact htag1 type (hty c List.mem_cons_self) ht

theorem make_run (hfr : f.Fresh) {seq : ℕ} (hse : seq ≠ 0) : ∃ m f', make seq f = .ok (m, f') ∧
      m.Content f' (.inner fun _ => .empty) (.empty : OrderedMap UInt256 Blob) := by
  refine ⟨_, _, rfl, fresh_add hfr _, hse, ?_, RadixTree.rooted_empty (by decide), fun x => ?_⟩
  · have hd : Discipline seq (fun _ => True) fun _ n => n.getSeq = seq := ⟨hse, fun _ _ _ h => h⟩
    exact holds_add_inner hd trivial
  · simp [find_empty]

/-- Every way to read agrees with the entries. -/
structure Reads (m : SHAMap) (f : Family) (a : OrderedMap UInt256 Blob) : Prop where
  hasItem : ∀ k, m.hasItem k f = .ok ((a.find k).isSome, f)
  peekItem : ∀ k, m.peekItem k f = .ok ((a.find k).map (SHAMapItem.mk k), f)
  peekNextItem : ∀ k, ∃ o, m.peekNextItem k f = .ok (o, f) ∧
    o.elim (∀ e ∈ a.entries, ¬k < e.1) fun x => (x.key, x.data) ∈ a.entries ∧ k < x.key ∧
      ∀ e ∈ a.entries, k < e.1 → x.key ≤ e.1
  peekPrevItem : ∀ k, ∃ o, m.peekPrevItem k f = .ok (o, f) ∧
    o.elim (∀ e ∈ a.entries, ¬e.1 < k) fun x => (x.key, x.data) ∈ a.entries ∧ x.key < k ∧
      ∀ e ∈ a.entries, e.1 < k → e.1 ≤ x.key
  peekFirstItem : ∃ o, m.peekFirstItem f = .ok (o, f) ∧
    o.elim (a.entries = []) fun x => (x.key, x.data) ∈ a.entries ∧ ∀ e ∈ a.entries, x.key ≤ e.1
  peekLastItem : ∃ o, m.peekLastItem f = .ok (o, f) ∧
    o.elim (a.entries = []) fun x => (x.key, x.data) ∈ a.entries ∧ ∀ e ∈ a.entries, e.1 ≤ x.key
  visitLeaves : ∀ {σ : Type} (leafFunction : SHAMapItem → σ → σ) (s : σ), ∃ steps, ∀ fuel,
    steps ≤ fuel → m.visitLeaves fuel leafFunction s f =
      .ok (a.entries.foldl (fun s e => leafFunction ⟨e.1, e.2⟩ s) s, f)

namespace Content

section

variable (h : m.Content f t a)
include h

theorem mem_entries_iff (x : SHAMapItem) : (x.key, x.data) ∈ a.entries ↔ x ∈ t.items := by
  rw [h.mem_iff, find_eq_some_iff]

theorem entries_eq : a.entries = t.items.map fun x => (x.key, x.data) := by
  have hso : (t.items.map fun x => (x.key, x.data)).Pairwise fun e e' => e.1 < e'.1 :=
    List.pairwise_map.mpr (h.rooted.placed.pairwise_items lexOrder_lt (RadixTree.uniform_zero t))
  have hf : ∀ k, a.find k = (⟨_, hso⟩ : OrderedMap UInt256 Blob).find k := by
    intro k
    ext d
    rw [find_eq_some_iff, find_eq_some_iff, h.mem_entries_iff ⟨k, d⟩, List.mem_map]
    constructor
    · intro hm
      exact ⟨_, hm, rfl⟩
    · rintro ⟨x, hm, hx⟩
      cases hx
      exact hm
  exact entries_eq_of_find hf

theorem exists_item_of_entry {e : UInt256 × Blob} (he : e ∈ a.entries) :
    ∃ x ∈ t.items, x.key = e.1 :=
  ⟨⟨e.1, e.2⟩, (h.mem_entries_iff ⟨e.1, e.2⟩).mp he, rfl⟩

variable {R : UInt256 → UInt256 → Prop} {o : Option SHAMapItem}

theorem isNext_entries {k : UInt256} (hn : t.IsNext R k o) :
    o.elim (∀ e ∈ a.entries, ¬R k e.1) fun x => (x.key, x.data) ∈ a.entries ∧ R k x.key ∧
      ∀ e ∈ a.entries, R k e.1 → e.1 = x.key ∨ R x.key e.1 := by
  cases o with
  | none =>
    intro e he
    obtain ⟨x, hx, hk⟩ := h.exists_item_of_entry he
    rw [← hk]
    exact hn x hx
  | some y =>
    refine ⟨(h.mem_entries_iff y).mpr hn.1, hn.2.1, fun e he ha => ?_⟩
    obtain ⟨x, hx, hk⟩ := h.exists_item_of_entry he
    rw [← hk] at ha ⊢
    exact (hn.2.2 x hx ha).imp (congrArg SHAMapItem.key) id

theorem isFirst_entries (hfs : o.elim (t.items = []) (t.IsFirst R)) :
    o.elim (a.entries = []) fun x => (x.key, x.data) ∈ a.entries ∧
      ∀ e ∈ a.entries, e.1 = x.key ∨ R x.key e.1 := by
  cases o with
  | none =>
    have hni : t.items = [] := hfs
    rw [h.entries_eq, hni]
    rfl
  | some y =>
    refine ⟨(h.mem_entries_iff y).mpr hfs.1, fun e he => ?_⟩
    obtain ⟨x, hx, hk⟩ := h.exists_item_of_entry he
    rw [← hk]
    exact (hfs.2 x hx).imp (congrArg SHAMapItem.key) id

theorem reads : m.Reads f a where
  hasItem k := by
    rw [hasItem_run k h.holds h.rooted.placed, h.lookup_eq, isSome_map]
  peekItem k := by
    rw [peekItem_run k h.holds h.rooted.placed, h.lookup_eq]
  peekNextItem k := by
    obtain ⟨o, hr, hn⟩ := peekNextItem_run k h.holds h.rooted
    refine ⟨o, hr, ?_⟩
    cases o with
    | none => exact h.isNext_entries hn
    | some x =>
      obtain ⟨hm, ha, hl⟩ := h.isNext_entries hn
      exact ⟨hm, ha, fun e he hlt => (hl e he hlt).elim ge_of_eq le_of_lt⟩
  peekPrevItem k := by
    obtain ⟨o, hr, hn⟩ := peekPrevItem_run k h.holds h.rooted
    refine ⟨o, hr, ?_⟩
    cases o with
    | none => exact h.isNext_entries hn
    | some x =>
      obtain ⟨hm, ha, hl⟩ := h.isNext_entries hn
      exact ⟨hm, ha, fun e he hlt => (hl e he hlt).elim le_of_eq le_of_lt⟩
  peekFirstItem := by
    obtain ⟨o, hr, hfs⟩ := peekFirstItem_run h.holds h.rooted
    refine ⟨o, hr, ?_⟩
    have hes := h.isFirst_entries hfs
    cases o with
    | none => exact hes
    | some x => exact ⟨hes.1, fun e he => (hes.2 e he).elim ge_of_eq le_of_lt⟩
  peekLastItem := by
    obtain ⟨o, hr, hfs⟩ := peekLastItem_run h.holds h.rooted
    refine ⟨o, hr, ?_⟩
    have hes := h.isFirst_entries hfs
    cases o with
    | none => exact hes
    | some x => exact ⟨hes.1, fun e he => (hes.2 e he).elim le_of_eq le_of_lt⟩
  visitLeaves leafFunction s := by
    obtain ⟨-, c, rfl, -⟩ := id h.rooted
    obtain ⟨steps, hst⟩ := visitLeaves_run leafFunction h.holds s
    refine ⟨steps, fun fuel hfu => ?_⟩
    rw [hst fuel hfu, h.entries_eq, List.foldl_map]

end

end Content

/-- Whatever is done to a new map, the changes return what they return for the ordered map, and it
reads as the ordered map. -/
theorem changeAll_refines (f : Family) (hfr : f.Fresh) (seq : ℕ) (hse : seq ≠ 0)
    (cs : List Change) :
    ∃ m f', (make seq >>= fun m => m.changeAll cs) f =
        .ok (((Change.applyAll .empty cs).1, m), f') ∧
      m.Reads f' (Change.applyAll .empty cs).2 := by
  obtain ⟨m0, f0, hma, h0⟩ := make_run hfr hse
  obtain ⟨m, f', t, hr, h, -⟩ := changeAll_run h0 cs
  refine ⟨m, f', ?_, h.reads⟩
  rw [run_bind hma]
  exact hr

end Refinement

def noNodes : Family where
  object _ := none
  next := 0
  treecache _ := none
  db _ := none
  fullbelow _ := false
  generation := 0

/-- Two keys that part at the third digit; one goes. -/
def sampleChanges : List Change :=
  [.addGiveItem ⟨0x120#256 <<< 244, [1]⟩ false false,
    .addGiveItem ⟨0x123#256 <<< 244, [2]⟩ false false,
    .addGiveItem ⟨0x123#256 <<< 244, [3]⟩ false false,
    .updateGiveItem ⟨0x123#256 <<< 244, [4]⟩ false false,
    .delItem (0x120#256 <<< 244),
    .delItem (0x120#256 <<< 244)]

theorem sampleChanges_refine :
    let _ : Sha512Half := ⟨fun _ => 0⟩
    noNodes.Fresh ∧ ∃ m f', (make 1 >>= fun m => m.changeAll sampleChanges) noNodes =
        .ok (([true, true, false, true, true, false], m), f') ∧
      m.Reads f' (Change.applyAll .empty sampleChanges).2 := by
  intro _
  exact ⟨fun _ _ => rfl, changeAll_refines noNodes (fun _ _ => rfl) 1 (by decide) sampleChanges⟩

end SHAMap

end Sand
