import Sand.SHAMap.Lookup

/-!
# Changes to a map

Only own nodes on the path of the key are changed in place, everything else is new.
-/

namespace Sand

open Family Function SHAMapInnerNode

/-- Nothing is stored behind the last node made. -/
def Family.Fresh (f : Family) : Prop := ∀ r : ℕ, f.next ≤ r → f.object r = none

variable {seq : ℕ} {mine : NodeRef → Prop} {f f1 : Family} {r x : ℕ} {n : SHAMapAbstractNode}
  {o : Option NodeRef}

theorem Family.Fresh.lt (h : f.Fresh) (hn : f.object r = some n) : r < f.next := by
  by_contra hle
  rw [h r (Nat.le_of_not_lt hle)] at hn
  cases hn

def OccursIn (f : Family) (o : Option NodeRef) (x : ℕ) : Prop :=
  ∃ r, o = some r ∧ Occurs f r x

theorem occursIn_some : OccursIn f (some r) x ↔ Occurs f r x := by
  simp [OccursIn]

theorem occursIn_none : ¬OccursIn f none x := by
  simp [OccursIn]

/-- A node that the map changes in place. -/
def Owned (f : Family) (seq : ℕ) (mine : NodeRef → Prop) (x : ℕ) : Prop :=
  mine x ∧ ∃ n, f.object x = some n ∧ n.getSeq = seq

/-- Only own nodes of the old subtree are changed, and the new one rests on old nodes and
new ones. -/
structure Reworks (seq : ℕ) (mine : NodeRef → Prop) (f f' : Family) (o o' : Option NodeRef) :
    Prop where
  next_le : f.next ≤ f'.next
  fresh : f'.Fresh
  rest : f' = { f with object := f'.object, next := f'.next }
  object : ∀ x : ℕ, x < f.next → ¬(OccursIn f o x ∧ Owned f seq mine x) → f'.object x = f.object x
  occurs : ∀ x : ℕ, OccursIn f' o' x → f.next ≤ x ∨ OccursIn f o x

namespace Reworks

variable {f2 : Family} {o1 o2 : Option NodeRef}

theorem trans (h : Reworks seq mine f f1 o o1) (h' : Reworks seq mine f1 f2 o1 o2) :
    Reworks seq mine f f2 o o2 where
  next_le := h.next_le.trans h'.next_le
  fresh := h'.fresh
  rest := by rw [h'.rest, h.rest]
  object := by
    intro x hx hno
    have hsa := h.object x hx hno
    rw [← hsa]
    refine h'.object x (lt_of_lt_of_le hx h.next_le) ?_
    rintro ⟨hoc, hm, n, hn, hse⟩
    rcases h.occurs x hoc with hle | hoc
    · omega
    · exact hno ⟨hoc, hm, n, hsa ▸ hn, hse⟩
  occurs := by
    intro x hx
    rcases h'.occurs x hx with hle | hoc
    · exact .inl (h.next_le.trans hle)
    · exact h.occurs x hoc

theorem refl (hfr : f.Fresh) (o : Option NodeRef) : Reworks seq mine f f o o :=
  ⟨le_refl _, hfr, rfl, fun _ _ _ => rfl, fun _ hx => .inr hx⟩

theorem drop (hfr : f.Fresh) (o : Option NodeRef) : Reworks seq mine f f o none :=
  ⟨le_refl _, hfr, rfl, fun _ _ _ => rfl, fun _ hx => absurd hx occursIn_none⟩

theorem add (hfr : f.Fresh) (hn : ∀ i b, n = .inner i → i.mChildren b = none) :
    Reworks seq mine f (f.add n) none (some f.next) where
  next_le := Nat.le_succ _
  fresh := by
    intro x hx
    rw [next_add] at hx
    rw [object_add_ne _ _ (Nat.ne_of_gt hx)]
    exact hfr x (by omega)
  rest := rfl
  object x hx _ := object_add_ne _ _ (Nat.ne_of_lt hx)
  occurs := by
    intro x hx
    refine .inl (Nat.le_of_eq ?_)
    cases occursIn_some.mp hx with
    | refl => rfl
    | child hob hi _ =>
      rw [object_add_self] at hob
      rw [hn _ _ (Option.some.inj hob)] at hi
      cases hi

theorem of_none (h : Reworks seq mine f f1 none o1) : Reworks seq mine f f1 o o1 where
  next_le := h.next_le
  fresh := h.fresh
  rest := h.rest
  object x hx _ := h.object x hx fun hoc => occursIn_none hoc.1
  occurs x hx := (h.occurs x hx).imp id fun hoc => absurd hoc occursIn_none

end Reworks

namespace SHAMap

variable [Sha512Half]

/-- With a new root, if the place is the root's. -/
def atPlace (m : SHAMap) (nodeID : SHAMapNodeID) (r : NodeRef) : SHAMap :=
  if nodeID.isRoot then { m with root_ := r } else m

variable {c : Fin 16 → Tree} {t : Tree} {nodeID : SHAMapNodeID}

omit [Sha512Half] in
@[simp]
theorem seq_atPlace (m : SHAMap) (nid : SHAMapNodeID) (r : NodeRef) :
    (m.atPlace nid r).seq_ = m.seq_ := by
  unfold atPlace
  split <;> rfl

/-- The node itself is the map's own, or a copy is new. -/
structure Unshares (seq : ℕ) (mine : NodeRef → Prop) (f f1 : Family) (r r1 : ℕ)
    (n : SHAMapAbstractNode) : Prop where
  next_le : f.next ≤ f1.next
  fresh : f1.Fresh
  rest : f1 = { f with object := f1.object, next := f1.next }
  object : ∀ x : ℕ, x < f.next → f1.object x = f.object x
  copy : f1.object r1 = some (n.clone seq)
  mine : mine r1
  place : (r1 = r ∧ n.getSeq = seq) ∨ f.next ≤ r1

variable {m : SHAMap} {L : NodeProp}

section

omit [Sha512Half]

theorem clone_getSeq (n : SHAMapAbstractNode) : n.clone n.getSeq = n := by
  cases n <;> rfl

theorem fresh_add (h : f.Fresh) (n : SHAMapAbstractNode) : (f.add n).Fresh := by
  intro x hx
  rw [next_add] at hx
  rw [object_add_ne _ _ (Nat.ne_of_gt hx)]
  exact h x (by omega)

theorem fresh_put (h : f.Fresh) (hr : r < f.next) (n : SHAMapAbstractNode) : (f.put r n).Fresh := by
  intro x hx
  rw [next_put] at hx
  rw [object_put_ne _ _ (Nat.ne_of_gt (by omega))]
  exact h x hx

theorem unshareNode_own (nid : SHAMapNodeID) (hn : f.object r = some n)
    (hse : n.getSeq = m.seq_) : m.unshareNode r nid f = .ok ((r, m), f) := by
  rw [unshareNode, run_bind (load_eq hn), if_neg (not_not_intro hse)]
  rfl

theorem unshareNode_run (nid : SHAMapNodeID) (hn : f.object r = some n) (hfr : f.Fresh)
    (how : n.getSeq = m.seq_ → mine r) (hnw : ∀ x : ℕ, f.next ≤ x → mine x)
    (hro : nid.isRoot → m.root_ = r) :
    ∃ (f1 : Family) (r1 : ℕ), m.unshareNode r nid f = .ok ((r1, m.atPlace nid r1), f1) ∧
      Unshares m.seq_ mine f f1 r r1 n := by
  have hlt := hfr.lt hn
  by_cases hse : n.getSeq = m.seq_
  · have hp : m.atPlace nid r = m := by
      unfold atPlace
      split
      · next hye => rw [← hro hye]
      · rfl
    refine ⟨f, r, ?_, ?_⟩
    · rw [unshareNode_own nid hn hse, hp]
    · refine ⟨le_refl _, hfr, rfl, fun _ _ => rfl, ?_, how hse, .inl ⟨rfl, hse⟩⟩
      rw [hn, ← hse, clone_getSeq]
  · refine ⟨f.add (n.clone m.seq_), f.next, ?_, ?_⟩
    · rw [unshareNode, run_bind (load_eq hn), if_pos hse]
      rfl
    refine ⟨Nat.le_succ _, fresh_add hfr _, rfl, ?_, object_add_self _ _,
      hnw _ (le_refl _), .inr (le_refl _)⟩
    intro x hx
    exact object_add_ne _ _ (Nat.ne_of_lt hx)

end

theorem holds_put_setChild (hseq0 : seq ≠ 0) {n : SHAMapInnerNode} {b : Fin 16}
    (hm : mine r) (hse : n.mSeq = seq) (hL : ∀ n : SHAMapAbstractNode, n.getSeq = seq → L r n)
    (hsl : ∀ j, j ≠ b → n.mIsBranch j = (n.mChildren j).isSome ∧
      Slot f (NodeOk f seq mine L) (c j) (n.mChildren j))
    (hu : ∀ j, n.mIsBranch j = false → n.mHashes j = 0)
    (hch : Slot f (NodeOk f seq mine L) t o)
    (hno : ∀ j q, j ≠ b → n.mChildren j = some q → ¬Occurs f q r) (hno' : ¬OccursIn f o r) :
    Holds (f.put r (.inner (n.setChild b o))) seq mine L (.inner (Function.update c b t)) r := by
  have hf : ∀ {q : NodeRef}, ¬Occurs f q r → ∀ x, Occurs f q x →
      (f.put r (.inner (n.setChild b o))).object x = f.object x := by
    intro q hq x hx
    refine object_put_ne _ _ ?_
    rintro rfl
    exact hq hx
  refine ⟨n.setChild b o, object_put_self _ _ _, ?_, fun j => ?_⟩
  · refine ⟨hL _ hse, fun _ => hm, nofun, ?_, ?_, ?_⟩
    · rintro _ ⟨⟩ j hj
      simp only [setChild, update_apply] at hj ⊢
      split at hj
      · next heq => rw [if_pos heq]
      · next hne => rw [if_neg hne, hu j hj]
    · intro hne
      exact absurd rfl hne
    · intro hz
      exact absurd (hse.symm.trans hz) hseq0
  · obtain rfl | hj := eq_or_ne j b
    · simp only [setChild, update_self]
      refine ⟨trivial, ?_⟩
      cases o with
      | none => exact hch
      | some q => exact Holds.frame hch (hf fun hq => hno' (occursIn_some.mpr hq))
    · simp only [setChild, update_of_ne hj]
      obtain ⟨hb, hso⟩ := hsl j hj
      refine ⟨hb, ?_⟩
      cases hc : n.mChildren j with
      | none =>
        rw [hc] at hso
        exact hso
      | some q =>
        rw [hc] at hso
        exact Holds.frame hso (hf (hno j q hj hc))

/-- What is fixed while a map changes its tree. -/
structure Discipline (seq : ℕ) (mine : NodeRef → Prop) (L : NodeRef → SHAMapAbstractNode → Prop) :
    Prop where
  seq_ne : seq ≠ 0
  extra : ∀ x n, mine x → n.getSeq = seq → L x n

/-- Another tree at the root, and only own nodes changed. -/
structure Changes (m : SHAMap) (mine : NodeRef → Prop) (L : NodeRef → SHAMapAbstractNode → Prop)
    (f : Family) (m' : SHAMap) (f' : Family) (t' : Tree) : Prop where
  map : m' = { m with root_ := m'.root_ }
  reworks : Reworks m.seq_ mine f f' (some m.root_) (some m'.root_)
  holds : Holds f' m.seq_ mine L t' m'.root_
  rooted : t'.Rooted

theorem Changes.refl (hfr : f.Fresh) (h : Holds f m.seq_ mine L t m.root_) (hrt : t.Rooted) :
    Changes m mine L f m f t :=
  ⟨rfl, .refl hfr _, h, hrt⟩

omit [Sha512Half] in
theorem lt_of_occurs {P : TreeProp}
    (hfr : f.Fresh) (h : Represents f P t r) (hx : Occurs f r x) : x < f.next := by
  obtain ⟨s, hs, -⟩ := h.of_occurs hx
  obtain ⟨n, hn, -⟩ := hs.object
  exact hfr.lt hn

theorem replaceChild_run (nid : SHAMapNodeID) (hd : Discipline m.seq_ mine L) {b : Fin 16}
    {d : ℕ} {n : SHAMapInnerNode} (hfr : f.Fresh)
    (hnw : ∀ x : ℕ, f.next ≤ x → mine x) (h : Holds f m.seq_ mine L (.inner c) r)
    (hpl : (RadixTree.inner c).Placed d) (hde : ∀ i, (c i).Dense)
    (hn : f.object r = some (.inner n)) (hre : Reworks m.seq_ mine f f1 (n.mChildren b) o)
    (hch : Slot f1 (NodeOk f1 m.seq_ mine L) t o) (hro : nid.isRoot → m.root_ = r) :
    ∃ f2 r2 n2, m.replaceChild r nid b o f1 = .ok ((r2, m.atPlace nid r2), f2) ∧
      Reworks m.seq_ mine f f2 (some r) (some r2) ∧
      Holds f2 m.seq_ mine L (.inner (Function.update c b t)) r2 ∧
      f2.object r2 = some (.inner n2) ∧ n2.mSeq = m.seq_ ∧ mine r2 := by
  have hlt := hfr.lt hn
  have hsl := h.slots hn
  have hrn : ∀ i, ¬OccursIn f (n.mChildren i) r := by
    rintro i ⟨q, hq, hoc⟩
    exact h.not_occurs_child hn hq hoc
  have hn1 : f1.object r = some (.inner n) := (hre.object r hlt fun hoc => hrn b hoc.1).trans hn
  have hok := h.of_object hn
  obtain ⟨f1', r2, run, hun⟩ := unshareNode_run (m := m) nid hn1 hre.fresh hok.own
    (fun x hx => hnw x (hre.next_le.trans hx)) hro
  have hpo : r2 < f1'.next := hun.fresh.lt hun.copy
  -- the other children are as they were
  have hsi : ∀ j q, j ≠ b → n.mChildren j = some q → ∀ x, Occurs f q x →
      f1'.object x = f.object x := by
    intro j q hj hq x hx
    have hso := (hsl j).2.child hq
    have hxl : x < f.next := lt_of_occurs hfr hso hx
    rw [hun.object x (lt_of_lt_of_le hxl hre.next_le)]
    refine hre.object x hxl fun hoc => ?_
    obtain ⟨q', hq', hx'⟩ := hoc.1
    exact h.disjoint hpl hde hn hq' hq (Ne.symm hj) hx' hx
  -- the changed child is as its own change left it
  have hnc : ∀ q, o = some q → ∀ x, Occurs f1 q x → f1'.object x = f1.object x := by
    rintro q rfl x hx
    exact hun.object x (lt_of_occurs hre.fresh hch hx)
  have hnot2 : ∀ j q, j ≠ b → n.mChildren j = some q → ¬Occurs f1' q r2 := by
    intro j q hj hq hoc
    have hoc' := hoc.of_frame (hsi j q hj hq)
    rcases hun.place with ⟨rfl, -⟩ | hle
    · exact hrn j ⟨q, hq, hoc'⟩
    have hso := (hsl j).2.child hq
    have hr2 : r2 < f.next := lt_of_occurs hfr hso hoc'
    have := hre.next_le
    omega
  have hnot2' : ¬OccursIn f1' o r2 := by
    rintro ⟨q, rfl, hoc⟩
    have hoc' := hoc.of_frame (hnc q rfl)
    rcases hun.place with ⟨rfl, -⟩ | hle
    · rcases hre.occurs r2 (occursIn_some.mpr hoc') with hle | hoc''
      · omega
      · exact hrn b hoc''
    · have hr2 : r2 < f1.next := lt_of_occurs hre.fresh hch hoc'
      omega
  refine ⟨f1'.put r2 (.inner ((n.clone m.seq_).setChild b o)), r2,
    (n.clone m.seq_).setChild b o, ?_, ?_, ?_, object_put_self _ _ _, rfl, hun.mine⟩
  · rw [replaceChild, run_bind run]
    dsimp only
    rw [run_bind (loadInner_eq hun.copy)]
    rfl
  · refine ⟨hre.next_le.trans hun.next_le, fresh_put hun.fresh hpo _, ?_, ?_, ?_⟩
    · rw [Family.put, hun.rest, hre.rest]
    · intro x hx hnt
      have hxr : x ≠ r2 := by
        rintro rfl
        rcases hun.place with ⟨rfl, hse⟩ | hle
        · exact hnt ⟨occursIn_some.mpr (.refl _), hun.mine, _, hn, hse⟩
        · have := hre.next_le
          omega
      rw [object_put_ne _ _ hxr, hun.object x (lt_of_lt_of_le hx hre.next_le)]
      refine hre.object x hx fun hoc => hnt ⟨?_, hoc.2⟩
      obtain ⟨q, hq, hx'⟩ := hoc.1
      exact occursIn_some.mpr (.child hn hq hx')
    · intro x hx
      rcases (occursIn_some.mp hx).cases_inner (object_put_self _ _ _) with rfl | ⟨j, q, hj, hoc⟩
      · rcases hun.place with ⟨rfl, -⟩ | hle
        · exact .inr (occursIn_some.mpr (.refl _))
        · exact .inl (hre.next_le.trans hle)
      have hbk : ¬Occurs f1' q r2 → Occurs f1' q x := by
        intro hnq
        refine hoc.of_frame fun y hy => object_put_ne _ _ ?_
        rintro rfl
        exact hnq hy
      obtain rfl | hjb := eq_or_ne j b
      · simp only [setChild, update_self] at hj
        have hocc1 := (hbk fun hq => hnot2' ⟨q, hj, hq⟩).of_frame (hnc q hj)
        rcases hre.occurs x ⟨q, hj, hocc1⟩ with hle | ⟨q', hq', hx'⟩
        · exact .inl hle
        · exact .inr (occursIn_some.mpr (.child hn hq' hx'))
      · simp only [setChild, update_of_ne hjb] at hj
        have hocc1 := (hbk (hnot2 j q hjb hj)).of_frame (hsi j q hjb hj)
        exact .inr (occursIn_some.mpr (.child hn hj hocc1))
  · refine holds_put_setChild hd.seq_ne hun.mine rfl (fun n' hn' => hd.extra _ _ hun.mine hn')
      (fun j hj => ⟨(hsl j).1, ?_⟩) (hok.unused n rfl) ?_ hnot2 hnot2'
    · refine Slot.imp (hsl j).2 fun q hq hso => ?_
      exact Holds.frame hso (hsi j q hj hq)
    cases ho : o with
    | none =>
      rw [ho] at hch
      exact hch
    | some q =>
      rw [ho] at hch
      exact Holds.frame hch (hnc q ho)

section

omit [Sha512Half]

theorem getNodeHash_clone (n : SHAMapAbstractNode) (seq : ℕ) :
    (n.clone seq).getNodeHash = n.getNodeHash := by
  cases n <;> rfl

theorem getSeq_clone (n : SHAMapAbstractNode) (seq : ℕ) : (n.clone seq).getSeq = seq := by
  cases n <;> rfl

end

theorem hashes_clone {q : NodeRef} (seq : ℕ) (h : Hashes r n t) : Hashes q (n.clone seq) t := by
  refine ⟨(getNodeHash_clone n seq).trans h.1, fun i c hi hc j => ?_⟩
  cases n with
  | leaf l => cases hi
  | inner i' =>
    cases hi
    exact h.2 i' c rfl hc j

theorem Unshares.holds (hd : Discipline seq mine L) {r1 : ℕ} (hfr : f.Fresh)
    (h : Holds f seq mine L t r) (hn : f.object r = some n) (hun : Unshares seq mine f f1 r r1 n) :
    Holds f1 seq mine L t r1 ∧ Reworks seq mine f f1 (some r) (some r1) := by
  have hf : ∀ x, Occurs f r x → f1.object x = f.object x :=
    fun x hx => hun.object x (lt_of_occurs hfr h hx)
  constructor
  · refine h.clone hn hun.copy hf ?_ fun x n s hx hok => ?_
    · intro hok
      refine ⟨hd.extra _ _ hun.mine (getSeq_clone n seq), fun _ => hun.mine, ?_, ?_, ?_, ?_⟩
      · intro l hl
        cases n with
        | leaf l' =>
          cases hl
          exact hok.leaf l' rfl
        | inner i => cases hl
      · intro i hi
        cases n with
        | leaf l => cases hi
        | inner i' =>
          cases hi
          exact hok.unused i' rfl
      · intro hne
        rw [getNodeHash_clone] at hne
        exact (hok.hashed hne).clone hn hun.copy hf (hashes_clone seq) fun _ _ _ _ => id
      · intro hz
        rw [getSeq_clone] at hz
        exact absurd hz hd.seq_ne
    · exact hok.frame fun y hy => hf y (hx.trans hy)
  · refine ⟨hun.next_le, hun.fresh, hun.rest, fun x hx _ => hun.object x hx, fun x hx => ?_⟩
    have hoc := occursIn_some.mp hx
    rcases hun.place with ⟨rfl, -⟩ | hle
    · exact .inr (occursIn_some.mpr (hoc.of_frame hf))
    cases hoc with
    | refl => exact .inl hle
    | @child _ q _ i b hob hi hq =>
      rw [hun.copy] at hob
      cases n with
      | leaf l => cases hob
      | inner i' =>
        cases hob
        refine .inr (occursIn_some.mpr (.child hn hi (hq.of_frame fun y hy => ?_)))
        exact hf y (.child hn hi hy)

section

omit [Sha512Half]

theorem atPlace_of_not_root (h : nodeID.isRoot = false) (r : NodeRef) : m.atPlace nodeID r = m := by
  rw [atPlace, h]
  rfl

theorem dirtyUp_cons {k : UInt256} {stk : NodeStack} {r1 ch : NodeRef} {m' : SHAMap}
    (h : m.replaceChild r nodeID (nodeID.selectBranch k) (some ch) f = .ok ((r1, m'), f1)) :
    m.dirtyUp k ((r, nodeID) :: stk) ch f = m'.dirtyUp k stk r1 f1 := by
  rw [dirtyUp, run_bind h]

end

theorem dirtyUp_step (hd : Discipline m.seq_ mine L) {d : ℕ} {ch : NodeRef} {k : UInt256}
    (hfr : f.Fresh) (hnw : ∀ x : ℕ, f.next ≤ x → mine x)
    (h : Holds f m.seq_ mine L (.inner c) r) (hpl : (RadixTree.inner c).Placed d)
    (hde : ∀ i, (c i).Dense) (hro : nodeID.isRoot → m.root_ = r)
    (hre : Reworks m.seq_ mine f f1 (f.childAt r (nodeID.selectBranch k)) (some ch))
    (ht : Holds f1 m.seq_ mine L t ch) (stk : NodeStack) :
    ∃ f2 r2, m.dirtyUp k ((r, nodeID) :: stk) ch f1 = (m.atPlace nodeID r2).dirtyUp k stk r2 f2 ∧
      Reworks m.seq_ mine f f2 (some r) (some r2) ∧
      Holds f2 m.seq_ mine L (.inner (Function.update c (nodeID.selectBranch k) t)) r2 := by
  obtain ⟨n, hn, -⟩ := id h
  rw [childAt_eq hn] at hre
  obtain ⟨f2, r2, -, run, hre2, hh, -⟩ := replaceChild_run (m := m) nodeID hd hfr hnw
    h hpl hde hn hre (slot_some_iff.mpr ht) hro
  exact ⟨f2, r2, dirtyUp_cons run, hre2, hh⟩

end SHAMap

end Sand
