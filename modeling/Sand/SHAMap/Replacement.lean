import Sand.SHAMap.Deletion

/-!
# Replacing an item

The leaf of a key takes another item.
-/

namespace Sand

open Family Function SHAMapTreeNode RadixTree

namespace Tree

variable [Sha512Half]

theorem digest_update {c : Fin 16 → Tree} {b : Fin 16} {t : Tree} (h : t.digest = (c b).digest)
    (he : t.isEmpty = (c b).isEmpty) :
    (∀ j, (Function.update c b t j).digest = (c j).digest) ∧
      digest (.inner (Function.update c b t)) = digest (.inner c) := by
  have hdg : ∀ j, (update c b t j).digest = (c j).digest := by
    intro j
    obtain rfl | hj := eq_or_ne j b
    · rw [update_self, h]
    · rw [update_of_ne hj]
  have hisEmpty : ∀ j, (update c b t j).isEmpty = (c j).isEmpty := by
    intro j
    obtain rfl | hj := eq_or_ne j b
    · rw [update_self, he]
    · rw [update_of_ne hj]
  refine ⟨hdg, ?_⟩
  simp [digest, hdg, hisEmpty]

end Tree

variable {f : Family} {t : Tree} {r q : NodeRef} {qid : SHAMapNodeID} {tail : SHAMap.NodeStack}
  {leaf leaf' : SHAMapTreeNode}

section InPlace

variable {P Q : TreeProp} {nodeID : SHAMapNodeID}

open SHAMap

/-- Changed in place, with a property other nodes keep. -/
theorem Represents.put_leaf (hq : f.object q = some (.leaf leaf))
    (hke : leaf.mItem.key = leaf'.mItem.key) (h : Represents f P t r)
    (hpl : t.Placed nodeID.mDepth) (hd : ∀ c, t = .inner c → ∀ i, (c i).Dense)
    (htr : trace f leaf'.mItem.key t r nodeID = (q, qid) :: tail)
    (hle : P q (.leaf leaf) (.leaf leaf.mType leaf.mItem) →
      Q q (.leaf leaf') (.leaf leaf'.mType leaf'.mItem))
    (hin : ∀ x xid n c tail, Represents f P (.inner c) x →
      (inner c).Placed xid.mDepth → (∀ i, (c i).Dense) →
      trace f leaf'.mItem.key (.inner c) x xid = (q, qid) :: tail →
      P x (.inner n) (.inner c) →
      Q x (.inner n) ((inner c).replace leaf'.mType leaf'.mItem xid.mDepth))
    (hsi : ∀ x n s, ¬Occurs f x q → P x n s → Q x n s) :
    Represents (f.put q (.leaf leaf')) Q (t.replace leaf'.mType leaf'.mItem nodeID.mDepth) r := by
  induction t generalizing r nodeID tail with
  | empty => cases h
  | leaf type item =>
    cases htr
    obtain ⟨n, hn, rfl, rfl, hP⟩ := h
    rw [hq] at hn
    cases hn
    have hrp : (RadixTree.leaf leaf.mType leaf.mItem : Tree).replace leaf'.mType leaf'.mItem
        qid.mDepth = .leaf leaf'.mType leaf'.mItem := if_pos hke
    rw [hrp]
    exact ⟨leaf', object_put_self _ _ _, rfl, rfl, hle hP⟩
  | inner c ih =>
    obtain ⟨n, hn, hP, hss⟩ := id h
    obtain ⟨q1, tail', hch, htr', -⟩ := trace_inner hn htr hq
    have hrq : r ≠ q := by
      rintro rfl
      rw [hn] at hq
      cases hq
    have hso := Slot.child (hss _).2 hch
    have hrp : (inner c).replace leaf'.mType leaf'.mItem nodeID.mDepth =
        .inner (update c (nodeID.selectBranch leaf'.mItem.key)
          ((c (nodeID.selectBranch leaf'.mItem.key)).replace leaf'.mType leaf'.mItem
            (nodeID.mDepth + 1))) := rfl
    rw [hrp]
    refine ⟨n, (object_put_ne _ _ hrq).trans hn, hin r nodeID n c tail h hpl (hd c rfl)
      htr hP, fun j => ⟨(hss j).1, ?_⟩⟩
    by_cases hj : j = nodeID.selectBranch leaf'.mItem.key
    · subst hj
      rw [hch, update_self]
      have hb := ih _ hso (hpl.2 _).2 (fun c' hc' i => by
        have := hd c rfl (nodeID.selectBranch leaf'.mItem.key)
        rw [hc'] at this
        exact this.2 i) htr'
      exact hb
    · rw [update_of_ne hj]
      have ho : Slot f P (c j) (n.mChildren j) := (hss j).2
      cases hq2 : n.mChildren j with
      | none =>
        rw [hq2] at ho
        exact ho
      | some q2 =>
        rw [hq2] at ho
        have hnt : ¬Occurs f q2 q :=
          h.disjoint hpl (hd c rfl) hn hch hq2 (Ne.symm hj) (leaf_of_trace hso htr' hq).1
        refine Represents.frame ho (fun x hx => object_put_ne _ _ ?_) fun x n' s hx => ?_
        · rintro rfl
          exact hnt hx
        · exact hsi x n' s fun hoc => hnt (hx.trans hoc)

theorem replace_eq_self (hq : f.object q = some (.leaf leaf)) (h : Represents f P t r)
    (htr : trace f leaf.mItem.key t r nodeID = (q, qid) :: tail) :
    t.replace leaf.mType leaf.mItem nodeID.mDepth = t := by
  induction t generalizing r nodeID tail with
  | empty => cases h
  | leaf type item =>
    cases htr
    obtain ⟨n, hn, rfl, rfl, -⟩ := h
    rw [hq] at hn
    cases hn
    exact if_pos rfl
  | inner c ih =>
    obtain ⟨n, hn, -, hss⟩ := h
    obtain ⟨q1, tail', hch, htr', -⟩ := trace_inner hn htr hq
    have hso := Slot.child (hss _).2 hch
    refine congrArg inner ?_
    exact (congrArg _ (ih _ hso htr')).trans (update_eq_self _ _)

section Hashes

variable [Sha512Half]

theorem digest_replace (hq : f.object q = some (.leaf leaf))
    (hke : leaf.mItem.key = leaf'.mItem.key)
    (hh : hashOf leaf'.mType leaf'.mItem = hashOf leaf.mType leaf.mItem) (h : Represents f P t r)
    (htr : trace f leaf'.mItem.key t r nodeID = (q, qid) :: tail) :
    Tree.digest (t.replace leaf'.mType leaf'.mItem nodeID.mDepth) = t.digest := by
  induction t generalizing r nodeID tail with
  | empty => cases h
  | leaf type item =>
    cases htr
    obtain ⟨n, hn, rfl, rfl, -⟩ := h
    rw [hq] at hn
    cases hn
    have hrp : (RadixTree.leaf leaf.mType leaf.mItem : Tree).replace leaf'.mType leaf'.mItem
        qid.mDepth = .leaf leaf'.mType leaf'.mItem := if_pos hke
    rw [hrp]
    exact hh
  | inner c ih =>
    obtain ⟨n, hn, -, hss⟩ := h
    obtain ⟨q1, tail', hch, htr', -⟩ := trace_inner hn htr hq
    have hso := Slot.child (hss _).2 hch
    exact (Tree.digest_update (ih _ hso htr') (isEmpty_replace _ _ _ _)).2

theorem hashes_replace {c : Fin 16 → Tree} {n : SHAMapInnerNode}
    (hq : f.object q = some (.leaf leaf)) (hke : leaf.mItem.key = leaf'.mItem.key)
    (hh : hashOf leaf'.mType leaf'.mItem =
      hashOf leaf.mType leaf.mItem) (h : Represents f P (.inner c) r)
    (htr : trace f leaf'.mItem.key (.inner c) r nodeID = (q, qid) :: tail)
    (hhs : Hashes r (.inner n) (.inner c)) :
    Hashes r (.inner n) ((inner c).replace leaf'.mType leaf'.mItem nodeID.mDepth) := by
  refine ⟨hhs.1.trans (digest_replace hq hke hh h htr).symm, fun i c' hi hc' j => ?_⟩
  cases hi
  cases hc'
  obtain ⟨n', hn', -, hss⟩ := h
  obtain ⟨q1, tail', hch, htr', -⟩ := trace_inner hn' htr hq
  have hso := Slot.child (hss _).2 hch
  have hb := digest_replace hq hke hh hso htr'
  exact (hhs.2 n c rfl rfl j).trans ((Tree.digest_update hb (isEmpty_replace _ _ _ _)).1 j).symm

theorem Holds.put_leaf {seq : ℕ} {mine : NodeRef → Prop} {L : NodeProp}
    (leaf' : SHAMapTreeNode) (nid : SHAMapNodeID) (hdi : Discipline seq mine L)
    (hq : f.object q = some (.leaf leaf)) (hke : leaf.mItem.key = leaf'.mItem.key) (hm : mine q)
    (hse : leaf.mSeq = seq) (hse' : leaf'.mSeq = seq)
    (hh : hashOf leaf'.mType leaf'.mItem = hashOf leaf.mType leaf.mItem)
    (hh' : leaf'.mHash = hashOf leaf'.mType leaf'.mItem)
    (h : Holds f seq mine L t r) (hpl : t.Placed nid.mDepth)
    (hd : ∀ c, t = .inner c → ∀ i, (c i).Dense)
    (htr : trace f leaf'.mItem.key t r nid = (q, qid) :: tail) :
    Holds (f.put q (.leaf leaf')) seq mine L (t.replace leaf'.mType leaf'.mItem nid.mDepth) r := by
  refine Represents.put_leaf hq hke h hpl hd htr ?_ ?_ ?_
  · intro _
    refine ⟨hdi.extra _ _ hm hse', fun _ => hm, ?_, nofun, ?_, ?_⟩
    · intro l hl
      cases hl
      exact hh'
    · intro _
      exact ⟨leaf', object_put_self _ _ _, rfl, rfl, hh', nofun⟩
    · intro hz
      exact absurd (hse'.symm.trans hz) hdi.seq_ne
  · intro x xid n c tail' hx hpl' hd' htr' hok
    have hd'' : ∀ c', (inner c) = .inner c' → ∀ i, (c' i).Dense := by
      rintro _ ⟨⟩
      exact hd'
    refine ⟨hok.extra, hok.own, nofun, hok.unused, fun hne => ?_, fun hz => ?_⟩
    · refine (hok.hashed hne).put_leaf hq hke hpl' hd'' htr' (fun _ => ⟨hh', nofun⟩)
        ?_ fun _ _ _ _ => id
      intro y yid n' c' tail'' hy _ _ hyt
      exact hashes_replace hq hke hh hy hyt
    · refine (hok.isSealed hz).put_leaf hq hke hpl' hd'' htr' ?_ ?_ fun _ _ _ _ => id
      · intro hsl
        exact absurd (hse.symm.trans hsl.1) hdi.seq_ne
      · intro y yid n' c' tail'' hy _ _ hyt hsl
        exact ⟨hsl.1, hashes_replace hq hke hh hy hyt hsl.2⟩
  · intro x n s hnt hok
    refine hok.frame fun y hy => object_put_ne _ _ ?_
    rintro rfl
    exact hnt hy

end Hashes

end InPlace

theorem Reworks.put_leaf {seq : ℕ} {mine : NodeRef → Prop} (hfr : f.Fresh)
    (hq : f.object q = some (.leaf leaf)) (hm : mine q) (hse : leaf.mSeq = seq) (hoc : Occurs f r q) (leaf' : SHAMapTreeNode) :
    Reworks seq mine f (f.put q (.leaf leaf')) (some r) (some r) where
  next_le := le_refl _
  fresh := SHAMap.fresh_put hfr (hfr.lt hq) _
  rest := rfl
  object := by
    intro x _ hnt
    refine object_put_ne _ _ ?_
    rintro rfl
    exact hnt ⟨occursIn_some.mpr hoc, hm, _, hq, hse⟩
  occurs := by
    intro x hx
    refine .inr (occursIn_some.mpr ?_)
    have hbk := occursIn_some.mp hx
    clear hx hoc
    induction hbk with
    | refl r => exact .refl r
    | @child r q1 x n i hn hi _ ih =>
      have hrq : r ≠ q := by
        rintro rfl
        rw [object_put_self] at hn
        cases hn
      rw [object_put_ne _ _ hrq] at hn
      exact .child hn hi ih

namespace SHAMap

variable [Sha512Half] {m : SHAMap} {mine : NodeRef → Prop} {L : NodeProp} {f1 : Family} {r1 : ℕ}
  {item : SHAMapItem}

theorem dirtyUp_trace (nid : SHAMapNodeID) (hdi : Discipline m.seq_ mine L) {type : TNType}
    (hfr : f.Fresh) (hnw : ∀ x : ℕ, f.next ≤ x → mine x) (h : Holds f m.seq_ mine L t r)
    (hpl : t.Placed nid.mDepth) (hd : ∀ c, t = .inner c → ∀ i, (c i).Dense)
    (hr : nid.isRoot = true → m.root_ = r ∧ ∃ c, t = .inner c)
    (htr : trace f item.key t r nid = (q, qid) :: tail) (hq : f.object q = some (.leaf leaf))
    (hke : leaf.mItem.key = item.key) (hre : Reworks m.seq_ mine f f1 (some q) (some r1))
    (hle : Holds f1 m.seq_ mine L (.leaf type item) r1) (stk : NodeStack) :
    ∃ f' r', m.dirtyUp item.key (tail ++ stk) r1 f1 =
        (m.atPlace nid r').dirtyUp item.key stk r' f' ∧
      Reworks m.seq_ mine f f' (some r) (some r') ∧
      Holds f' m.seq_ mine L (t.replace type item nid.mDepth) r' := by
  induction t generalizing r nid tail stk with
  | empty => cases h
  | leaf type' item' =>
    cases htr
    obtain ⟨n, hn, -, rfl, -⟩ := h
    rw [hq] at hn
    cases hn
    have hid : qid.isRoot = false := by
      by_contra hye
      obtain ⟨-, c, hc⟩ := hr (by simpa using hye)
      cases hc
    have hrp : (RadixTree.leaf type' leaf.mItem : Tree).replace type item qid.mDepth =
        .leaf type item := if_pos hke
    refine ⟨f1, r1, ?_, hre, ?_⟩
    · rw [atPlace_of_not_root hid]
      rfl
    · rw [hrp]
      exact hle
  | inner c ih =>
    obtain ⟨n, hn, -, hss⟩ := id h
    obtain ⟨q1, tail', hch, htr', rfl⟩ := trace_inner hn htr hq
    have hso := Slot.child (hss _).2 hch
    obtain ⟨f2, r2, hrun2, hre2, hholds2⟩ := ih (nid.selectBranch item.key)
      (nid.getChildNodeID (nid.selectBranch item.key)) hso (hpl.2 _).2 (fun c' hc' i => by
        have := hd c rfl (nid.selectBranch item.key)
        rw [hc'] at this
        exact this.2 i) nofun htr' ((r, nid) :: stk)
    rw [atPlace_of_not_root rfl] at hrun2
    rw [← hch, ← childAt_eq hn] at hre2
    obtain ⟨f3, r3, hrun3, hre3, hholds3⟩ := dirtyUp_step hdi hfr hnw h hpl
      (hd c rfl) (fun hye => (hr hye).1) hre2 hholds2 stk
    refine ⟨f3, r3, ?_, hre3, hholds3⟩
    rw [List.append_assoc, List.singleton_append, hrun2, hrun3]

variable (isTransaction hasMeta : Bool)

theorem updateGiveItem_absent (h : Holds f m.seq_ mine L t m.root_)
    (hpl : t.Placed 0) (hno : t.lookup item.key 0 = none) :
    m.updateGiveItem item isTransaction hasMeta f = .ok ((false, m), f) := by
  obtain ⟨q, qid, tail, n, htr, hq, hke⟩ := exists_node_of_lookup_none {} h hno
  have hst := getStack_run item.key h hpl
  rw [htr] at hst
  rw [updateGiveItem, run_bind hst]
  dsimp only
  rw [run_bind (load_eq hq)]
  cases n with
  | inner n => rfl
  | leaf leaf =>
    dsimp only
    rw [if_pos (hke leaf rfl)]
    rfl

theorem updateGiveItem_present {r1 : NodeRef}
    {changed : Bool} (hst : m.getStack item.key true f = .ok ((q, qid) :: tail, f))
    (hq : f.object q = some (.leaf leaf)) (hke : leaf.mItem.key = item.key)
    (hun : m.unshareNode q qid f = .ok ((r1, m), f1))
    (hset : (leaf.clone m.seq_).setItem item (leafType isTransaction hasMeta) = (changed, leaf')) :
    m.updateGiveItem item isTransaction hasMeta f =
      (if changed then m.dirtyUp item.key tail r1 >>= fun m => pure (true, m)
        else pure (true, m)) (f1.put r1 (.leaf leaf')) := by
  rw [updateGiveItem, run_bind hst]
  dsimp only
  rw [run_bind (load_eq hq)]
  dsimp only
  rw [if_neg (not_not_intro hke), run_bind hun]
  rw [hset]
  rfl

/-- A key's leaf is own, or no other item has its hash. -/
def Settled (m : SHAMap) (f : Family) (item : SHAMapItem) (type : TNType) : Prop :=
  ∀ q leaf, Occurs f m.root_ q → f.object q = some (.leaf leaf) → leaf.mItem.key = item.key →
    leaf.mSeq = m.seq_ ∨ (hashOf type item =
      hashOf leaf.mType leaf.mItem → leaf.mType = type ∧ leaf.mItem = item)

theorem updateGiveItem_replace (hdi : Discipline m.seq_ mine L) {c : Fin 16 → Tree}
    (isTx hasMeta : Bool) (hfr : f.Fresh) (hnw : ∀ x : ℕ, f.next ≤ x → mine x)
    (h : Holds f m.seq_ mine L (.inner c) m.root_) (hpl : (inner c).Placed 0)
    (hd : ∀ i, (c i).Dense) (hsd : m.Settled f item (leafType isTx hasMeta))
    (htr : trace f item.key (.inner c) m.root_ {} = (q, qid) :: tail)
    (hq : f.object q = some (.leaf leaf)) (hke : leaf.mItem.key = item.key) :
    ∃ f' r', m.updateGiveItem item isTx hasMeta f = .ok ((true, { m with root_ := r' }), f') ∧
      Reworks m.seq_ mine f f' (some m.root_) (some r') ∧
      Holds f' m.seq_ mine L ((inner c).replace (leafType isTx hasMeta) item 0) r' := by
  have hst := getStack_run item.key h hpl
  rw [htr] at hst
  have hd' : ∀ c', (inner c) = .inner c' → ∀ i, (c' i).Dense := by
    rintro _ ⟨⟩
    exact hd
  have hoc := (leaf_of_trace h htr hq).1
  have hid := isRoot_of_trace h htr hq
  obtain ⟨s, hs, -⟩ := h.of_occurs hoc
  have hok := hs.of_object hq
  have hh := hok.leaf leaf rfl
  obtain ⟨f1, r1, hun, hu⟩ := unshareNode_run (m := m) qid hq hfr hok.own hnw (by simp [hid])
  rw [atPlace_of_not_root hid] at hun
  by_cases heq : hashOf (leafType isTx hasMeta) item = leaf.mHash
  · have hset : (leaf.clone m.seq_).setItem item (leafType isTx hasMeta) =
        (false, ⟨m.seq_, leaf.mHash, leafType isTx hasMeta, item⟩) := if_pos heq
    have run := updateGiveItem_present isTx hasMeta hst hq hke hun hset
    rcases hsd q leaf hoc hq hke with hse | hit
    · -- the leaf is changed in place, and no node above it
      rw [unshareNode_own qid hq hse] at hun
      cases hun
      have hm : mine q := hok.own hse
      have hre : Reworks m.seq_ mine f _ (some m.root_) (some m.root_) :=
        .put_leaf hfr hq hm hse hoc ⟨m.seq_, leaf.mHash, leafType isTx hasMeta, item⟩
      have hho := Holds.put_leaf ⟨m.seq_, leaf.mHash, leafType isTx hasMeta, item⟩ {}
        hdi hq hke hm hse rfl (heq.trans hh) heq.symm h hpl hd' htr
      exact ⟨_, m.root_, run, hre, hho⟩
    · -- a copy may have been made, but the tree is as before
      obtain ⟨hty, rfl⟩ := hit (heq.trans hh)
      have hp : f1.put r1 (.leaf ⟨m.seq_, leaf.mHash, leafType isTx hasMeta, leaf.mItem⟩) = f1 := by
        rw [← hty]
        exact put_eq_self hu.copy
      have hf : ∀ x, Occurs f m.root_ x → f1.object x = f.object x :=
        fun x hx => hu.object x (lt_of_occurs hfr h hx)
      rw [hp] at run
      refine ⟨f1, m.root_, run, ?_, ?_⟩
      · refine ⟨hu.next_le, hu.fresh, hu.rest,
          fun x hx _ => hu.object x hx, fun x hx => .inr (occursIn_some.mpr ?_)⟩
        exact (occursIn_some.mp hx).of_frame hf
      · have hrp := replace_eq_self hq h htr
        rw [hty] at hrp
        rw [hrp]
        exact Holds.frame h hf
  · have hset : (leaf.clone m.seq_).setItem item (leafType isTx hasMeta) =
        (true, SHAMapTreeNode.make item (leafType isTx hasMeta) m.seq_) := if_neg heq
    have run := updateGiveItem_present isTx hasMeta hst hq hke hun hset
    obtain ⟨hholds1, hre1⟩ := hu.holds hdi hfr hs hq
    have hp := Reworks.put_leaf hu.fresh hu.copy hu.mine rfl (.refl _)
      (SHAMapTreeNode.make item (leafType isTx hasMeta) m.seq_)
    have hle : Holds (f1.put r1 (.leaf (SHAMapTreeNode.make item
        (leafType isTx hasMeta) m.seq_))) m.seq_ mine L
        (.leaf (leafType isTx hasMeta) item) r1 :=
      holds_make_leaf hdi hu.mine (object_put_self _ _ _)
    obtain ⟨f', r', hup, hre, hho⟩ := dirtyUp_trace {} hdi hfr hnw h hpl
      hd' (fun _ => ⟨rfl, c, rfl⟩) htr hq hke (hre1.trans hp) hle []
    rw [List.append_nil] at hup
    refine ⟨f', r', ?_, hre, hho⟩
    rw [run]
    exact run_bind hup

theorem updateGiveItem_run (hdi : Discipline m.seq_ mine L) (item : SHAMapItem)
    (isTx hasMeta : Bool) (hfr : f.Fresh) (hnw : ∀ x : ℕ, f.next ≤ x → mine x)
    (h : Holds f m.seq_ mine L t m.root_) (hrt : t.Rooted)
    (hsd : m.Settled f item (leafType isTx hasMeta)) :
    ∃ m' f' t', m.updateGiveItem item isTx hasMeta f =
        .ok (((t.lookup item.key 0).isSome, m'), f') ∧
      Changes m mine L f m' f' t' ∧
      (∀ x, x ∈ t'.items ↔ (x = item ∧ (t.lookup item.key 0).isSome) ∨
        (x ∈ t.items ∧ x.key ≠ item.key)) ∧
      (t.Tagged (leafType isTx hasMeta) → t'.Tagged (leafType isTx hasMeta)) := by
  cases hlk : t.lookup item.key 0 with
  | none =>
    have hk := (lookup_eq_none_iff hrt.placed).mp hlk
    refine ⟨m, f, t, updateGiveItem_absent _ _ h hrt.placed hlk,
      .refl hfr h hrt, fun x => ?_, fun ht => ht⟩
    exact ⟨fun hx => .inr ⟨hx, hk x hx⟩, fun hx => (hx.resolve_left (by simp)).1⟩
  | some a =>
    obtain ⟨q, qid, tail, leaf, htr, hq, hke, rfl, -⟩ := exists_leaf_of_lookup {} h hlk
    obtain ⟨hpl, c, rfl, hd⟩ := id hrt
    obtain ⟨f', r', run, hre, hho⟩ := updateGiveItem_replace hdi isTx hasMeta
      hfr hnw h hpl hd hsd htr hq hke
    obtain ⟨hrt', his⟩ := hrt.replace (leafType isTx hasMeta) item
    refine ⟨{ m with root_ := r' }, f', _, run, ⟨rfl, hre, hho, hrt'⟩, fun x => ?_,
      fun ht => ht.replace item 0⟩
    have hex : ∃ y ∈ (inner c).items, y.key = item.key :=
      ⟨leaf.mItem, ((lookup_eq_some_iff hpl).mp hlk).1, hke⟩
    refine (his x).trans (or_congr (and_congr_right fun _ => ?_) Iff.rfl)
    exact iff_of_true hex rfl

end SHAMap

end Sand
