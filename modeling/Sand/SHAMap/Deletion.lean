import Sand.SHAMap.Insertion

/-!
# Deleting an item

The nodes above a deleted leaf are changed from the bottom up.
-/

namespace Sand

open Family RadixTree Function List

variable {m : SHAMap} {mine : NodeRef → Prop} {L : NodeProp} {f f1 : Family} {r : ℕ}

namespace SHAMap

variable [Sha512Half] {P : TreeProp}

omit [Sha512Half] in
theorem filter_mIsBranch {c : Fin 16 → Tree} {n : SHAMapInnerNode} (hsl : Slots f P c n) :
    (finRange 16).filter n.mIsBranch = RadixTree.branches c := by
  refine filter_congr fun i _ => ?_
  rw [(hsl i).1, (hsl i).2.isSome_iff]

theorem onlyBelow_run {t : Tree} (fuel d : ℕ) (h : Represents f P t r) (hpl : t.Placed d)
    (hf : 64 ≤ fuel + d) : m.onlyBelow fuel r f = .ok (t.only, f) := by
  induction t generalizing r fuel d with
  | empty => cases h
  | leaf type item =>
    obtain ⟨n, hn, -, rfl, -⟩ := h
    rw [onlyBelow.eq_def, run_bind (load_eq hn)]
    rfl
  | inner c ih =>
    obtain ⟨n, hn, -, hsl⟩ := h
    have hde : d < 64 := hpl.1
    obtain ⟨fuel, rfl⟩ := (@Nat.exists_eq_add_one fuel).mpr (by omega)
    rw [onlyBelow.eq_def, run_bind (load_eq hn)]
    dsimp only
    rw [filter_mIsBranch hsl, only]
    rcases hb : branches c with _ | ⟨i, rest⟩
    · rfl
    have hne : c i ≠ .empty := mem_branches.mp (hb ▸ mem_cons_self)
    have hs := (hsl i).2
    cases hch : n.mChildren i with
    | none =>
      rw [hch] at hs
      exact absurd (slot_none_iff.mp hs) hne
    | some q =>
      rw [hch] at hs
      dsimp only
      rw [run_bind (descendThrow_eq _ hn hch)]
      cases rest with
      | nil => exact ih i fuel (d + 1) hs (hpl.2 i).2 (by omega)
      | cons j rest => rfl


end SHAMap

theorem Reworks.put_drop {seq : ℕ} {n : SHAMapAbstractNode} (hfr : f.Fresh)
    (hn : f.object r = some n) (hm : mine r) (hse : n.getSeq = seq) (n' : SHAMapAbstractNode) :
    Reworks seq mine f (f.put r n') (some r) none where
  next_le := le_refl _
  fresh := SHAMap.fresh_put hfr (hfr.lt hn) n'
  rest := rfl
  object := by
    intro x _ hnt
    refine object_put_ne _ _ ?_
    rintro rfl
    exact hnt ⟨occursIn_some.mpr (.refl _), hm, n, hn, hse⟩
  occurs _ hx := absurd hx occursIn_none

namespace SHAMap

variable [Sha512Half] {t : Tree} {k : UInt256}

theorem delLoop_step (hdi : Discipline m.seq_ mine L) {c : Fin 16 → Tree} {o : Option NodeRef}
    {nid : SHAMapNodeID} (type : TNType) (hfr : f.Fresh) (hnw : ∀ x : ℕ, f.next ≤ x → mine x)
    (h : Holds f m.seq_ mine L (.inner c) r)
    (hpl : (RadixTree.inner c).Placed nid.mDepth) (hd : ∀ i, (c i).Dense)
    (hpl' : (RadixTree.inner (update c (nid.selectBranch k) t) : Tree).Placed
      nid.mDepth) (hid : nid.isRoot = false)
    (hre : Reworks m.seq_ mine f f1 (f.childAt r (nid.selectBranch k)) o)
    (ht : Slot f1 (NodeOk f1 m.seq_ mine L) t o) (stk : NodeStack) :
    ∃ f' o', m.delLoop k type ((r, nid) :: stk) o f1 = m.delLoop k type stk o' f' ∧
      Reworks m.seq_ mine f f' (some r) o' ∧
      Slot f' (NodeOk f' m.seq_ mine L)
        (RadixTree.contract type (update c (nid.selectBranch k) t)) o' := by
  obtain ⟨n, hn, -⟩ := id h
  rw [childAt_eq hn] at hre
  obtain ⟨f2, r2, n2, hr, hre2, hh, hn2, hseq2, hmine2⟩ := replaceChild_run (m := m) nid
    hdi hfr hnw h hpl hd hn hre ht (by simp [hid])
  rw [atPlace_of_not_root hid] at hr
  have hbr : (finRange 16).filter n2.mIsBranch = branches (update c (nid.selectBranch k) t) :=
    filter_mIsBranch (hh.slots hn2)
  have hc : n2.getBranchCount = (branches (update c (nid.selectBranch k) t)).length := by
    rw [← hbr, SHAMapInnerNode.getBranchCount, countP_eq_length_filter]
  simp only [delLoop, run_bind hr, run_bind (loadInner_eq hn2), hid, hc, Bool.false_eq_true,
    if_false]
  rcases hb : branches (update c (nid.selectBranch k) t) with
    _ | ⟨i, _ | ⟨j, rest⟩⟩
  · refine ⟨f2, none, rfl, hre2.trans (.drop hre2.fresh _), ?_⟩
    simp only [contract, hb]
    exact slot_none_iff.mpr rfl
  · rw [if_neg (by simp), if_pos (by simp), run_bind (onlyBelow_run 64 nid.mDepth hh
      hpl' (by omega))]
    cases ho : (inner (update c (nid.selectBranch k) t) : Tree).only with
    | none =>
      refine ⟨f2, some r2, rfl, hre2, ?_⟩
      simp only [contract, hb, ho]
      exact slot_some_iff.mpr hh
    | some item =>
      have hp := Reworks.put_drop hre2.fresh hn2 hmine2 hseq2 (.inner (dropChild n2))
      have ha : Reworks m.seq_ mine (f2.put r2 (.inner (dropChild n2)))
          ((f2.put r2 (.inner (dropChild n2))).add
            (.leaf (SHAMapTreeNode.make item type m.seq_))) none (some f2.next) :=
        .add hp.fresh (by rintro _ _ ⟨⟩)
      refine ⟨_, some f2.next, ?_, hre2.trans (hp.trans ha), ?_⟩
      · rw [← hseq2]
        rfl
      · simp only [contract, hb, ho]
        exact slot_some_iff.mpr (holds_add_leaf (f := f2.put r2 (.inner (dropChild n2))) hdi
          (hnw _ hre2.next_le) item type)
  · refine ⟨f2, some r2, rfl, hre2, ?_⟩
    simp only [contract, hb]
    exact slot_some_iff.mpr hh

theorem delLoop_run (hdi : Discipline m.seq_ mine L) (type : TNType)
    (nid : SHAMapNodeID) (hfr : f.Fresh) (hnw : ∀ x : ℕ, f.next ≤ x → mine x)
    (h : Holds f m.seq_ mine L t r) (hpl : t.Placed nid.mDepth) (hd : t.Dense)
    (hid : nid.isRoot = false) {q : NodeRef} {qid : SHAMapNodeID} {tail : NodeStack}
    (htr : trace f k t r nid = (q, qid) :: tail) {leaf : SHAMapTreeNode}
    (hq : f.object q = some (.leaf leaf)) (hke : leaf.mItem.key = k) (stk : NodeStack) :
    ∃ f' o', m.delLoop k type (tail ++ stk) none f = m.delLoop k type stk o' f' ∧
      Reworks m.seq_ mine f f' (some r) o' ∧
      Slot f' (NodeOk f' m.seq_ mine L) (t.erase type k nid.mDepth) o' := by
  induction t generalizing r nid tail stk with
  | empty => cases h
  | leaf type' item =>
    cases htr
    obtain ⟨n, hn, -, rfl, -⟩ := h
    rw [hq] at hn
    cases hn
    exact ⟨f, none, rfl, .drop hfr _, slot_none_iff.mpr (if_pos hke)⟩
  | inner c ih =>
    obtain ⟨n, hn, -, hsl⟩ := id h
    obtain ⟨q1, tail', hch, htr', rfl⟩ := trace_inner hn htr hq
    have hs := Slot.child (hsl _).2 hch
    obtain ⟨f1, o1, hrun1, hre1, hslot1⟩ := ih (nid.selectBranch k)
      (nid.getChildNodeID (nid.selectBranch k)) hs (hpl.2 _).2 (hd.2 _) rfl
      htr' ((r, nid) :: stk)
    rw [← hch, ← childAt_eq hn] at hre1
    have he := isErase_erase type (k := k) (hpl.2 (nid.selectBranch k)).2 (hd.2 _)
    obtain ⟨f2, o2, hrun2, hre2, hslot2⟩ := delLoop_step hdi type hfr hnw h hpl hd.2
      (isErase_update hpl he).2 hid hre1 hslot1 stk
    refine ⟨f2, o2, ?_, hre2, hslot2⟩
    rw [append_assoc, singleton_append, hrun1, hrun2]

theorem delItem_absent (h : Holds f m.seq_ mine L t m.root_)
    (hpl : t.Placed 0) (hno : t.lookup k 0 = none) : m.delItem k f = .ok ((false, m), f) := by
  obtain ⟨q, qid, tail, n, htr, hq, hke⟩ := exists_node_of_lookup_none {} h hno
  have hst := getStack_run k h hpl
  rw [htr] at hst
  rw [delItem, run_bind hst]
  dsimp only
  rw [run_bind (load_eq hq)]
  cases n with
  | inner n => rfl
  | leaf leaf =>
    dsimp only
    rw [if_pos (hke leaf rfl)]
    rfl

theorem delItem_run (hdi : Discipline m.seq_ mine L) (k : UInt256) (hfr : f.Fresh)
    (hnw : ∀ x : ℕ, f.next ≤ x → mine x) (h : Holds f m.seq_ mine L t m.root_)
    (hrt : t.Rooted) :
    ∃ m' f' t', m.delItem k f = .ok (((t.lookup k 0).isSome, m'), f') ∧
      Changes m mine L f m' f' t' ∧ (∀ x, x ∈ t'.items ↔ x ∈ t.items ∧ x.key ≠ k) ∧
      ∀ type, t.Tagged type → t'.Tagged type := by
  cases hlk : t.lookup k 0 with
  | none =>
    have hk := (lookup_eq_none_iff hrt.placed).mp hlk
    refine ⟨m, f, t, delItem_absent h hrt.placed hlk, .refl hfr h hrt,
      fun x => ⟨fun hx => ⟨hx, hk x hx⟩, And.left⟩, fun _ => id⟩
  | some a =>
    obtain ⟨q, qid, tail, leaf, htr, hq, hke, -, hta⟩ := exists_leaf_of_lookup {} h hlk
    have hst := getStack_run k h hrt.placed
    rw [htr] at hst
    obtain ⟨hpl, c, rfl, hd⟩ := id hrt
    obtain ⟨n, hn, -, hsl⟩ := id h
    obtain ⟨q1, tail', hch, htr', rfl⟩ := trace_inner hn htr hq
    have hs := (hsl (nibble 0 k)).2
    rw [show n.mChildren (nibble 0 k) = some q1 from hch] at hs
    obtain ⟨f1, o1, hrun1, hre1, hslot1⟩ := delLoop_run (k := k) hdi leaf.mType
      (SHAMapNodeID.getChildNodeID {} (nibble 0 k)) hfr hnw hs (hpl.2 _).2 (hd _)
      rfl htr' hq hke [(m.root_, {})]
    rw [← hch] at hre1
    obtain ⟨f2, r2, n2, hrun2, hre2, hholds2, hn2, -⟩ := replaceChild_run (m := m) {} hdi hfr
      hnw h hpl hd hn hre1 hslot1 fun _ => rfl
    have hl : m.delLoop k leaf.mType [(m.root_, {})] o1 f1 = .ok ({ m with root_ := r2 }, f2) := by
      rw [delLoop, run_bind hrun2]
      dsimp only
      rw [run_bind (loadInner_eq hn2)]
      rfl
    obtain ⟨hrt', hi⟩ := hrt.eraseRoot leaf.mType k
    refine ⟨{ m with root_ := r2 }, f2, _, ?_, ⟨rfl, hre2, hholds2, hrt'⟩, hi, ?_⟩
    · rw [delItem, run_bind hst]
      dsimp only
      rw [run_bind (load_eq hq)]
      dsimp only
      rw [if_neg (not_not_intro hke), run_bind (hrun1.trans hl)]
      rfl
    · intro type ht
      rw [hta type ht]
      exact ht.eraseRoot k

end SHAMap

end Sand
