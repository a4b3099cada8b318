import Sand.SHAMap.Changes

/-!
# Adding an item

A new leaf goes to an empty branch of the last node on the path of its key.
-/

namespace Sand

open Family RadixTree Function List

namespace SHAMap

variable [Sha512Half] {m : SHAMap} {mine : NodeRef → Prop} {L : NodeProp} {f f1 : Family} {r : ℕ}

variable {seq : ℕ} {item : SHAMapItem} {c : Fin 16 → Tree} {t : Tree} {nodeID : SHAMapNodeID}

theorem holds_make_leaf (hd : Discipline seq mine L) (hm : mine r) {type : TNType}
    (hr : f.object r = some (.leaf (SHAMapTreeNode.make item type seq))) :
    Holds f seq mine L (.leaf type item) r := by
  refine ⟨_, hr, rfl, rfl, ?_⟩
  refine ⟨hd.extra _ _ hm rfl, fun _ => hm, ?_, nofun, ?_, ?_⟩
  · intro l hl
    cases hl
    rfl
  · intro _
    exact ⟨_, hr, rfl, rfl, rfl, nofun⟩
  · intro hz
    exact absurd hz hd.seq_ne

theorem holds_add_leaf (hd : Discipline seq mine L) (hm : mine f.next)
    (item : SHAMapItem) (type : TNType) :
    Holds (f.add (.leaf (SHAMapTreeNode.make item type seq))) seq mine L (.leaf type item) f.next :=
  holds_make_leaf hd hm (object_add_self _ _)

theorem holds_add_inner (hd : Discipline seq mine L) (hm : mine f.next) :
    Holds (f.add (.inner { mSeq := seq })) seq mine L (.inner fun _ => .empty) f.next := by
  refine ⟨_, object_add_self _ _, ?_, fun i => ⟨rfl, rfl⟩⟩
  refine ⟨hd.extra _ _ hm rfl, fun _ => hm, nofun, ?_, ?_, ?_⟩
  · rintro _ ⟨⟩ j -
    rfl
  · intro hne
    exact absurd rfl hne
  · intro hz
    exact absurd hz hd.seq_ne

omit [Sha512Half] in
theorem replaceChild_own (nid : SHAMapNodeID) {n : SHAMapInnerNode}
    (hn : f.object r = some (.inner n)) (hse : n.mSeq = m.seq_) (b : Fin 16) (o : Option NodeRef) :
    m.replaceChild r nid b o f = .ok ((r, m), f.put r (.inner (n.setChild b o))) := by
  rw [replaceChild, run_bind (unshareNode_own nid hn hse)]
  dsimp only
  rw [run_bind (loadInner_eq hn)]
  rfl

structure OwnInner (m : SHAMap) (mine : NodeRef → Prop) (L : NodeRef → SHAMapAbstractNode → Prop)
    (f : Family) (r : NodeRef) (c : Fin 16 → Tree) : Prop where
  holds : Holds f m.seq_ mine L (.inner c) r
  own : ∃ n, f.object r = some (.inner n) ∧ n.mSeq = m.seq_
  dense : ∀ i, (c i).Dense

theorem hookLeaf_run (hd : Discipline m.seq_ mine L) {b : Fin 16} {d : ℕ}
    (hfr : f.Fresh) (hnw : ∀ x : ℕ, f.next ≤ x → mine x) (h : OwnInner m mine L f r c)
    (hpl : (RadixTree.inner c).Placed d) (hem : c b = .empty) (item : SHAMapItem)
    (type : TNType) :
    ∃ f', m.hookLeaf item type r b f = .ok ((), f') ∧ Reworks m.seq_ mine f f' (some r) (some r) ∧
      OwnInner m mine L f' r (update c b (.leaf type item)) := by
  obtain ⟨n, hn, hse⟩ := h.own
  have hlt := hfr.lt hn
  have hch : n.mChildren b = none := by
    have hs := (h.holds.slots hn b).2
    cases hc : n.mChildren b with
    | none => rfl
    | some q =>
      rw [hc, hem] at hs
      exact absurd hs id
  have hn1 : (f.add (.leaf (SHAMapTreeNode.make item type m.seq_))).object r = some (.inner n) :=
    (object_add_ne _ _ (Nat.ne_of_lt hlt)).trans hn
  have hre : Reworks m.seq_ mine f (f.add (.leaf (SHAMapTreeNode.make item type m.seq_)))
      (n.mChildren b) (some f.next) := by
    rw [hch]
    exact .add hfr nofun
  have ho := replaceChild_own (m := m) ⟨0, 1⟩ hn1 hse b (some f.next)
  obtain ⟨f2, r2, n2, run, hre2, hh, hn2, hseq2, -⟩ := replaceChild_run (m := m)
    ⟨0, 1⟩ hd hfr hnw h.holds hpl h.dense hn hre
    (slot_some_iff.mpr (holds_add_leaf hd (hnw _ (le_refl _)) item type)) nofun
  rw [ho] at run
  cases run
  refine ⟨_, ?_, hre2, hh, ⟨n2, hn2, hseq2⟩, ?_⟩
  · rw [hookLeaf, run_bind (show alloc _ f = .ok (_, _) from rfl), run_bind (loadInner_eq hn1)]
    rfl
  intro i
  obtain rfl | hi := eq_or_ne i b
  · rw [update_self]
    trivial
  · rw [update_of_ne hi]
    exact h.dense i

theorem dirtyUp_own (hd : Discipline m.seq_ mine L) {d : ℕ} {ch : NodeRef} {k : UInt256}
    (hfr : f.Fresh) (hnw : ∀ x : ℕ, f.next ≤ x → mine x) (h : OwnInner m mine L f r c)
    (hpl : (RadixTree.inner c).Placed d) (hid : nodeID.isRoot = false)
    (hem : f.childAt r (nodeID.selectBranch k) = none)
    (hre : Reworks m.seq_ mine f f1 none (some ch)) (ht : Holds f1 m.seq_ mine L t ch)
    (stk : NodeStack) :
    ∃ f2, m.dirtyUp k ((r, nodeID) :: stk) ch f1 = m.dirtyUp k stk r f2 ∧
      Reworks m.seq_ mine f f2 (some r) (some r) ∧
      Holds f2 m.seq_ mine L (.inner (update c (nodeID.selectBranch k) t)) r := by
  obtain ⟨n, hn, hse⟩ := h.own
  rw [childAt_eq hn] at hem
  have hn1 : f1.object r = some (.inner n) :=
    (hre.object r (hfr.lt hn) fun hoc => occursIn_none hoc.1).trans hn
  have ho := replaceChild_own (m := m) nodeID hn1 hse (nodeID.selectBranch k) (some ch)
  rw [← hem] at hre
  obtain ⟨f2, r2, n2, run, hre2, hh, -⟩ := replaceChild_run (m := m) nodeID hd hfr hnw
    h.holds hpl h.dense hn hre (slot_some_iff.mpr ht) (by simp [hid])
  rw [ho, atPlace_of_not_root hid] at run
  cases run
  exact ⟨_, dirtyUp_cons ho, hre2, hh⟩

omit [Sha512Half] in
theorem childAt_add_inner (f : Family) (seq : ℕ) (b : Fin 16) :
    (f.add (.inner { mSeq := seq })).childAt f.next b = none :=
  childAt_eq (object_add_self _ _) b

section

variable (hd : Discipline m.seq_ mine L)
include hd

theorem ownInner_add (hm : mine f.next) :
    OwnInner m mine L (f.add (.inner { mSeq := m.seq_ })) f.next fun _ => .empty :=
  ⟨holds_add_inner hd hm, ⟨_, object_add_self _ _, rfl⟩, fun _ => trivial⟩

variable {other : SHAMapItem} (type : TNType)

theorem splitLeaf_run
    (nid : SHAMapNodeID) {fuel : ℕ} (hfr : f.Fresh) (hnw : ∀ x : ℕ, f.next ≤ x → mine x)
    (h : OwnInner m mine L f r fun _ => .empty) (hch : ∀ b, f.childAt r b = none)
    (hdp : nid.mDepth + fuel = 64) (hid : nid.isRoot = false)
    (hag : ∀ e < nid.mDepth, nibble e item.key = nibble e other.key)
    (hne : item.key ≠ other.key) (stk : NodeStack) :
    ∃ f', m.splitLeaf item other type fuel r nid stk f =
        (m.dirtyUp item.key stk r >>= fun m => pure (true, m)) f' ∧
      Reworks m.seq_ mine f f' (some r) (some r) ∧
      Holds f' m.seq_ mine L (RadixTree.fork type item other fuel nid.mDepth) r := by
  induction fuel generalizing f r stk nid with
  | zero =>
    refine absurd (Digits.eq_of_digit fun e (he : e < 64) => ?_) hne
    exact hag e (by omega)
  | succ fuel ih =>
    have hpl : (inner fun _ => .empty : Tree).Placed nid.mDepth :=
      placed_empty_branches (show nid.mDepth < 64 by omega)
    by_cases heq : nid.selectBranch item.key = nid.selectBranch other.key
    · have hlo : m.splitLeaf item other type (fuel + 1) r nid stk f =
          m.splitLeaf item other type fuel f.next
            (nid.getChildNodeID (nid.selectBranch item.key)) ((r, nid) :: stk)
            (f.add (.inner { mSeq := m.seq_ })) := by
        rw [splitLeaf, splitLoop]
        rw [if_pos heq]
        rfl
      have had : Reworks m.seq_ mine f (f.add (.inner { mSeq := m.seq_ })) none (some f.next) :=
        .add hfr (by rintro i b ⟨⟩; rfl)
      have hag' : ∀ e < nid.mDepth + 1, nibble e item.key = nibble e other.key := by
        intro e he
        rcases Nat.lt_succ_iff_lt_or_eq.mp he with hlt | rfl
        · exact hag e hlt
        · exact heq
      obtain ⟨f1, hrun1, hre1, hholds1⟩ := ih
        (nid.getChildNodeID (nid.selectBranch item.key)) had.fresh
        (fun x hx => hnw x (had.next_le.trans hx)) (ownInner_add hd (hnw _ (le_refl _)))
        (childAt_add_inner f m.seq_) (by simp; omega) rfl hag' ((r, nid) :: stk)
      have hf : fork type item other (fuel + 1) nid.mDepth = _ := if_pos heq
      obtain ⟨f2, hrun2, hre2, hholds2⟩ := dirtyUp_own hd (k := item.key) hfr hnw h hpl
        hid (hch _) (had.trans hre1) hholds1 stk
      refine ⟨f2, ?_, hre2, ?_⟩
      · rw [hlo, hrun1]
        simp [bind, StateT.bind, hrun2]
      · rw [hf]
        exact hholds2
    · obtain ⟨f1, hrun1, hre1, hown1⟩ := hookLeaf_run hd (b := nid.selectBranch item.key)
        hfr hnw h hpl rfl item type
      have hplaced1 : (inner (update (fun _ => .empty)
          (nid.selectBranch item.key) (.leaf type item)) : Tree).Placed nid.mDepth := by
        refine hpl.update (t := .leaf type item) trivial fun a ha => ?_
        rw [List.mem_singleton.mp ha]
        rfl
      obtain ⟨f2, hrun2, hre2, hown2⟩ := hookLeaf_run hd (b := nid.selectBranch other.key)
        hre1.fresh (fun x hx => hnw x (hre1.next_le.trans hx)) hown1 hplaced1
        (update_of_ne (Ne.symm heq) _ _) other type
      have hf : fork type item other (fuel + 1) nid.mDepth = _ := if_neg heq
      refine ⟨f2, ?_, hre1.trans hre2, ?_⟩
      · have hlo : m.splitLoop item.key other.key (fuel + 1) r nid stk f =
            .ok ((r, nid, stk), f) := by
          rw [splitLoop]
          exact if_neg heq ▸ rfl
        rw [splitLeaf, run_bind hlo]
        dsimp only
        rw [run_bind hrun1, run_bind hrun2]
      · rw [hf]
        exact hown2.holds

theorem addAt_inner_run (hfr : f.Fresh)
    (hnw : ∀ x : ℕ, f.next ≤ x → mine x) (h : Holds f m.seq_ mine L (.inner c) r)
    (hpl : (RadixTree.inner c).Placed nodeID.mDepth) (hde : ∀ i, (c i).Dense)
    (hro : nodeID.isRoot → m.root_ = r)
    (hem : c (nodeID.selectBranch item.key) = .empty) (stk : NodeStack) :
    ∃ f' r', m.addAt item type r nodeID stk f =
        ((m.atPlace nodeID r').dirtyUp item.key stk r' >>= fun m => pure (true, m)) f' ∧
      Reworks m.seq_ mine f f' (some r) (some r') ∧
      Holds f' m.seq_ mine L
        (.inner (update c (nodeID.selectBranch item.key) (.leaf type item))) r' := by
  obtain ⟨n, hn, hok, -⟩ := id h
  obtain ⟨f1, r1, run, hun⟩ := unshareNode_run (m := m) nodeID hn hfr hok.own hnw hro
  obtain ⟨hholds1, hre1⟩ := hun.holds hd hfr h hn
  have ho : OwnInner (m.atPlace nodeID r1) mine L f1 r1 c := by
    refine ⟨?_, ⟨_, hun.copy, ?_⟩, hde⟩
    · rw [seq_atPlace]
      exact hholds1
    · rw [seq_atPlace]
      rfl
  have hd' : Discipline (m.atPlace nodeID r1).seq_ mine L := by rwa [seq_atPlace]
  obtain ⟨f2, hrun2, hre2, hown2⟩ := hookLeaf_run hd' hun.fresh
    (fun x hx => hnw x (hun.next_le.trans hx)) ho hpl hem item type
  rw [seq_atPlace] at hre2
  refine ⟨f2, r1, ?_, hre1.trans hre2, ?_⟩
  · rw [addAt, run_bind (load_eq hn)]
    dsimp only
    rw [run_bind run]
    rw [run_bind hrun2]
  · have := hown2.holds
    rwa [seq_atPlace] at this

theorem addAt_leaf_run (type type' : TNType) (hfr : f.Fresh)
    (hnw : ∀ x : ℕ, f.next ≤ x → mine x) (h : Holds f m.seq_ mine L (.leaf type' other) r)
    (hid : nodeID.isRoot = false) (hdp : nodeID.mDepth ≤ 64)
    (hag : ∀ e < nodeID.mDepth, nibble e item.key = nibble e other.key)
    (hne : other.key ≠ item.key) (stk : NodeStack) :
    ∃ f' r', m.addAt item type r nodeID stk f =
        (m.dirtyUp item.key stk r' >>= fun m => pure (true, m)) f' ∧
      Reworks m.seq_ mine f f' (some r) (some r') ∧
      Holds f' m.seq_ mine L
        (RadixTree.fork type item other (64 - nodeID.mDepth) nodeID.mDepth) r' := by
  obtain ⟨n, hn, -, rfl, hok⟩ := id h
  obtain ⟨f1, r1, run, hun⟩ := unshareNode_run (m := m) nodeID hn hfr hok.own hnw (by simp [hid])
  rw [atPlace_of_not_root hid] at run
  obtain ⟨-, hre1⟩ := hun.holds hd hfr h hn
  have hnew1 : ∀ x : ℕ, f1.next ≤ x → mine x := fun x hx => hnw x (hun.next_le.trans hx)
  have had : Reworks m.seq_ mine f1 (f1.add (.inner { mSeq := m.seq_ })) none (some f1.next) :=
    .add hun.fresh (by rintro i b ⟨⟩; rfl)
  obtain ⟨f2, hrun2, hre2, hholds2⟩ := splitLeaf_run (m := m) hd type nodeID had.fresh
    (fun x hx => hnew1 x (had.next_le.trans hx)) (ownInner_add hd (hnew1 _ (le_refl _)))
    (childAt_add_inner f1 m.seq_) (Nat.add_sub_cancel' hdp) hid hag (Ne.symm hne) stk
  refine ⟨f2, f1.next, ?_, hre1.trans (had.trans hre2).of_none, hholds2⟩
  rw [addAt, run_bind (load_eq hn)]
  dsimp only
  rw [if_neg hne, run_bind run]
  rw [run_bind (load_eq hun.copy)]
  exact hrun2

theorem addAt_run (nid : SHAMapNodeID)
    (hfr : f.Fresh) (hnw : ∀ x : ℕ, f.next ≤ x → mine x) (h : Holds f m.seq_ mine L t r)
    (hpl : t.Placed nid.mDepth) (hde : ∀ c, t = .inner c → ∀ i, (c i).Dense)
    (hu : t.Under nid.mDepth item.key) (hab : ∀ a ∈ t.items, a.key ≠ item.key)
    (hdp : nid.mDepth ≤ 64) (hro : nid.isRoot → m.root_ = r ∧ ∃ c, t = .inner c)
    (stk : NodeStack) :
    ∃ q id tail f' r', trace f item.key t r nid = (q, id) :: tail ∧
      m.addAt item type q id (tail ++ stk) f =
        ((m.atPlace nid r').dirtyUp item.key stk r' >>= fun m => pure (true, m)) f' ∧
      Reworks m.seq_ mine f f' (some r) (some r') ∧
      Holds f' m.seq_ mine L (t.insert type item nid.mDepth) r' := by
  induction t generalizing r nid stk with
  | empty => cases h
  | leaf type' other =>
    have hid : nid.isRoot = false := by
      by_contra hy
      obtain ⟨-, c, hc⟩ := hro (by simpa using hy)
      cases hc
    have hne : other.key ≠ item.key := hab other (mem_singleton_self _)
    have hin : (leaf type' other : Tree).insert type item nid.mDepth =
        fork type item other (64 - nid.mDepth) nid.mDepth := if_neg hne
    obtain ⟨f', r', run, hre, hh⟩ := addAt_leaf_run (m := m) hd type type' hfr hnw h hid
      hdp (fun e he => (hu other (mem_singleton_self _) e he).symm) hne stk
    refine ⟨r, nid, [], f', r', rfl, ?_, hre, ?_⟩
    · rw [atPlace_of_not_root hid]
      exact run
    · rw [hin]
      exact hh
  | inner c ih =>
    obtain ⟨n, hn, -, hsl⟩ := id h
    have hs := (hsl (nid.selectBranch item.key)).2
    have hro' : nid.isRoot → m.root_ = r := fun hy => (hro hy).1
    have hb : nid.mDepth < 64 := hpl.1
    cases hch : n.mChildren (nid.selectBranch item.key) with
    | none =>
      rw [hch] at hs
      have hem : c (nid.selectBranch item.key) = .empty := slot_none_iff.mp hs
      obtain ⟨f', r', run, hre, hh⟩ := addAt_inner_run hd type hfr hnw h hpl
        (hde c rfl) hro' hem stk
      refine ⟨r, nid, [], f', r', ?_, run, hre, ?_⟩
      · simp [trace, childAt_eq hn, hch]
      have hin : (c (nid.selectBranch item.key)).insert type item
          (nid.mDepth + 1) = .leaf type item := by
        rw [hem]
        rfl
      rw [← hin] at hh
      exact hh
    | some q =>
      rw [hch] at hs
      obtain ⟨q', id', tail, f1, r1, htr, hrun1, hre1, hholds1⟩ :=
        ih (nid.selectBranch item.key) (nid.getChildNodeID (nid.selectBranch item.key))
          hs (hpl.2 _).2 (fun c' hc' => by
            have := hde c rfl (nid.selectBranch item.key)
            rw [hc'] at this
            exact this.2)
          (hu.child hpl)
          (fun a ha => hab a (mem_items_inner.mpr ⟨_, ha⟩))
          hb (by rintro ⟨⟩) ((r, nid) :: stk)
      rw [atPlace_of_not_root rfl] at hrun1
      rw [← hch, ← childAt_eq hn] at hre1
      obtain ⟨f2, r2, hrun2, hre2, hholds2⟩ := dirtyUp_step hd hfr hnw h hpl
        (hde c rfl) hro' hre1 hholds1 stk
      refine ⟨q', id', tail ++ [(r, nid)], f2, r2, ?_, ?_, hre2, hholds2⟩
      · simp [trace, childAt_eq hn, hch, htr]
      · rw [append_assoc, singleton_append, hrun1]
        simp [bind, StateT.bind, hrun2]

theorem addGiveItem_run (item : SHAMapItem)
    (isTx hasMeta : Bool) (hfr : f.Fresh) (hnw : ∀ x : ℕ, f.next ≤ x → mine x)
    (h : Holds f m.seq_ mine L t m.root_) (hrt : t.Rooted) :
    ∃ m' f' t', m.addGiveItem item isTx hasMeta f = .ok (((t.lookup item.key 0).isNone, m'), f') ∧
      Changes m mine L f m' f' t' ∧
      (∀ x, x ∈ t'.items ↔ x ∈ t.items ∨ (x = item ∧ t.lookup item.key 0 = none)) ∧
      (t.Tagged (leafType isTx hasMeta) → t'.Tagged (leafType isTx hasMeta)) := by
  have hst := getStack_run item.key h hrt.placed
  cases hlk : t.lookup item.key 0 with
  | some a =>
    obtain ⟨q, qid, tail, leaf, htr, hq, hk, -⟩ := exists_leaf_of_lookup {} h hlk
    refine ⟨m, f, t, ?_, .refl hfr h hrt, fun x => by simp, fun ht => ht⟩
    rw [htr] at hst
    rw [addGiveItem, run_bind hst]
    dsimp only
    rw [addAt, run_bind (load_eq hq)]
    dsimp only
    rw [if_pos hk]
    rfl
  | none =>
    have hab := (lookup_eq_none_iff hrt.placed).mp hlk
    have hie : ∃ c, t = .inner c := hrt.root.imp fun _ hc => hc.1
    obtain ⟨q, qid, tail, f', r', htr, run, hre, hh⟩ := addAt_run (m := m) hd
      (leafType isTx hasMeta) {} hfr hnw h hrt.placed
      (fun c hc i => by
        obtain ⟨-, c', rfl, hde⟩ := hrt
        cases hc
        exact hde i)
      (under_zero t item.key) hab (by simp) (fun _ => ⟨rfl, hie⟩) []
    obtain ⟨hrt', hit⟩ := hrt.insert (leafType isTx hasMeta) hab
    refine ⟨{ m with root_ := r' }, f', _, ?_, ⟨rfl, hre, hh, hrt'⟩, fun x => ?_, ?_⟩
    · rw [htr] at hst
      rw [append_nil] at run
      rw [addGiveItem, run_bind hst]
      exact run
    · rw [hit, or_comm]
      simp
    · intro ht
      exact ht.insert (under_zero t item.key) hrt.placed (Nat.zero_le _)

end

end SHAMap

end Sand
