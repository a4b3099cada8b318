import Sand.SHAMap.Changes

/-!
# Hashing a map

Nodes that a map may still change have no hash, or one that the next change forgets.
-/

namespace Sand

open Family Function SHAMapInnerNode

namespace SHAMap

section Model

variable [Sha512Half] (m : SHAMap)

/-- The node if it is the map's own, or else a copy. -/
def preFlushNode (node : NodeRef) : FamilyM NodeRef := do
  let n ← load node
  if n.getSeq ≠ m.seq_ then alloc (n.clone m.seq_) else return node

def writeNode (node : NodeRef) : FamilyM NodeRef := do
  let n ← load node
  store node (n.setSeq 0)
  let node ← canonicalize n.getNodeHash node
  let n ← load node
  modify fun f => { f with db := update f.db n.getNodeHash (some (n.addRaw .snfPREFIX)) }
  return node

variable (doWrite : Bool)

def writeIf (node : NodeRef) : FamilyM NodeRef :=
  if doWrite && m.backed_ then writeNode node else return node

/-- Flushes what is on a branch, and hooks it again. -/
def walkBranch (walk : NodeRef → FamilyM (NodeRef × ℕ)) (node : NodeRef)
    (flushed : ℕ) (pos : Fin 16) : FamilyM ℕ := do
  let inner ← loadInner node
  if inner.isEmptyBranch pos then return flushed
  else
    match inner.mChildren pos with
    | none => return flushed
    | some child =>
      let n ← load child
      if n.getSeq = 0 then return flushed
      else
        let child ← m.preFlushNode child
        match n with
        | .inner _ =>
          let (child, below) ← walk child
          let inner ← loadInner node
          store node (.inner (inner.shareChild pos child))
          return flushed + below
        | .leaf leaf =>
          store child (.leaf (leaf.clone m.seq_).updateHash.2)
          let child ← m.writeIf doWrite child
          let inner ← loadInner node
          store node (.inner (inner.shareChild pos child))
          return flushed + 1

def hashAt (f : Family) (node : NodeRef) : UInt256 :=
  (f.object node).elim 0 SHAMapAbstractNode.getNodeHash

/-- Flushes an own inner node, its children first. -/
def walkNode (doWrite : Bool) : ℕ → NodeRef → FamilyM (NodeRef × ℕ)
  | 0, _ => throw .undefined
  | fuel + 1, node => do
    let flushed ← (List.finRange 16).foldlM (m.walkBranch doWrite (walkNode doWrite fuel) node) 0
    let inner ← loadInner node
    let f ← get
    store node (.inner (inner.updateHashDeep (hashAt f)))
    let node ← m.writeIf doWrite node
    return (node, flushed + 1)

def walkSubTree : FamilyM (ℕ × SHAMap) := do
  let n ← load m.root_
  if n.getSeq = 0 then return (0, m)
  else
    match n with
    | .leaf _ =>
      let root ← m.preFlushNode m.root_
      let root ← m.writeIf doWrite root
      return (1, { m with root_ := root })
    | .inner inner =>
      if inner.isEmpty then return (0, m)
      else
        let root ← m.preFlushNode m.root_
        let (root, flushed) ← m.walkNode doWrite 64 root
        return (flushed, { m with root_ := root })

def unshare : FamilyM (ℕ × SHAMap) := m.walkSubTree false

def flushDirty : FamilyM (ℕ × SHAMap) := m.walkSubTree true

def getHash : FamilyM (UInt256 × SHAMap) := do
  let root ← load m.root_
  if root.getNodeHash = 0 then
    let (_, m) ← m.unshare
    let root ← load m.root_
    return (root.getNodeHash, m)
  else
    return (root.getNodeHash, m)

end Model

end SHAMap

/-! ### Hooking a subtree to an own node -/

variable {seq : ℕ} {mine : NodeRef → Prop} {P Q : TreeProp}
  {f f1 : Family} {r q : ℕ} {c : Fin 16 → Tree} {b : Fin 16} {n n' : SHAMapInnerNode} {d : ℕ}

/-- What hooking a changed subtree leaves as it was. -/
structure Hooks (seq : ℕ) (mine : NodeRef → Prop) (f f1 f2 : Family) (r q : ℕ) (b : Fin 16)
    (n : SHAMapInnerNode) : Prop where
  reworks : Reworks seq mine f f2 (some r) (some r)
  beside : ∀ j x, j ≠ b → n.mChildren j = some x → ∀ y, Occurs f x y → f2.object y = f.object y
  below : ∀ x, Occurs f1 q x → f2.object x = f1.object x

theorem hooks_put (hfr : f.Fresh) (h : Represents f P (.inner c) r)
    (hpl : (RadixTree.inner c).Placed d) (hde : ∀ i, (c i).Dense)
    (hn : f.object r = some (.inner n)) (hm : mine r) (hse : n.mSeq = seq)
    (hre : Reworks seq mine f f1 (n.mChildren b) (some q))
    (hn' : n'.mChildren = update n.mChildren b (some q)) :
    Hooks seq mine f f1 (f1.put r (.inner n')) r q b n := by
  have hlt := hfr.lt hn
  have hsl := h.slots hn
  have hrn : ∀ i, ¬OccursIn f (n.mChildren i) r := by
    rintro i ⟨x, hx, ho⟩
    exact h.not_occurs_child hn hx ho
  have hbe : ∀ j x, j ≠ b → n.mChildren j = some x → ∀ y, Occurs f x y →
      (f1.put r (.inner n')).object y = f.object y := by
    intro j x hj hx y hy
    have hyr : y ≠ r := by
      rintro rfl
      exact hrn j ⟨x, hx, hy⟩
    have hso := (hsl j).2.child hx
    rw [object_put_ne _ _ hyr]
    refine hre.object y (SHAMap.lt_of_occurs hfr hso hy) fun ho => ?_
    obtain ⟨z, hz, hy'⟩ := ho.1
    exact h.disjoint hpl hde hn hz hx (Ne.symm hj) hy' hy
  have hb : ∀ x, Occurs f1 q x → (f1.put r (.inner n')).object x = f1.object x := by
    intro x hx
    refine object_put_ne _ _ ?_
    rintro rfl
    rcases hre.occurs x (occursIn_some.mpr hx) with hle | ho
    · omega
    · exact hrn b ho
  refine ⟨⟨hre.next_le, SHAMap.fresh_put hre.fresh (lt_of_lt_of_le hlt hre.next_le) _, ?_, ?_, ?_⟩,
    hbe, hb⟩
  · rw [Family.put, hre.rest]
  · intro x hx hnt
    have hxr : x ≠ r := by
      rintro rfl
      exact hnt ⟨occursIn_some.mpr (.refl _), hm, _, hn, hse⟩
    rw [object_put_ne _ _ hxr]
    refine hre.object x hx fun ho => hnt ⟨?_, ho.2⟩
    obtain ⟨y, hy, hx'⟩ := ho.1
    exact occursIn_some.mpr (.child hn hy hx')
  · intro x hx
    rcases (occursIn_some.mp hx).cases_inner (object_put_self _ _ _) with rfl | ⟨j, y, hj, ho⟩
    · exact .inr (occursIn_some.mpr (.refl _))
    rw [hn', update_apply] at hj
    split at hj
    · cases hj
      rcases hre.occurs x (occursIn_some.mpr (ho.of_frame hb)) with hle | ⟨z, hz, hx'⟩
      · exact .inl hle
      · exact .inr (occursIn_some.mpr (.child hn hz hx'))
    · next hne =>
        exact .inr (occursIn_some.mpr (.child hn hj (ho.of_frame (hbe j y hne hj))))

theorem Hooks.represents {Q' : TreeProp}
    (hho : Hooks seq mine f f1 (f1.put r (.inner n')) r q b n) (h : Represents f P (.inner c) r)
    (hn : f.object r = some (.inner n)) (hq : Represents f1 Q (c b) q)
    (hn' : n'.mChildren = update n.mChildren b (some q))
    (hbr : n'.mIsBranch = n.mIsBranch) (hus : n.mIsBranch b)
    (hro : Q' r (.inner n') (.inner c))
    (hbe : ∀ j x y n'' s, j ≠ b → n.mChildren j = some x → Occurs f x y → P y n'' s →
      Q' y n'' s) (hb : ∀ x n'' s, Occurs f1 q x → Q x n'' s → Q' x n'' s) :
    Represents (f1.put r (.inner n')) Q' (.inner c) r := by
  have hsl := h.slots hn
  refine ⟨n', object_put_self _ _ _, hro, fun j => ?_⟩
  rw [hbr, hn']
  obtain rfl | hj := eq_or_ne j b
  · rw [update_self, hus]
    exact ⟨rfl, Represents.frame hq hho.below hb⟩
  rw [update_of_ne hj]
  refine ⟨(hsl j).1, ?_⟩
  refine Slot.imp (hsl j).2 fun x hx hso => ?_
  exact Represents.frame hso (hho.beside j x hj hx) fun y n'' s hy => hbe j x y n'' s hj hx hy

theorem Reworks.put_inner (hfr : f.Fresh) (h : Represents f P (.inner c) r)
    (hn : f.object r = some (.inner n)) (hm : mine r) (hse : n.mSeq = seq)
    (hn' : n'.mChildren = n.mChildren) :
    Reworks seq mine f (f.put r (.inner n')) (some r) (some r) where
  next_le := le_refl _
  fresh := SHAMap.fresh_put hfr (hfr.lt hn) _
  rest := rfl
  object := by
    intro x _ hnt
    refine object_put_ne _ _ ?_
    rintro rfl
    exact hnt ⟨occursIn_some.mpr (.refl _), hm, _, hn, hse⟩
  occurs := by
    intro x hx
    refine .inr (occursIn_some.mpr ?_)
    rcases (occursIn_some.mp hx).cases_inner (object_put_self _ _ _) with rfl | ⟨j, y, hj, ho⟩
    · exact .refl _
    rw [hn'] at hj
    refine .child hn hj (ho.of_frame fun z hz => object_put_ne _ _ ?_)
    rintro rfl
    exact h.not_occurs_child hn hj hz

namespace SHAMap

variable [Sha512Half] {m : SHAMap} {L : NodeProp} {q1 : ℕ}

/-- With its hash, the map's own or sealed. -/
def Ready (seq : ℕ) (r : NodeRef) (n : SHAMapAbstractNode) (t : Tree) : Prop :=
  Hashes r n t ∧ (n.getSeq = seq ∨ n.getSeq = 0)

variable {t : Tree} {done : Fin 16 → Prop}

theorem hashes_of_ready (h : Represents f (Ready seq) t r) : Represents f Hashes t r :=
  h.mono fun _ _ _ hr => hr.1

theorem ready_of_sealed (h : Represents f Sealed t r) : Represents f (Ready seq) t r :=
  h.mono fun _ _ _ hs => ⟨hs.2, .inr hs.1⟩

structure Walked (m : SHAMap) (mine : NodeRef → Prop) (L : NodeRef → SHAMapAbstractNode → Prop)
    (f : Family) (r : NodeRef) (c : Fin 16 → Tree) (done : Fin 16 → Prop) : Prop where
  fresh : f.Fresh
  holds : Holds f m.seq_ mine L (.inner c) r
  own : ∃ n, f.object r = some (.inner n) ∧ n.mSeq = m.seq_ ∧
    ∀ j q, done j → n.mChildren j = some q → Represents f (Ready m.seq_) (c j) q

theorem Walked.shareChild (hdi : Discipline m.seq_ mine L) (hm : mine r)
    (h : Walked m mine L f r c done) (hpl : (RadixTree.inner c).Placed d)
    (hde : ∀ i, (c i).Dense) (hn : f.object r = some (.inner n))
    (hch : n.mChildren b = some q) (hre : Reworks m.seq_ mine f f1 (some q) (some q1))
    (hhl : Holds f1 m.seq_ mine L (c b) q1) (hrd : Represents f1 (Ready m.seq_) (c b) q1) :
    Reworks m.seq_ mine f (f1.put r (.inner (n.shareChild b q1))) (some r) (some r) ∧
      Walked m mine L (f1.put r (.inner (n.shareChild b q1))) r c fun j => j = b ∨ done j := by
  obtain ⟨n0, hn0, hse, hd⟩ := h.own
  rw [hn] at hn0
  cases hn0
  have hok := h.holds.of_object hn
  have hsl := h.holds.slots hn
  have hus : n.mIsBranch b := by
    rw [(hsl b).1, hch]
    rfl
  rw [← hch] at hre
  have hho : Hooks m.seq_ mine f f1 (f1.put r (.inner (n.shareChild b q1))) r q1 b n :=
    hooks_put h.fresh h.holds hpl hde hn hm hse hre rfl
  refine ⟨hho.reworks, hho.reworks.fresh, ?_, n.shareChild b q1, object_put_self _ _ _, hse, ?_⟩
  · refine hho.represents h.holds hn hhl rfl rfl hus ?_ ?_ ?_
    · refine ⟨hdi.extra _ _ hm hse, fun _ => hm, nofun, ?_, fun hne => ?_, fun hz => ?_⟩
      · rintro _ ⟨⟩
        exact hok.unused n rfl
      · refine hho.represents (hok.hashed hne) hn (hashes_of_ready hrd) rfl rfl hus ?_ ?_ ?_
        · have hro := (hok.hashed hne).of_object hn
          refine ⟨hro.1, ?_⟩
          rintro _ c' ⟨⟩ ⟨⟩
          exact hro.2 n c rfl rfl
        · intro _ _ _ _ _ _ _ _ hx
          exact hx
        · intro _ _ _ _ hx
          exact hx
      · exact absurd (hse.symm.trans hz) hdi.seq_ne
    · intro j x y n'' s hj hx hy hnd
      exact hnd.frame fun z hz => hho.beside j x hj hx z (hy.trans hz)
    · intro x n'' s hx hnd
      exact hnd.frame fun z hz => hho.below z (hx.trans hz)
  · intro j x hj hx
    simp only [SHAMapInnerNode.shareChild, update_apply] at hx
    split at hx
    · next heq =>
        cases hx
        rw [heq]
        exact hrd.frame hho.below fun _ _ _ _ => id
    · next hne =>
        exact (hd j x (hj.resolve_left hne) hx).frame (hho.beside j x hne hx) fun _ _ _ _ => id

omit [Sha512Half] in
theorem preFlushNode_eq {n : SHAMapAbstractNode} {nid : SHAMapNodeID} {m' : SHAMap}
    (hn : f.object q = some n) (h : m.unshareNode q nid f = .ok ((q1, m'), f1)) :
    m.preFlushNode q f = .ok (q1, f1) := by
  rw [unshareNode, run_bind (load_eq hn)] at h
  rw [preFlushNode, run_bind (load_eq hn)]
  by_cases hse : n.getSeq ≠ m.seq_
  · rw [if_pos hse] at h ⊢
    cases h
    rfl
  · rw [if_neg hse] at h ⊢
    cases h
    rfl

def WalksWell (m : SHAMap) (mine : NodeRef → Prop) (L : NodeRef → SHAMapAbstractNode → Prop)
    (walk : NodeRef → FamilyM (NodeRef × ℕ)) (c : Fin 16 → Tree) : Prop :=
  ∀ (f : Family) (r : ℕ) (n : SHAMapInnerNode), f.Fresh → (∀ x : ℕ, f.next ≤ x → mine x) →
    Holds f m.seq_ mine L (.inner c) r → f.object r = some (.inner n) → n.mSeq = m.seq_ →
    mine r → ∃ f' k, walk r f = .ok ((r, k), f') ∧
      Reworks m.seq_ mine f f' (some r) (some r) ∧ Holds f' m.seq_ mine L (.inner c) r ∧
      Represents f' (Ready m.seq_) (.inner c) r

section Branch

variable {doWrite : Bool} {walk : NodeRef → FamilyM (NodeRef × ℕ)} {q2 : ℕ}
  {f2 : Family} {m' : SHAMap} {nodeID : SHAMapNodeID} {flushed : ℕ}

section

variable (hn : f.object r = some (.inner n)) (hsl : Slots f P c n)
include hn hsl

theorem walkBranch_skip (hsk : ∀ q, n.mChildren b = some q →
    ∃ nq, f.object q = some nq ∧ nq.getSeq = 0) :
    m.walkBranch doWrite walk r flushed b f = .ok (flushed, f) := by
  rw [walkBranch, run_bind (loadInner_eq hn)]
  cases hch : n.mChildren b with
  | none =>
    rw [if_pos ((isEmptyBranch_iff hsl b).mpr hch)]
    rfl
  | some q =>
    obtain ⟨nq, hq, hz⟩ := hsk q hch
    rw [if_neg (not_isEmptyBranch hsl hch)]
    dsimp only
    rw [run_bind (load_eq hq), if_pos hz]
    rfl

variable (hch : n.mChildren b = some q) (hun : m.unshareNode q nodeID f = .ok ((q1, m'), f1))
  (hn2 : f2.object r = some (.inner n))
include hch hun hn2

theorem walkBranch_inner {nq : SHAMapInnerNode} {k : ℕ} (hq : f.object q = some (.inner nq))
    (hz : (SHAMapAbstractNode.inner nq).getSeq ≠ 0) (run : walk q1 f1 = .ok ((q2, k), f2)) :
    m.walkBranch doWrite walk r flushed b f =
      .ok (flushed + k, f2.put r (.inner (n.shareChild b q2))) := by
  rw [walkBranch, run_bind (loadInner_eq hn)]
  rw [if_neg (not_isEmptyBranch hsl hch), hch]
  dsimp only
  rw [run_bind (load_eq hq), if_neg hz, run_bind (preFlushNode_eq hq hun)]
  dsimp only
  rw [run_bind run]
  rw [run_bind (loadInner_eq hn2)]
  rfl

theorem walkBranch_leaf {leaf : SHAMapTreeNode} (hq : f.object q = some (.leaf leaf))
    (hz : (SHAMapAbstractNode.leaf leaf).getSeq ≠ 0)
    (hh : leaf.mHash = SHAMapTreeNode.hashOf leaf.mType leaf.mItem)
    (hco : f1.object q1 = some (.leaf (leaf.clone m.seq_)))
    (run : m.writeIf doWrite q1 f1 = .ok (q2, f2)) :
    m.walkBranch doWrite walk r flushed b f =
      .ok (flushed + 1, f2.put r (.inner (n.shareChild b q2))) := by
  have hup : (leaf.clone m.seq_).updateHash.2 = leaf.clone m.seq_ :=
    congrArg Prod.snd (if_pos hh.symm)
  rw [walkBranch, run_bind (loadInner_eq hn)]
  rw [if_neg (not_isEmptyBranch hsl hch), hch]
  dsimp only
  rw [run_bind (load_eq hq), if_neg hz, run_bind (preFlushNode_eq hq hun)]
  dsimp only
  rw [hup, run_bind (show store q1 (.leaf (leaf.clone m.seq_)) f1 = .ok ((), f1) from
    congrArg (fun g => Except.ok ((), g)) (put_eq_self hco)), run_bind run,
    run_bind (loadInner_eq hn2)]
  rfl

end

omit [Sha512Half] in
/-- What each branch adds to holds after the loop. -/
theorem branches_run (step : ℕ → Fin 16 → FamilyM ℕ) {I : Family → (Fin 16 → Prop) → Prop}
    (hst : ∀ f done b flushed, I f done →
      ∃ f' k, step flushed b f = .ok (k, f') ∧ I f' fun j => j = b ∨ done j)
    (h : I f fun _ => False) :
    ∃ f' k, (List.finRange 16).foldlM step 0 f = .ok (k, f') ∧ I f' fun _ => True := by
  have hl : ∀ (branches : List (Fin 16)) f done flushed, I f done →
      ∃ f' k, branches.foldlM step flushed f = .ok (k, f') ∧
        I f' fun j => j ∈ branches ∨ done j := by
    intro branches
    induction branches with
    | nil => exact fun f done flushed h => ⟨f, flushed, rfl, by simpa using h⟩
    | cons b branches ih =>
      intro f done flushed h
      obtain ⟨f1, k1, hrun1, h1⟩ := hst f done b flushed h
      obtain ⟨f2, k2, hrun2, h2⟩ := ih f1 _ k1 h1
      refine ⟨f2, k2, ?_, ?_⟩
      · rw [List.foldlM_cons, run_bind hrun1, hrun2]
      · simpa [or_assoc, or_left_comm] using h2
  simpa using hl (List.finRange 16) f _ 0 h

theorem Walked.skip (h : Walked m mine L f r c done) (hn : f.object r = some (.inner n))
    (hch : ∀ q, n.mChildren b = some q → Represents f (Ready m.seq_) (c b) q) :
    Walked m mine L f r c fun j => j = b ∨ done j := by
  obtain ⟨n0, hn0, hse, hd⟩ := h.own
  rw [hn] at hn0
  cases hn0
  refine ⟨h.fresh, h.holds, n, hn, hse, ?_⟩
  rintro j q (rfl | hj) hq
  · exact hch q hq
  · exact hd j q hj hq

theorem walkBranch_run (hdi : Discipline m.seq_ mine L)
    (hwa : ∀ c', c b = .inner c' → WalksWell m mine L walk c')
    (hnw : ∀ x : ℕ, f.next ≤ x → mine x) (hm : mine r) (h : Walked m mine L f r c done)
    (hpl : (RadixTree.inner c).Placed d) (hde : ∀ i, (c i).Dense) (fl : ℕ) :
    ∃ f' k, m.walkBranch false walk r fl b f = .ok (k, f') ∧
      Reworks m.seq_ mine f f' (some r) (some r) ∧
      Walked m mine L f' r c fun j => j = b ∨ done j := by
  obtain ⟨n, hn, -⟩ := h.own
  have hsl := h.holds.slots hn
  by_cases hsk : ∀ q, n.mChildren b = some q → ∃ nq, f.object q = some nq ∧ nq.getSeq = 0
  · refine ⟨f, fl, walkBranch_skip hn hsl hsk, .refl h.fresh _, h.skip hn fun q hq => ?_⟩
    obtain ⟨nq, hnq, hz⟩ := hsk q hq
    exact ready_of_sealed ((((hsl b).2.child hq).of_object hnq).isSealed hz)
  push Not at hsk
  obtain ⟨q, hch, hz⟩ := hsk
  have hso := (hsl b).2.child hch
  obtain ⟨nq, hq, hqo⟩ := hso.object
  obtain ⟨f1, q1, hun, hu⟩ := unshareNode_run (m := m) ⟨0, 1⟩ hq h.fresh hqo.own hnw nofun
  obtain ⟨hholds1, hre1⟩ := hu.holds hdi h.fresh hso hq
  have hk : ∀ f2, Reworks m.seq_ mine f f2 (some q) (some q1) → f2.object r = some (.inner n) := by
    intro f2 hre
    refine (hre.object r (h.fresh.lt hn) fun ho => ?_).trans hn
    exact h.holds.not_occurs_child hn hch (occursIn_some.mp ho.1)
  cases nq with
  | inner nq =>
    obtain ⟨c', hc'⟩ := hso.eq_inner hq
    rw [hc'] at hholds1
    obtain ⟨f2, k, hrun2, hre2, hholds2, hready2⟩ := hwa c' hc' f1 q1 _ hu.fresh
      (fun x hx => hnw x (hu.next_le.trans hx)) hholds1 hu.copy rfl
      hu.mine
    rw [← hc'] at hholds2 hready2
    have hre := hre1.trans hre2
    exact ⟨_, _, walkBranch_inner hn hsl hch hun (hk f2 hre) hq (hz _ hq) hrun2,
      h.shareChild hdi hm hpl hde hn hch hre hholds2 hready2⟩
  | leaf leaf =>
    have hh := hqo.leaf leaf rfl
    have hready1 : Represents f1 (Ready m.seq_) (c b) q1 := by
      rw [hso.eq_leaf hq]
      exact ⟨_, hu.copy, rfl, rfl, ⟨hh, nofun⟩, .inl rfl⟩
    exact ⟨_, _, walkBranch_leaf hn hsl hch hun (hk f1 hre1) hq (hz _ hq) hh
      hu.copy rfl, h.shareChild hdi hm hpl hde hn hch hre1 hholds1 hready1⟩

end Branch

omit [Sha512Half] in
theorem isEmpty_iff_branches (hsl : Slots f P c n) :
    n.isEmpty = (List.finRange 16).all fun i => (c i).isEmpty := by
  rw [isEmpty, funext hsl.isEmptyBranch_eq]

theorem hashes_updateHashDeep (hsl : Slots f P c n)
    (huu : ∀ j, n.mIsBranch j = false → n.mHashes j = 0)
    (hch : ∀ j q, n.mChildren j = some q → hashAt f q = (c j).digest) :
    Hashes r (.inner (n.updateHashDeep (hashAt f))) (.inner c) := by
  have hhs : ∀ j, (n.updateHashDeep (hashAt f)).mHashes j = (c j).digest := by
    intro j
    change (n.mChildren j).elim (n.mHashes j) (hashAt f) = (c j).digest
    cases hq : n.mChildren j with
    | none =>
      have hso := (hsl j).2
      have hbi := (hsl j).1
      rw [hq] at hso hbi
      rw [slot_none_iff.mp hso]
      exact huu j hbi
    | some q => exact hch j q hq
  refine ⟨?_, ?_⟩
  · have ha := isEmpty_iff_branches hsl
    change (if n.isEmpty then 0 else
      sha512Half (hashedBytes (n.updateHashDeep (hashAt f)).mHashes)) = _
    rw [Tree.digest, ha, funext hhs]
  · rintro _ c' ⟨⟩ ⟨⟩
    exact hhs

theorem hashAt_eq (h : Represents f Hashes t q) : hashAt f q = t.digest := by
  obtain ⟨nq, hq, hh⟩ := h.object
  rw [hashAt, hq]
  exact hh.1

theorem Walked.hashes (h : Walked m mine L f r c fun _ => True)
    (hn : f.object r = some (.inner n)) :
    Hashes r (.inner (n.updateHashDeep (hashAt f))) (.inner c) := by
  have hok := h.holds.of_object hn
  obtain ⟨n0, hn0, -, hd⟩ := h.own
  rw [hn] at hn0
  cases hn0
  refine hashes_updateHashDeep (h.holds.slots hn) (hok.unused n rfl) fun j q hq => ?_
  exact hashAt_eq (hashes_of_ready (hd j q trivial hq))

theorem Walked.updateHashDeep (hdi : Discipline m.seq_ mine L) (hm : mine r)
    (h : Walked m mine L f r c fun _ => True) (hn : f.object r = some (.inner n)) :
    Reworks m.seq_ mine f (f.put r (.inner (n.updateHashDeep (hashAt f)))) (some r) (some r) ∧
      Holds (f.put r (.inner (n.updateHashDeep (hashAt f)))) m.seq_ mine L (.inner c) r ∧
      Represents (f.put r (.inner (n.updateHashDeep (hashAt f)))) (Ready m.seq_) (.inner c) r := by
  have hhs := h.hashes hn
  have hok := h.holds.of_object hn
  have hsl := h.holds.slots hn
  obtain ⟨n0, hn0, hse, hd⟩ := h.own
  rw [hn] at hn0
  cases hn0
  have hf : ∀ j q, n.mChildren j = some q → ∀ x, Occurs f q x →
      (f.put r (.inner (n.updateHashDeep (hashAt f)))).object x = f.object x := by
    intro j q hq x hx
    refine object_put_ne _ _ ?_
    rintro rfl
    exact h.holds.not_occurs_child hn hq hx
  have hrp : Represents (f.put r (.inner (n.updateHashDeep (hashAt f)))) (Ready m.seq_)
      (.inner c) r := by
    refine ⟨_, object_put_self _ _ _, ⟨hhs, .inl hse⟩, fun j => ⟨(hsl j).1, ?_⟩⟩
    change Slot _ (Ready m.seq_) (c j) (n.mChildren j)
    have hso := (hsl j).2
    cases hq : n.mChildren j with
    | none =>
      rw [hq] at hso
      exact hso
    | some q =>
      exact (hd j q trivial hq).frame (hf j q hq) fun _ _ _ _ => id
  refine ⟨.put_inner h.fresh h.holds hn hm hse rfl, ?_, hrp⟩
  refine ⟨_, object_put_self _ _ _, ?_, fun j => ⟨(hsl j).1, ?_⟩⟩
  · refine ⟨hdi.extra _ _ hm hse, fun _ => hm, nofun, ?_,
      fun _ => hashes_of_ready hrp, fun hz => ?_⟩
    · rintro _ ⟨⟩ j hj
      rw [hhs.2 _ c rfl rfl j, Slots.eq_empty hsl hj]
      rfl
    · exact absurd (hse.symm.trans hz) hdi.seq_ne
  · refine Slot.imp (hsl j).2 fun q hq hso => ?_
    exact Holds.frame hso (hf j q hq)

theorem walkNode_run (hdi : Discipline m.seq_ mine L) {fuel : ℕ} (ht : t = .inner c)
    (hpl : (RadixTree.inner c).Placed d) (hde : ∀ i, (c i).Dense)
    (hfu : 64 ≤ fuel + d) : WalksWell m mine L (m.walkNode false fuel) c := by
  induction t generalizing c fuel d with
  | empty | leaf type item => cases ht
  | inner c' ih =>
    cases ht
    intro f r n hfr hnw h hn hse hm
    have hdp : d < 64 := hpl.1
    obtain ⟨fuel, rfl⟩ := (@Nat.exists_eq_add_one fuel).mpr (by omega)
    have hsa : Walked m mine L f r c' fun _ => False := ⟨hfr, h, n, hn, hse, fun _ _ => False.elim⟩
    have hb : ∀ b c'', c' b = .inner c'' → WalksWell m mine L (m.walkNode false fuel) c'' := by
      intro b c'' hc''
      have hpl' := (hpl.2 b).2
      have hde' := hde b
      rw [hc''] at hpl' hde'
      exact ih b hc'' hpl' hde'.2 (by omega)
    obtain ⟨f1, k, hrun1, hre1, hw⟩ := branches_run (m.walkBranch false _ r)
      (I := fun f1 done => Reworks m.seq_ mine f f1 (some r) (some r) ∧ Walked m mine L f1 r c' done)
      (fun f1 done b flushed ⟨hre1, h1⟩ => by
        obtain ⟨f2, k, hrun2, hre2, h2⟩ := walkBranch_run hdi (hb b)
          (fun x hx => hnw x (hre1.next_le.trans hx)) hm h1 hpl hde flushed
        exact ⟨f2, k, hrun2, hre1.trans hre2, h2⟩) ⟨.refl hfr _, hsa⟩
    obtain ⟨n1, hn1, -⟩ := hw.own
    obtain ⟨hre2, hholds2, hready2⟩ := hw.updateHashDeep hdi hm hn1
    refine ⟨_, k + 1, ?_, hre1.trans hre2, hholds2, hready2⟩
    rw [walkNode, run_bind hrun1, run_bind (loadInner_eq hn1)]
    rfl

omit [Sha512Half] in
theorem isEmpty_iff_tree (hsl : Slots f P c n) :
    n.isEmpty ↔ (RadixTree.inner c) = .inner fun _ => .empty := by
  rw [isEmpty_iff_branches hsl, List.all_eq_true]
  simp only [List.mem_finRange, forall_const, RadixTree.isEmpty_iff]
  exact ⟨fun h => congrArg RadixTree.inner (funext h), fun h => congrFun (RadixTree.inner.inj h)⟩

theorem hashes_empty (h : Holds f seq mine L (.inner fun _ => .empty) r) :
    Represents f Hashes (.inner fun _ => .empty) r := by
  obtain ⟨n, hn, hok, hsl⟩ := id h
  have hno : ∀ i, n.mChildren i = none := by
    intro i
    have hso := (hsl i).2
    cases hch : n.mChildren i with
    | none => rfl
    | some q =>
      rw [hch] at hso
      exact hso.elim
  refine ⟨n, hn, ⟨?_, ?_⟩, fun i => ⟨(hsl i).1, by rw [hno i]; rfl⟩⟩
  · by_cases hh : (SHAMapAbstractNode.inner n).getNodeHash = 0
    · exact hh
    · exact ((hok.hashed hh).of_object hn).1
  · rintro _ _ ⟨⟩ ⟨⟩ j
    exact hok.unused n rfl j (by rw [(hsl j).1, hno j]; rfl)

theorem unshare_empty (h : Represents f P (.inner fun _ => .empty) m.root_) : m.unshare f = .ok
    ((0, m), f) := by
  obtain ⟨n, hn, -, hsl⟩ := id h
  have he : n.isEmpty := (isEmpty_iff_tree hsl).mpr rfl
  rw [unshare, walkSubTree, run_bind (load_eq hn)]
  split
  · rfl
  · dsimp only
    rw [if_pos he]
    rfl

theorem getHash_empty (h : Represents f Hashes (.inner fun _ => .empty) m.root_) :
    m.getHash f = .ok ((Tree.digest (.inner fun _ => .empty), m), f) := by
  obtain ⟨n, hn, hh⟩ := h.object
  have h0 : n.getNodeHash = 0 := hh.1
  rw [getHash, run_bind (load_eq hn), if_pos h0, run_bind (unshare_empty h)]
  dsimp only
  rw [run_bind (load_eq hn), hh.1]
  rfl

variable (hdi : Discipline m.seq_ mine L) (hfr : f.Fresh) (hnw : ∀ x : ℕ, f.next ≤ x → mine x)
  (h : Holds f m.seq_ mine L t m.root_) (hrt : t.Rooted)
include hdi hfr hnw h hrt

theorem unshare_run :
    ∃ k m' f' n, m.unshare f = .ok ((k, m'), f') ∧ Changes m mine L f m' f' t ∧
      f'.object m'.root_ = some n ∧ n.getNodeHash = t.digest ∧
      (t ≠ .inner (fun _ => .empty) → Represents f' (Ready m.seq_) t m'.root_) := by
  have hrf := Changes.refl hfr h hrt
  obtain ⟨hpl, c, rfl, hde⟩ := id hrt
  obtain ⟨n, hn, hok, hsl⟩ := id h
  rw [unshare, walkSubTree, run_bind (load_eq hn)]
  by_cases hz : (SHAMapAbstractNode.inner n).getSeq = 0
  · rw [if_pos hz]
    exact ⟨0, m, f, _, rfl, hrf, hn, ((hok.isSealed hz).of_object hn).2.1,
      fun _ => ready_of_sealed (hok.isSealed hz)⟩
  rw [if_neg hz]
  dsimp only
  by_cases he : n.isEmpty
  · rw [if_pos he]
    have htr := (isEmpty_iff_tree hsl).mp he
    refine ⟨0, m, f, _, rfl, hrf, hn, ?_, fun hne => absurd htr hne⟩
    rw [htr] at h ⊢
    exact ((hashes_empty h).of_object hn).1
  · rw [if_neg he]
    obtain ⟨f1, r1, hun, hu⟩ := unshareNode_run (m := m) ⟨0, 1⟩ hn hfr hok.own hnw nofun
    obtain ⟨hholds1, hre1⟩ := hu.holds hdi hfr h hn
    obtain ⟨f2, k, hrun2, hre2, hholds2, hready2⟩ := walkNode_run (m := m) hdi rfl hpl hde
      (show 64 ≤ 64 + 0 by omega) f1 r1 _ hu.fresh
      (fun x hx => hnw x (hu.next_le.trans hx)) hholds1 hu.copy rfl hu.mine
    obtain ⟨n2, hn2, hro⟩ := hready2.object
    refine ⟨k, { m with root_ := r1 }, f2, n2, ?_, ⟨rfl, hre1.trans hre2, hholds2, hrt⟩, hn2,
      hro.1.1, fun _ => hready2⟩
    rw [run_bind (preFlushNode_eq hn hun), run_bind hrun2]
    rfl

theorem getHash_run :
    ∃ m' f', m.getHash f = .ok ((t.digest, m'), f') ∧ Changes m mine L f m' f' t ∧
      Represents f' Hashes t m'.root_ := by
  obtain ⟨n, hn, hok⟩ := h.object
  rw [getHash, run_bind (load_eq hn)]
  by_cases h0 : n.getNodeHash = 0
  · obtain ⟨k, m', f', n', run, hcg, hn', hh, hrd⟩ := unshare_run hdi hfr hnw h hrt
    rw [if_pos h0, run_bind run]
    dsimp only
    rw [run_bind (load_eq hn'), hh]
    refine ⟨m', f', rfl, hcg, ?_⟩
    by_cases he : t = .inner fun _ => .empty
    · subst he
      exact hashes_empty hcg.holds
    · exact hashes_of_ready (hrd he)
  · rw [if_neg h0]
    have hhs := hok.hashed h0
    refine ⟨m, f, ?_, .refl hfr h hrt, hhs⟩
    rw [(hhs.of_object hn).1]
    rfl

end SHAMap

end Sand
