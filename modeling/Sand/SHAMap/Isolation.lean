import Sand.SHAMap.Snapshots

/-!
# Isolation of snapshots

A change of one map does not show in the others, unless a snapshot was taken of an empty map.
-/

namespace Sand

open Family Function SHAMap Option List Prod

namespace Maps

section Runs

variable [Sha512Half] {S : Set HashedNode} {w w' : Maps} {owner owner' : NodeRef → ℕ}
  {trees : ℕ → Tree} {i j : ℕ} {m m' : SHAMap} {t t' : Tree}

/-- The maps' nodes are told apart by their hashes. -/
def Within (S : Set HashedNode) (w : Maps) : Prop :=
  ∀ m ∈ w.maps, ∀ t, m.HasTree w.family t → t.nodes ⊆ S

/-- So is the leaf that a change makes. -/
def Call.Within (S : Set HashedNode) : Call → Prop
  | .change _ (.addGiveItem item isTransaction hasMeta) =>
    HashedNode.leaf (leafType isTransaction hasMeta) item ∈ S
  | .change _ (.updateGiveItem item isTransaction hasMeta) =>
    HashedNode.leaf (leafType isTransaction hasMeta) item ∈ S
  | _ => True

inductive Reaches (S : Set HashedNode) (w0 : Maps) : Maps → Prop
  | refl : Reaches S w0 w0
  | step {w w' : Maps} {e : Call} (h : Reaches S w0 w) (hsa : e.Safe w)
      (hst : w.step e = some w') (hcl : e.Within S) (hwi : w'.Within S) : Reaches S w0 w'

theorem Sound.nodes_subset (h : Sound S w owner trees) (hw : w.Within S)
    (hi : w.maps[i]? = some m) : (trees i).nodes ⊆ S :=
  hw m (mem_of_getElem? hi) _ ((h.member i m hi).holds.mono fun _ _ _ _ => trivial)

variable {f : Family}

theorem leaf_mem_nodes {P : TreeProp} {r q : NodeRef}
    {leaf : SHAMapTreeNode} (h : Represents f P t r) (hq : Occurs f r q)
    (hl : f.object q = some (.leaf leaf)) : HashedNode.leaf leaf.mType leaf.mItem ∈ t.nodes := by
  induction t generalizing r with
  | empty => cases h
  | leaf type item =>
    obtain ⟨n, hn, rfl, rfl, -⟩ := h
    obtain rfl := hq.eq_of_leaf hn
    rw [hl] at hn
    cases hn
    rfl
  | inner c ih =>
    obtain ⟨n, hn, -⟩ := id h
    rcases hq.cases_inner hn with rfl | ⟨b, x, hb, hx⟩
    · rw [hl] at hn
      cases hn
    · have hs := (h.slots hn b).2.child hb
      exact .inr ⟨b, ih b hs hx⟩

theorem Sound.change (hf : HashedNode.CollisionFree S) (h : Sound S w owner trees)
    (hw : w.Within S) (hi : w.maps[i]? = some m) (hmu : m.state_ ≠ .Immutable)
    (c : SHAMap.Change) (hc : (Call.change i c).Within S) :
    ∃ m' f' t', w.step (.change i c) = some ⟨w.maps.set i m', f'⟩ ∧
      Sound S ⟨w.maps.set i m', f'⟩ (grow owner w.family.next i) (update trees i t') := by
  have hmb := h.member i m hi
  have hns := h.nodes_subset hw hi
  have hst : ∀ b m' f', m.change c w.family = .ok ((b, m'), f') →
      w.step (.change i c) = some ⟨w.maps.set i m', f'⟩ := by
    intro b m' f' run
    rw [step, hi, bind_some, if_neg hmu, run]
    rfl
  have hnw : ∀ x : ℕ, w.family.next ≤ x → w.Mine owner i x := fun _ => .inr
  have hho := hmb.working h.fresh
  cases c with
  | addGiveItem item isTransaction hasMeta =>
    obtain ⟨m', f', t', run, hch, -⟩ := addGiveItem_run hmb.discipline item
      isTransaction hasMeta h.fresh hnw hho hmb.rooted
    exact ⟨m', f', t', hst _ m' f' run, h.changes hi hmu hch⟩
  | updateGiveItem item isTransaction hasMeta =>
    have hset : m.Settled w.family item (leafType isTransaction hasMeta) := by
      intro q leaf hq hl _
      refine .inr fun hh => ?_
      have hsm := hf.1 hc (hns (leaf_mem_nodes hho hq hl)) hh
      obtain ⟨hty, hit⟩ := HashedNode.leaf.inj hsm
      exact ⟨hty.symm, hit.symm⟩
    obtain ⟨m', f', t', run, hch, -⟩ := updateGiveItem_run hmb.discipline item
      isTransaction hasMeta h.fresh hnw hho hmb.rooted hset
    exact ⟨m', f', t', hst _ m' f' run, h.changes hi hmu hch⟩
  | delItem key =>
    obtain ⟨m', f', t', run, hch, -⟩ := delItem_run hmb.discipline key h.fresh hnw hho hmb.rooted
    exact ⟨m', f', t', hst _ m' f' run, h.changes hi hmu hch⟩

omit [Sha512Half] in
theorem set_same (hi : w.maps[i]? = some m) : w.maps.set i m = w.maps := by
  obtain ⟨hlt, rfl⟩ := List.getElem?_eq_some_iff.mp hi
  exact List.set_getElem_self hlt

theorem Sound.unshare (h : Sound S w owner trees) (hi : w.maps[i]? = some m) :
    ∃ k m' f' owner', m.unshare w.family = .ok ((k, m'), f') ∧
      Sound S ⟨w.maps.set i m', f'⟩ owner' trees := by
  have hmb := h.member i m hi
  by_cases him : m.state_ = .Immutable
  · obtain ⟨k, run⟩ := unshare_ready (hmb.ready him) hmb.rooted
    refine ⟨k, m, w.family, owner, run, ?_⟩
    rw [set_same hi]
    exact h
  · obtain ⟨k, m', f', -, run, hch, -⟩ := unshare_run hmb.discipline h.fresh
      (fun _ => .inr) (hmb.working h.fresh) hmb.rooted
    have hsn := h.changes hi him hch
    rw [update_eq_self] at hsn
    exact ⟨k, m', f', _, run, hsn⟩

theorem Sound.getHash (h : Sound S w owner trees) (hi : w.maps[i]? = some m) :
    ∃ m' f' owner', m.getHash w.family = .ok (((trees i).digest, m'), f') ∧
      Sound S ⟨w.maps.set i m', f'⟩ owner' trees ∧ Represents f' Hashes (trees i) m'.root_ ∧
      ∀ j m₀ x, i ≠ j → w.maps[j]? = some m₀ → Occurs w.family m₀.root_ x →
        f'.object x = w.family.object x := by
  have hmb := h.member i m hi
  by_cases him : m.state_ = .Immutable
  · have hrd := hmb.ready him
    refine ⟨m, w.family, owner, getHash_ready hrd hmb.rooted, ?_,
      hashes_of_ready hrd, fun _ _ _ _ _ _ => rfl⟩
    rw [set_same hi]
    exact h
  · obtain ⟨m', f', run, hch, hhs⟩ := getHash_run hmb.discipline h.fresh
      (fun _ => .inr) (hmb.working h.fresh) hmb.rooted
    have hsn := h.changes hi him hch
    rw [update_eq_self] at hsn
    exact ⟨m', f', _, run, hsn, hhs,
      fun _ _ _ hij hj hx => h.object_of_changes hi him hch hj hij hx⟩

theorem Sound.flushDirty (hf : HashedNode.CollisionFree S) (h : Sound S w owner trees)
    (hw : w.Within S) (hi : w.maps[i]? = some m) :
    ∃ k m' f' owner', m.flushDirty w.family = .ok ((k, m'), f') ∧
      Sound S ⟨w.maps.set i m', f'⟩ owner' trees := by
  have hmb := h.member i m hi
  obtain ⟨k, r', f', run, hsl, hca, hr⟩ := flushDirty_run hf hmb.discipline
    (fun _ _ hz hne => absurd hz hne) hmb.backed h.fresh h.cached (fun _ => .inr)
    (hmb.working h.fresh) hmb.rooted (h.nodes_subset hw hi)
  exact ⟨k, _, f', _, run, h.seals hi hsl hca hr⟩

theorem Sound.step (hf : HashedNode.CollisionFree S) (h : Sound S w owner trees)
    (hw : w.Within S) {e : Call} (hsa : e.Safe w) (hcl : e.Within S)
    (hst : w.step e = some w') : ∃ owner' trees', Sound S w' owner' trees' := by
  cases e with
  | make seq =>
    by_cases hse : seq = 0
    · rw [Maps.step, if_pos hse] at hst
      cases hst
    · rw [Maps.step, if_neg hse] at hst
      cases hst
      exact ⟨_, _, h.make hse⟩
  | snapShot i isMutable =>
    obtain ⟨m, hi, hst⟩ := bind_eq_some_iff.mp hst
    obtain ⟨hne, hnu⟩ := hsa m hi
    obtain ⟨newMap, f', owner', run, hsn⟩ := h.snapShot hi hne hnu isMutable
    rw [run] at hst
    cases hst
    exact ⟨_, _, hsn⟩
  | change i c =>
    obtain ⟨m, hi, run⟩ := bind_eq_some_iff.mp hst
    by_cases him : m.state_ = .Immutable
    · rw [if_pos him] at run
      cases run
    obtain ⟨m', f', t', hst', hsn⟩ := h.change hf hw hi him c hcl
    rw [hst] at hst'
    cases hst'
    exact ⟨_, _, hsn⟩
  | getHash i =>
    obtain ⟨m, hi, hst⟩ := bind_eq_some_iff.mp hst
    obtain ⟨m', f', owner', run, hsn, -⟩ := h.getHash hi
    rw [run] at hst
    cases hst
    exact ⟨_, _, hsn⟩
  | unshare i =>
    obtain ⟨m, hi, hst⟩ := bind_eq_some_iff.mp hst
    obtain ⟨k, m', f', owner', run, hsn⟩ := h.unshare hi
    rw [run] at hst
    cases hst
    exact ⟨_, _, hsn⟩
  | flushDirty i =>
    obtain ⟨m, hi, hst⟩ := bind_eq_some_iff.mp hst
    obtain ⟨k, m', f', owner', run, hsn⟩ := h.flushDirty hf hw hi
    rw [run] at hst
    cases hst
    exact ⟨_, _, hsn⟩

theorem Sound.within (h : Sound S w owner trees)
    (hns : ∀ i m, w.maps[i]? = some m → (trees i).nodes ⊆ S) : w.Within S := by
  intro m hm t ht
  obtain ⟨i, hi⟩ := mem_iff_getElem?.mp hm
  rw [ht.unique (h.member i m hi).holds]
  exact hns i m hi

theorem sound_nil (hfr : f.Fresh) (hca : f.Cached S) (owner : NodeRef → ℕ)
    (trees : ℕ → Tree) : Sound S ⟨[], f⟩ owner trees :=
  ⟨hfr, hca, nofun⟩

theorem sound_make {seq : ℕ} (hfr : f.Fresh) (hca : f.Cached S) (hse : seq ≠ 0) :
    ∃ owner, Sound S ⟨[⟨seq, f.next, .Modifying, true⟩], f.add (.inner { mSeq := seq })⟩ owner
      fun _ => .inner fun _ => .empty := by
  have h := (sound_nil hfr hca (fun _ => 0) fun _ => .inner fun _ => .empty).make hse
  rw [update_eq_self] at h
  exact ⟨_, h⟩

theorem nodes_empty : Tree.nodes (.inner fun _ => .empty) ⊆ S := by
  rintro x (⟨⟨i, hi⟩, -⟩ | ⟨i, hi⟩)
  · exact absurd rfl hi
  · cases hi

theorem Reaches.sound (hf : HashedNode.CollisionFree S) {w0 : Maps}
    (h0 : Sound S w0 owner trees) (hw0 : w0.Within S) (h : Reaches S w0 w) :
    (∃ owner trees, Sound S w owner trees) ∧ w.Within S := by
  induction h with
  | refl => exact ⟨⟨_, _, h0⟩, hw0⟩
  | step _ hsa hst hcl hwi ih =>
    obtain ⟨⟨owner, trees, hsn⟩, hw⟩ := ih
    exact ⟨hsn.step hf hw hsa hcl hst, hwi⟩

/-- What a map shows: items and hash. -/
def Same (m : SHAMap) (f f' : Family) : Prop :=
  (∀ k, (m.peekItem k f).map fst = (m.peekItem k f').map fst) ∧
    (m.getHash f).map (fun x => x.1.1) = (m.getHash f').map fun x => x.1.1

theorem Sound.same {trees' : ℕ → Tree}
    (h : Sound S w owner trees) (h' : Sound S w' owner' trees') (hj : w.maps[j]? = some m)
    (hj' : w'.maps[j]? = some m) (htr : trees' j = trees j) : Same m w.family w'.family := by
  have hmb := h.member j m hj
  have hmb' := h'.member j m hj'
  rw [htr] at hmb'
  constructor
  · intro k
    rw [peekItem_run k hmb.holds hmb.rooted.placed, peekItem_run k hmb'.holds hmb.rooted.placed]
    rfl
  · obtain ⟨m1, f₁, -, run, -⟩ := h.getHash hj
    obtain ⟨m2, f2, -, run', -⟩ := h'.getHash hj'
    rw [run, run', htr]
    rfl

/-- As long as no snapshot is taken of an empty map, a change of one map leaves all others as they
are. -/
theorem change_isolated (hf : HashedNode.CollisionFree S) {f₀ f₁ : Family} {m₀ : SHAMap}
    {seq : ℕ} (hfr : f₀.Fresh) (hca : f₀.Cached S) (hse : seq ≠ 0)
    (hmk : SHAMap.make seq f₀ = .ok (m₀, f₁)) (hre : Reaches S ⟨[m₀], f₁⟩ w)
    (hi : w.maps[i]? = some m) (hmu : m.state_ ≠ .Immutable) (c : SHAMap.Change)
    (hc : (Call.change i c).Within S) :
    ∃ w', w.step (.change i c) = some w' ∧ ∀ j m', j ≠ i → w.maps[j]? = some m' →
      w'.maps[j]? = some m' ∧ Same m' w.family w'.family := by
  cases hmk
  obtain ⟨owner0, hsr⟩ := sound_make hfr hca hse
  have hwi := hsr.within fun _ _ _ => nodes_empty
  obtain ⟨⟨owner, trees, hsn⟩, hw⟩ := hre.sound hf hsr hwi
  obtain ⟨m1, f', t', hst, hsn'⟩ := hsn.change hf hw hi hmu c hc
  refine ⟨_, hst, fun j m' hji hj => ?_⟩
  have hj' : (w.maps.set i m1)[j]? = some m' := by
    rw [List.getElem?_set_ne (Ne.symm hji), hj]
  exact ⟨hj', hsn.same hsn' hj hj' (update_of_ne hji _ _)⟩

end Runs

/-- One new map, to which nothing was done. -/
def oneMap : Maps := ⟨[⟨1, 0, .Modifying, true⟩], SHAMap.noNodes.add (.inner { mSeq := 1 })⟩

def oneItem : SHAMapItem := ⟨0x1#256 <<< 252, [1]⟩

def oneTree : Tree :=
  .inner (update (fun _ => .empty) ⟨1, by decide⟩ (.leaf .tnACCOUNT_STATE oneItem))

theorem rooted_oneTree : oneTree.Rooted := by
  refine .of_update ⟨by decide, fun i => ?_⟩ (fun _ => trivial) trivial
  obtain rfl | hi := eq_or_ne i ⟨1, by decide⟩
  · refine ⟨fun a ha => ?_, trivial⟩
    rw [mem_singleton.mp ha]
    decide
  · rw [update_of_ne hi]
    exact ⟨nofun, trivial⟩

theorem mem_items_oneTree {x : SHAMapItem} : x ∈ oneTree.items ↔ x = oneItem := by
  rw [oneTree, RadixTree.mem_items_inner]
  constructor
  · rintro ⟨i, hi⟩
    obtain rfl | h := eq_or_ne i ⟨1, by decide⟩
    · exact mem_singleton.mp hi
    · rw [update_of_ne h] at hi
      cases hi
  · rintro rfl
    exact ⟨⟨1, by decide⟩, by rw [update_self]; exact mem_singleton_self _⟩

theorem tagged_oneTree : oneTree.Tagged .tnACCOUNT_STATE := by
  intro i
  obtain rfl | h := eq_or_ne i ⟨1, by decide⟩
  · rfl
  · rw [update_of_ne h]
    trivial

theorem collisionFree_oneTree :
    let _ : Sha512Half := plainHalf
    HashedNode.CollisionFree oneTree.nodes := by
  intro _
  have hns : ∀ x ∈ oneTree.nodes, x = .leaf .tnACCOUNT_STATE oneItem ∨
      x = .inner fun i => Tree.digest ((update (fun _ => .empty) ⟨1, by decide⟩
        (.leaf .tnACCOUNT_STATE oneItem) : Fin 16 → Tree) i) := by
    rintro x (⟨-, rfl⟩ | ⟨i, hx⟩)
    · exact .inr rfl
    · obtain rfl | hi := eq_or_ne i ⟨1, by decide⟩
      · exact .inl hx
      · rw [update_of_ne hi] at hx
        cases hx
  have hl : (HashedNode.leaf .tnACCOUNT_STATE oneItem).hash ≠ 0 := by decide +kernel
  have hin : (HashedNode.inner fun i => Tree.digest ((update (fun _ => .empty) ⟨1, by decide⟩
      (.leaf .tnACCOUNT_STATE oneItem) : Fin 16 → Tree) i)).hash ≠ 0 := by decide +kernel
  have hne : (HashedNode.leaf .tnACCOUNT_STATE oneItem).hash ≠
      (HashedNode.inner fun i => Tree.digest ((update (fun _ => .empty) ⟨1, by decide⟩
        (.leaf .tnACCOUNT_STATE oneItem) : Fin 16 → Tree) i)).hash := by decide +kernel
  constructor
  · intro x hx y hy hxy
    rcases hns x hx with rfl | rfl <;> rcases hns y hy with rfl | rfl
    · rfl
    · exact absurd hxy hne
    · exact absurd hxy.symm hne
    · rfl
  · intro x hx
    rcases hns x hx with rfl | rfl
    · exact hl
    · exact hin

theorem within_addOne :
    let _ : Sha512Half := plainHalf
    (Call.change 0 (.addGiveItem oneItem false false)).Within oneTree.nodes :=
  .inr ⟨⟨1, by decide⟩, by rw [update_self]; rfl⟩

theorem oneMap_added :
    let _ : Sha512Half := plainHalf
    ∃ m1 f₁ owner, oneMap.step (.change 0 (.addGiveItem oneItem false false)) = some ⟨[m1], f₁⟩ ∧
      m1.isEmpty f₁ = false ∧ m1.seq_ + 1 < 2 ^ 32 ∧ m1.state_ = .Modifying ∧
      Within oneTree.nodes ⟨[m1], f₁⟩ ∧ Sound oneTree.nodes ⟨[m1], f₁⟩ owner
        (update (fun _ => .inner fun _ => .empty) 0 oneTree) := by
  intro _
  have hfr : SHAMap.noNodes.Fresh := fun _ _ => rfl
  have hca : SHAMap.noNodes.Cached oneTree.nodes := nofun
  obtain ⟨owner0, h0⟩ : ∃ owner, Sound oneTree.nodes oneMap owner fun _ => .inner fun _ => .empty :=
    sound_make hfr hca one_ne_zero
  have hmap0 : oneMap.maps[0]? = some ⟨1, 0, .Modifying, true⟩ := rfl
  have hmember0 := h0.member 0 _ hmap0
  obtain ⟨m1, f₁, t1, hrun1, hch, his, hta⟩ := addGiveItem_run hmember0.discipline
    oneItem false false h0.fresh (fun _ => .inr) (hmember0.working h0.fresh) hmember0.rooted
  have ht1 : t1 = oneTree := by
    refine hch.rooted.eq_of_items rooted_oneTree (hta fun _ => trivial) tagged_oneTree fun x => ?_
    rw [his, mem_items_oneTree]
    simp [RadixTree.items, RadixTree.lookup]
  have h1 := h0.changes hmap0 (by rintro ⟨⟩) hch
  rw [ht1] at h1
  refine ⟨m1, f₁, _, ?_, ?_, ?_, ?_, h1.within fun i m hi => ?_, h1⟩
  · rw [step, hmap0, bind_some, if_neg (by rintro ⟨⟩), SHAMap.change, hrun1]
    rfl
  · rw [← Bool.not_eq_true, h1.isEmpty_iff (i := 0) rfl, update_self]
    intro heq
    cases congrFun (RadixTree.inner.inj heq) 1
  · rw [hch.map]
    exact show 1 + 1 < 2 ^ 32 by decide
  · rw [hch.map]
  · have hlt : i < 1 := (List.getElem?_eq_some_iff.mp hi).1
    rw [Nat.lt_one_iff.mp hlt, update_self]

theorem oneMap_isolated :
    let _ : Sha512Half := plainHalf
    ∃ w m' w', Reaches oneTree.nodes oneMap w ∧ w.maps[1]? = some m' ∧
      w.step (.change 0 (.delItem oneItem.key)) = some w' ∧ w'.maps[1]? = some m' ∧
      Same m' w.family w'.family := by
  intro _
  have hf := collisionFree_oneTree
  have hfr : SHAMap.noNodes.Fresh := fun _ _ => rfl
  have hca : SHAMap.noNodes.Cached oneTree.nodes := nofun
  obtain ⟨m1, f₁, owner1, hstep1, hfull, hseq, hstate1, hw1, h1⟩ := oneMap_added
  -- the snapshot is taken
  obtain ⟨m', f2, owner2, hrun2, h2⟩ := h1.snapShot (i := 0) rfl hfull hseq false
  have hstep2 : step ⟨[m1], f₁⟩ (.snapShot 0 false) = some ⟨[m1, m'], f2⟩ := by
    rw [step, show (⟨[m1], f₁⟩ : Maps).maps[0]? = some m1 from rfl, bind_some, hrun2]
    rfl
  have hw2 : Within oneTree.nodes ⟨[m1, m'], f2⟩ := h2.within fun i m hi => by
    have hlt : i < 2 := (List.getElem?_eq_some_iff.mp hi).1
    rw [update_apply]
    split
    · rw [update_self]
    next hne =>
      have hze : i = 0 := by
        change ¬i = 1 at hne
        omega
      rw [hze, update_self]
  have hre : Reaches oneTree.nodes oneMap ⟨[m1, m'], f2⟩ := by
    have hsafe2 : (Call.snapShot 0 false).Safe ⟨[m1], f₁⟩ := by
      rintro m ⟨⟩
      exact ⟨hfull, hseq⟩
    have hreach1 := Reaches.step .refl (show Call.Safe _ (.change 0 _) from trivial) hstep1
      within_addOne hw1
    exact hreach1.step hsafe2 hstep2 trivial hw2
  have hmu : m1.state_ ≠ .Immutable := by
    rw [hstate1]
    rintro ⟨⟩
  obtain ⟨w', hst, ho⟩ := change_isolated hf hfr hca one_ne_zero
    (show SHAMap.make 1 noNodes = .ok (⟨1, 0, .Modifying, true⟩, oneMap.family) from rfl)
    hre (i := 0) rfl hmu (.delItem oneItem.key) trivial
  exact ⟨_, m', w', hre, rfl, hst, ho 1 m' one_ne_zero rfl⟩

theorem maps_of_change [Sha512Half] {w w' : Maps} {i : ℕ} {c : SHAMap.Change}
    (h : w.step (.change i c) = some w') : ∃ m', w'.maps = w.maps.set i m' := by
  obtain ⟨m, -, run⟩ := bind_eq_some_iff.mp h
  split at run
  · cases run
  cases hrs : m.change c w.family with
  | error e =>
    rw [hrs] at run
    cases run
  | ok out =>
    rw [hrs] at run
    cases run
    exact ⟨_, rfl⟩

/-- A snapshot of a new map shares its root, and its changes. -/
theorem emptySnapshot_changes :
    let _ : Sha512Half := plainHalf
    ∃ w m' w', oneMap.step (.snapShot 0 false) = some w ∧ w.maps[1]? = some m' ∧
      w.step (.change 0 (.addGiveItem oneItem false false)) = some w' ∧ w'.maps[1]? = some m' ∧
      (m'.peekItem oneItem.key w.family).toOption.map fst = some none ∧
      (m'.peekItem oneItem.key w'.family).toOption.map fst = some (some oneItem) := by
  intro _
  have hbe : ((oneMap.step (.snapShot 0 false)).bind fun w => w.maps[1]?.bind fun m' =>
      (m'.peekItem oneItem.key w.family).toOption.map fst) = some none := by decide +kernel
  obtain ⟨w, hw, hbe⟩ := bind_eq_some_iff.mp hbe
  obtain ⟨m', hm', hbe⟩ := bind_eq_some_iff.mp hbe
  have haf : ((oneMap.step (.snapShot 0 false)).bind fun w =>
      (w.step (.change 0 (.addGiveItem oneItem false false))).bind fun w' =>
        w'.maps[1]?.bind fun m' => (m'.peekItem oneItem.key w'.family).toOption.map fst) =
      some (some oneItem) := by decide +kernel
  rw [hw, bind_some] at haf
  obtain ⟨w', hw', haf⟩ := bind_eq_some_iff.mp haf
  have hsm : w'.maps[1]? = some m' := by
    obtain ⟨m₀, hma⟩ := maps_of_change hw'
    rw [hma, List.getElem?_set_ne zero_ne_one, hm']
  rw [hsm, bind_some] at haf
  exact ⟨w, m', w', hw, hm', hw', hsm, hbe, haf⟩

end Maps

end Sand
