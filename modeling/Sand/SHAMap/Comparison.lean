import Sand.SHAMap.DeltaLoops
import Sand.SHAMap.Isolation

/-!
# Comparison of maps

Two maps of a family, or snapshots of such maps, are compared.
-/

namespace Sand

open Family SHAMapDelta Function List SHAMap Option

namespace Maps

section Model

variable [Sha512Half]

def hashOf (w : Maps) (i : ℕ) : Option (UInt256 × Maps) := w.maps[i]?.bind fun m =>
  match m.getHash w.family with
  | .ok ((hash, m), f) => some (hash, ⟨w.maps.set i m, f⟩)
  | .error _ => none

/-- Two maps, which may be the same. -/
def compare (fuel : ℕ) (w : Maps) (i j : ℕ) (maxCount : ℤ) : Option ((Bool × Delta) × Maps) := do
  let (hash, w) ← w.hashOf i
  let (otherHash, w) ← w.hashOf j
  if hash = otherHash then return ((true, .empty), w)
  else
    let m ← w.maps[i]?
    let otherMap ← w.maps[j]?
    match compareLoop m otherMap fuel [(m.root_, otherMap.root_)] ⟨.empty, maxCount⟩ w.family with
    | .ok ((complete, s), f) => some ((complete, s.differences), ⟨w.maps, f⟩)
    | .error _ => none

def pick (w : Maps) (i : ℕ) : Option Bool → Option (ℕ × Maps)
  | none => some (i, w)
  | some isMutable => (w.step (.snapShot i isMutable)).map fun w' => (w.maps.length, w')

def Shows (w : Maps) (i : ℕ) (items : UInt256 → Option SHAMapItem) : Prop :=
  ∃ m, w.maps[i]? = some m ∧ ∀ k, (m.peekItem k w.family).map Prod.fst = .ok (items k)

end Model

section Mirrors

variable [Sha512Half]

/-- The maps are apart, or have an empty one's root. -/
structure Mirrors (S : Set HashedNode) (w b : Maps) (owner : NodeRef → ℕ) (trees : ℕ → Tree)
    (source : ℕ → ℕ) : Prop where
  sound : Sound S b owner trees
  family : w.family = b.family
  view : ∀ k m, w.maps[k]? = some m → ∃ m0, b.maps[source k]? = some m0 ∧
    (m = m0 ∨ (trees (source k) = .inner fun _ => .empty) ∧ m.root_ = m0.root_)
  nodes : ∀ k, k < w.maps.length → (trees (source k)).nodes ⊆ S
  apart : ∀ k l, k < w.maps.length → l < w.maps.length → k ≠ l →
    source k ≠ source l ∨ trees (source k) = .inner fun _ => .empty

variable {S : Set HashedNode} {w b b' : Maps} {owner owner' : NodeRef → ℕ}
  {trees trees' : ℕ → Tree} {source : ℕ → ℕ} {i j k : ℕ} {m m' : SHAMap}

omit [Sha512Half] in
theorem lt_of_get (hi : w.maps[i]? = some m) : i < w.maps.length :=
  (List.getElem?_eq_some_iff.mp hi).1

section

variable (h : Mirrors S w b owner trees source) (hi : w.maps[i]? = some m)
include h hi

theorem Mirrors.root :
    ∃ m0, b.maps[source i]? = some m0 ∧ m.root_ = m0.root_ := by
  obtain ⟨m0, hm0, rfl | ⟨-, hr⟩⟩ := h.view i m hi
  · exact ⟨m, hm0, rfl⟩
  · exact ⟨m0, hm0, hr⟩

theorem Mirrors.rooted : (trees (source i)).Rooted := by
  obtain ⟨m0, hm0, -⟩ := h.root hi
  exact (h.sound.member _ m0 hm0).rooted

theorem Mirrors.shows : w.Shows i fun k => (trees (source i)).lookup k 0 := by
  refine ⟨m, hi, fun k => ?_⟩
  obtain ⟨m0, hm0, hr⟩ := h.root hi
  have hh := (h.sound.member _ m0 hm0).holds
  rw [← hr, ← h.family] at hh
  rw [peekItem_run k hh (h.rooted hi).placed]
  rfl

end

theorem Mirrors.refl (h : Sound S w owner trees) (hw : w.Within S) :
    Mirrors S w w owner trees id where
  sound := h
  family := rfl
  view _ m hk := ⟨m, hk, .inl rfl⟩
  nodes _ hk := h.nodes_subset hw (List.getElem?_eq_getElem hk)
  apart _ _ _ _ hne := .inl hne

section

variable (h : Mirrors S w b owner trees source) (hi : w.maps[i]? = some m)
include h hi

theorem Mirrors.hashes_empty (he : trees (source i) = .inner fun _ => .empty) :
    Represents w.family Hashes (.inner fun _ => .empty) m.root_ := by
  obtain ⟨m0, hm0, hr⟩ := h.root hi
  have hh := (h.sound.member _ m0 hm0).holds
  rw [he, ← hr, ← h.family] at hh
  exact SHAMap.hashes_empty hh

theorem Mirrors.getHash :
    ∃ m' f' b' owner', m.getHash w.family = .ok (((trees (source i)).digest, m'), f') ∧
      Mirrors S ⟨w.maps.set i m', f'⟩ b' owner' trees source ∧
      Represents f' Hashes (trees (source i)) m'.root_ ∧
      ∀ k m1 x, i ≠ k → w.maps[k]? = some m1 → Occurs w.family m1.root_ x →
        f'.object x = w.family.object x := by
  by_cases he : trees (source i) = .inner fun _ => .empty
  · have hhs := h.hashes_empty hi he
    refine ⟨m, w.family, b, owner, ?_, ?_, ?_, fun _ _ _ _ _ _ => rfl⟩
    · rw [he]
      exact getHash_empty hhs
    · rw [set_same hi]
      exact h
    · rw [he]
      exact hhs
  · obtain ⟨m0, hm0, rfl | ⟨hab, -⟩⟩ := h.view i m hi
    · have ho : ∀ k, i ≠ k → k < w.maps.length → source i ≠ source k := fun k hik hk =>
        (h.apart i k (lt_of_get hi) hk hik).resolve_right he
      obtain ⟨m', f', owner', run, hsn, hhs, hob⟩ := h.sound.getHash hm0
      rw [← h.family] at run hob
      refine ⟨m', f', _, owner', run, ⟨hsn, rfl, fun k m1 hk => ?_, ?_, ?_⟩, hhs,
        fun k m1 x hik hk hx => ?_⟩
      · obtain rfl | hik := eq_or_ne i k
        · rw [List.getElem?_set_self (lt_of_get hi)] at hk
          cases hk
          exact ⟨m', List.getElem?_set_self (lt_of_get hm0), .inl rfl⟩
        · rw [List.getElem?_set_ne hik] at hk
          rw [List.getElem?_set_ne (ho k hik (lt_of_get hk))]
          exact h.view k m1 hk
      · rw [length_set]
        exact h.nodes
      · rw [length_set]
        exact h.apart
      · obtain ⟨m2, hm2, hr⟩ := h.root hk
        exact hob _ m2 x (ho k hik (lt_of_get hk)) hm2 (hr ▸ hx)
    · exact absurd hab he

theorem Mirrors.hashOf :
    ∃ m' f' b' owner', w.hashOf i = some ((trees (source i)).digest, ⟨w.maps.set i m', f'⟩) ∧
      Mirrors S ⟨w.maps.set i m', f'⟩ b' owner' trees source ∧
      Represents f' Hashes (trees (source i)) m'.root_ ∧
      ∀ k m1, i ≠ k → w.maps[k]? = some m1 →
        Represents w.family Hashes (trees (source k)) m1.root_ →
        Represents f' Hashes (trees (source k)) m1.root_ := by
  obtain ⟨m', f', b', owner', run, hm, hhs, hob⟩ := h.getHash hi
  refine ⟨m', f', b', owner', ?_, hm, hhs, fun k m1 hik hk hrp => ?_⟩
  · rw [Maps.hashOf, hi, bind_some, run]
  · exact hrp.frame (fun x hx => hob k m1 x hik hk hx) fun _ _ _ _ => id

end

theorem compare_eq {w₁ w₂ : Maps} {hash otherHash : UInt256} (fuel : ℕ) (maxc : ℤ)
    (h1 : w.hashOf i = some (hash, w₁)) (h2 : w₁.hashOf j = some (otherHash, w₂)) :
    w.compare fuel i j maxc =
      if hash = otherHash then some ((true, .empty), w₂)
      else w₂.maps[i]?.bind fun m => w₂.maps[j]?.bind fun otherMap =>
        match compareLoop m otherMap fuel [(m.root_, otherMap.root_)] ⟨.empty, maxc⟩
          w₂.family with
        | .ok ((complete, s), f) => some ((complete, s.differences), ⟨w₂.maps, f⟩)
        | .error _ => none := by
  simp only [Maps.compare, h1, h2, bind_eq_bind, bind_some]
  rfl

theorem Mirrors.compare (hf : HashedNode.CollisionFree S) (h : Mirrors S w b owner trees source)
    (hi : w.maps[i]? = some m) (hj : w.maps[j]? = some m') {maxc : ℤ} (hp : 0 < maxc) :
    ∃ result w', Eventually (fun fuel => w.compare fuel i j maxc) (some (result, w')) ∧
      Right maxc (fun k => (trees (source i)).lookup k 0)
        (fun k => (trees (source j)).lookup k 0) result := by
  have hrt := h.rooted hi
  have hrt' := h.rooted hj
  have hns := h.nodes i (lt_of_get hi)
  have hns' := h.nodes j (lt_of_get hj)
  obtain ⟨m1, f1, b1, owner1, hrun1, h1, hhashes1, -⟩ := h.hashOf hi
  obtain ⟨m2, hm2⟩ : ∃ m2, (w.maps.set i m1)[j]? = some m2 := by
    refine ⟨_, List.getElem?_eq_getElem ?_⟩
    rw [length_set]
    exact lt_of_get hj
  obtain ⟨m3, f3, b3, owner3, hrun3, -, hhashes3, hke⟩ := h1.hashOf hm2
  by_cases heq : (trees (source i)).digest = (trees (source j)).digest
  · refine ⟨(true, .empty), ⟨(w.maps.set i m1).set j m3, f3⟩, ⟨0, fun fuel _ => ?_⟩,
      right_of_digest hf hrt hrt' hns hns' heq maxc⟩
    exact (compare_eq fuel maxc hrun1 hrun3).trans (if_pos heq)
  have hij : i ≠ j := by
    rintro rfl
    exact heq rfl
  have hg : (w.maps.set i m1)[i]? = some m1 := List.getElem?_set_self (lt_of_get hi)
  have hours := hke i m1 (Ne.symm hij) hg hhashes1
  obtain ⟨steps, hst⟩ := compareLoop_run (m := m1) hours hhashes3 ⟨.empty, maxc⟩
  refine ⟨_, ⟨(w.maps.set i m1).set j m3, f3⟩, ⟨steps, fun fuel hfu => ?_⟩,
    right_of_trees hf hrt hrt' hns hns' hp⟩
  have hlo : compareLoop m1 m3 fuel [(m1.root_, m3.root_)] ⟨.empty, maxc⟩ f3 = _ := hst fuel hfu
  have hget1 : ((w.maps.set i m1).set j m3)[i]? = some m1 := by
    rw [List.getElem?_set_ne (Ne.symm hij), hg]
  have hget3 : ((w.maps.set i m1).set j m3)[j]? = some m3 :=
    List.getElem?_set_self (List.getElem?_eq_some_iff.mp hm2).1
  refine (compare_eq fuel maxc hrun1 hrun3).trans ((if_neg heq).trans ?_)
  rw [hget1, bind_some, hget3, bind_some, hlo]

theorem Mirrors.append (h : Mirrors S w b owner trees source) (hsn : Sound S b' owner' trees')
    (hkp : ∀ k m, b.maps[k]? = some m → b'.maps[k]? = some m ∧ trees' k = trees k)
    {v u : SHAMap} {s : ℕ} (hs : b'.maps[s]? = some u)
    (hv : v = u ∨ (trees' s = .inner fun _ => .empty) ∧ v.root_ = u.root_)
    (hns : (trees' s).nodes ⊆ S)
    (ha : (∀ k, k < w.maps.length → source k ≠ s) ∨ trees' s = .inner fun _ => .empty) :
    Mirrors S ⟨w.maps ++ [v], b'.family⟩ b' owner' trees' (update source w.maps.length s) := by
  have ht : ∀ k, k < w.maps.length → trees' (source k) = trees (source k) := by
    intro k hk
    obtain ⟨m1, hm1, -⟩ := h.root (List.getElem?_eq_getElem hk)
    exact (hkp _ m1 hm1).2
  have hsp : ∀ k, k < (w.maps ++ [v]).length → k < w.maps.length ∨ k = w.maps.length := by
    intro k hk
    rw [length_append, length_singleton] at hk
    omega
  have hold : ∀ k, k < w.maps.length → update source w.maps.length s k = source k := fun k hk =>
    update_of_ne (Nat.ne_of_lt hk) _ _
  have hnw : update source w.maps.length s w.maps.length = s := update_self ..
  refine ⟨hsn, rfl, fun k m1 hk => ?_, fun k hk => ?_, fun k l hk hl hkl => ?_⟩
  · rcases hsp k (List.getElem?_eq_some_iff.mp hk).1 with hlt | rfl
    · rw [hold k hlt, ht k hlt]
      rw [List.getElem?_append_left hlt] at hk
      obtain ⟨m2, hm2, hvi⟩ := h.view k m1 hk
      exact ⟨m2, (hkp _ m2 hm2).1, hvi⟩
    · have hm1 : m1 = v := by simpa using hk.symm
      rw [hnw, hm1]
      exact ⟨u, hs, hv⟩
  · rcases hsp k hk with hlt | rfl
    · rw [hold k hlt, ht k hlt]
      exact h.nodes k hlt
    · rw [hnw]
      exact hns
  · rcases hsp k hk with hlt | rfl <;> rcases hsp l hl with hlt' | rfl
    · rw [hold k hlt, hold l hlt', ht k hlt]
      exact h.apart k l hlt hlt' hkl
    · rw [hold k hlt, hnw]
      rcases ha with hne | he
      · exact .inl (hne k hlt)
      · by_cases heq : source k = s
        · exact .inr (heq ▸ he)
        · exact .inl heq
    · rw [hold l hlt', hnw]
      exact ha.imp_left fun hne => (hne l hlt').symm
    · exact absurd rfl hkl

theorem snapShot_empty {f : Family} {P : TreeProp}
    (h : Represents (f.add (.inner { mSeq := 1 })) P (.inner fun _ => .empty) m.root_)
    (im : Bool) :
    ∃ v, m.snapShot im f = .ok (v, f.add (.inner { mSeq := 1 })) ∧ v.root_ = m.root_ := by
  rw [snapShot, run_bind (show make 1 f =
    .ok (⟨1, f.next, .Modifying, true⟩, f.add (.inner { mSeq := 1 })) from rfl)]
  split
  · have hu := unshare_empty (m := ⟨(m.seq_ + 1) % 2 ^ 32, m.root_,
      if im then .Modifying else .Immutable, true⟩) h
    exact ⟨_, run_bind hu, rfl⟩
  · exact ⟨_, rfl, rfl⟩

theorem pick_eq {f' : Family} {v : SHAMap} {im : Bool} (hi : w.maps[i]? = some m)
    (run : m.snapShot im w.family = .ok (v, f')) :
    w.pick i (some im) = some (w.maps.length, ⟨w.maps ++ [v], f'⟩) := by
  rw [pick, step, hi, bind_some, run]
  rfl

theorem Mirrors.pick (h : Mirrors S w b owner trees source) (hi : w.maps[i]? = some m)
    (o : Option Bool) (hn : o.isSome → m.seq_ + 1 < 2 ^ 32) :
    ∃ i' w' b' owner' trees' source', w.pick i o = some (i', w') ∧ i' < w'.maps.length ∧
      Mirrors S w' b' owner' trees' source' ∧
      ∀ (k : ℕ) (m1 : SHAMap), w.maps[k]? = some m1 → w'.maps[k]? = some m1 := by
  cases o with
  | none => exact ⟨i, w, b, owner, trees, source, rfl, lt_of_get hi, h, fun _ _ => id⟩
  | some isMutable =>
    have hla : ∀ v : SHAMap, w.maps.length < (w.maps ++ [v]).length := by simp
    have hkp : ∀ (v : SHAMap) (k : ℕ) (m1 : SHAMap), w.maps[k]? = some m1 →
        (w.maps ++ [v])[k]? = some m1 := fun v k m1 hk => by
      rw [List.getElem?_append_left (lt_of_get hk), hk]
    by_cases he : trees (source i) = .inner fun _ => .empty
    · have h1 := h.sound.add (.inner { mSeq := 1 })
      obtain ⟨m0, hm0, hr⟩ := h.root hi
      have hh := (h1.member _ m0 hm0).holds
      rw [he, ← hr] at hh
      obtain ⟨v, run, hv⟩ := snapShot_empty hh isMutable
      rw [← h.family] at run
      have hm := h.append h1 (fun _ _ hk => ⟨hk, rfl⟩) hm0
        (.inr ⟨he, hv.trans hr⟩) (h.nodes i (lt_of_get hi)) (.inr he)
      rw [← h.family] at hm
      exact ⟨_, _, _, owner, trees, _, pick_eq hi run, hla v, hm, hkp v⟩
    · obtain ⟨m0, hm0, rfl | ⟨hab, -⟩⟩ := h.view i m hi
      · have hne : m.isEmpty b.family = false := by
          rw [← Bool.not_eq_true, h.sound.isEmpty_iff hm0]
          exact he
        obtain ⟨v, f', owner', run, hsn⟩ := h.sound.snapShot hm0 hne (hn rfl) isMutable
        rw [← h.family] at run
        have hb : ∀ k m1, b.maps[k]? = some m1 → (b.maps ++ [v])[k]? = some m1 ∧
            update trees b.maps.length (trees (source i)) k = trees k := by
          intro k m1 hk
          refine ⟨?_, update_of_ne (Nat.ne_of_lt (lt_of_get hk)) _ _⟩
          rw [List.getElem?_append_left (lt_of_get hk), hk]
        refine ⟨_, _, _, owner', _, _, pick_eq hi run, hla v,
          h.append hsn hb (u := v) (s := b.maps.length) (by simp) (.inl rfl) ?_ ?_,
          hkp v⟩
        · rw [update_self]
          exact h.nodes i (lt_of_get hi)
        · refine .inl fun k hk => ?_
          obtain ⟨m1, hm1, -⟩ := h.root (List.getElem?_eq_getElem hk)
          exact Nat.ne_of_lt (lt_of_get hm1)
      · exact absurd hab he

/-- Any two maps of a family are compared rightly, if earlier snapshots were `Call.Safe`. -/
theorem compare_right (hf : HashedNode.CollisionFree S) {f₀ : Family} (hfr : f₀.Fresh)
    (hca : f₀.Cached S) (hre : Reaches S ⟨[], f₀⟩ w) (hi : w.maps[i]? = some m)
    (hj : w.maps[j]? = some m') (o o' : Option Bool) (hn : o.isSome → m.seq_ + 1 < 2 ^ 32)
    (hn' : o'.isSome → m'.seq_ + 1 < 2 ^ 32) {maxCount : ℤ} (hc : 1 ≤ maxCount) :
    ∃ i' j' w₁ w₂ w₃ ours others result, w.pick i o = some (i', w₁) ∧
      w₁.pick j o' = some (j', w₂) ∧ w₂.Shows i' ours ∧ w₂.Shows j' others ∧
      Eventually (fun fuel => w₂.compare fuel i' j' maxCount) (some (result, w₃)) ∧
      Right maxCount ours others result := by
  have hsa := sound_nil (S := S) hfr hca (fun _ => 0) fun _ => .empty
  obtain ⟨⟨owner, trees, hsn⟩, hw⟩ := hre.sound hf hsa nofun
  obtain ⟨i', w₁, b1, owner1, trees1, source1, hpick1, hlt1, h1, hkept1⟩ :=
    (Mirrors.refl hsn hw).pick hi o hn
  obtain ⟨j', w₂, b2, owner2, trees2, source2, hpick2, hlt2, h2, hkept2⟩ :=
    h1.pick (hkept1 j m' hj) o' hn'
  have hi' := hkept2 i' _ (List.getElem?_eq_getElem hlt1)
  have hj' := List.getElem?_eq_getElem hlt2
  have hp : 0 < maxCount := by omega
  obtain ⟨result, w₃, run, hri⟩ := h2.compare hf hi' hj' hp
  exact ⟨i', j', w₁, w₂, w₃, _, _, result, hpick1, hpick2, h2.shows hi', h2.shows hj', run, hri⟩

end Mirrors

theorem oneMap_reached :
    let _ : Sha512Half := plainHalf
    ∃ m1 f1 owner, Reaches oneTree.nodes ⟨[], noNodes⟩ ⟨[m1], f1⟩ ∧ m1.isEmpty f1 = false ∧
      m1.seq_ + 1 < 2 ^ 32 ∧ Sound oneTree.nodes ⟨[m1], f1⟩ owner
        (update (fun _ => .inner fun _ => .empty) 0 oneTree) := by
  intro _
  have hcached : noNodes.Cached oneTree.nodes := nofun
  obtain ⟨owner0, h0⟩ : ∃ owner, Sound oneTree.nodes oneMap owner fun _ => .inner fun _ => .empty :=
    sound_make (fun _ _ => rfl) hcached one_ne_zero
  obtain ⟨m1, f1, owner1, hstep, hfull, hseq, -, hwithin, h1⟩ := oneMap_added
  have hreach : Reaches oneTree.nodes ⟨[], noNodes⟩ oneMap :=
    .step (e := .make 1) .refl trivial rfl trivial (h0.within fun _ _ _ => nodes_empty)
  exact ⟨m1, f1, owner1, hreach.step (e := .change 0 _) trivial hstep within_addOne hwithin, hfull,
    hseq, h1⟩

/-- A map with one item is compared with an empty one. -/
theorem oneMap_compare :
    let _ : Sha512Half := plainHalf
    ∃ w w' ours others result, Reaches oneTree.nodes ⟨[], noNodes⟩ w ∧
      w.Shows 0 ours ∧ w.Shows 1 others ∧
      Eventually (fun fuel => w.compare fuel 0 1 1) (some (result, w')) ∧
      Right 1 ours others result := by
  intro _
  have hfr : noNodes.Fresh := fun _ _ => rfl
  have hca : noNodes.Cached oneTree.nodes := nofun
  obtain ⟨m1, f1, owner1, hreach1, -, -, h1⟩ := oneMap_reached
  have h2 := h1.make one_ne_zero
  have hreach2 := hreach1.step (e := .make 1) trivial rfl trivial (h2.within fun i m hi => by
    rw [update_apply, update_apply]
    split
    · exact nodes_empty
    · split
      · exact Set.Subset.rfl
      · exact nodes_empty)
  obtain ⟨_, _, _, _, w', ours, others, result, ⟨⟩, ⟨⟩, hours, hot, run, hri⟩ :=
    compare_right collisionFree_oneTree hfr hca hreach2 (i := 0) (j := 1) rfl rfl none none
      nofun nofun le_rfl
  exact ⟨_, w', ours, others, result, hreach2, hours, hot, run, hri⟩

section Upkeep

variable [Sha512Half] {S : Set HashedNode} {w : Maps} {owner : NodeRef → ℕ} {trees : ℕ → Tree}

/-- The first maps have these items and report these hashes. -/
def Presents (w : Maps) (n : ℕ) (shown : ℕ → (UInt256 → Option SHAMapItem) × UInt256) : Prop :=
  ∀ j < n, w.Shows j (shown j).1 ∧ (w.hashOf j).map Prod.fst = some (shown j).2

theorem Sound.presents (h : Sound S w owner trees) :
    w.Presents w.maps.length ((fun t => (fun k => t.lookup k 0, t.digest)) ∘ trees) := by
  intro j hj
  have hj := List.getElem?_eq_getElem hj
  have hmb := h.member j _ hj
  refine ⟨⟨_, hj, fun k => ?_⟩, ?_⟩
  · rw [peekItem_run k hmb.holds hmb.rooted.placed]
    rfl
  · obtain ⟨_, _, _, run, -⟩ := h.getHash hj
    rw [hashOf, hj, bind_some, run]
    rfl

/-- Hashing, unsharing or flushing a map and taking a snapshot of it go through and leave every map
its items and its hash; the snapshot has the map's. A hash tells the items. -/
theorem upkeep_presents (hf : HashedNode.CollisionFree S) {f₀ : Family} (hfr : f₀.Fresh)
    (hca : f₀.Cached S) (hre : Reaches S ⟨[], f₀⟩ w) :
    ∃ shown, w.Presents w.maps.length shown ∧
      (∀ i < w.maps.length, ∀ j < w.maps.length, (shown i).2 = (shown j).2 →
        shown i = shown j) ∧
      ∀ i m, w.maps[i]? = some m →
        (∀ e ∈ [Call.getHash i, .unshare i, .flushDirty i],
          ∃ w', w.step e = some w' ∧ w'.Presents w.maps.length shown) ∧
        (m.isEmpty w.family = false → m.seq_ + 1 < 2 ^ 32 → ∀ isMutable,
          ∃ w', w.step (.snapShot i isMutable) = some w' ∧
            w'.Presents (w.maps.length + 1) (update shown w.maps.length (shown i))) := by
  have hsa := sound_nil (S := S) hfr hca (fun _ => 0) fun _ => .empty
  obtain ⟨⟨owner, trees, hsn⟩, hw⟩ := hre.sound hf hsa nofun
  refine ⟨_, hsn.presents, fun i hi j hj heq => ?_,
    fun i m hi => ⟨?_, fun hne hnu isMutable => ?_⟩⟩
  · have hi := List.getElem?_eq_getElem hi
    have hj := List.getElem?_eq_getElem hj
    exact Prod.ext (funext (lookup_of_digest hf (hsn.member i _ hi).rooted
      (hsn.member j _ hj).rooted (hsn.nodes_subset hw hi) (hsn.nodes_subset hw hj) heq)) heq
  · have hset : ∀ {m' f' owner'}, Sound S ⟨w.maps.set i m', f'⟩ owner' trees →
        Presents ⟨w.maps.set i m', f'⟩ w.maps.length _ := fun h => length_set ▸ h.presents
    obtain ⟨m1, f1, owner1, hrun1, h1, -⟩ := hsn.getHash hi
    obtain ⟨k2, m2, f2, owner2, hrun2, h2⟩ := hsn.unshare hi
    obtain ⟨k3, m3, f3, owner3, hrun3, h3⟩ := hsn.flushDirty hf hw hi
    simp only [mem_cons, not_mem_nil, or_false, forall_eq_or_imp, forall_eq, step, hi, bind_some,
      hrun1, hrun2, hrun3]
    exact ⟨⟨_, rfl, hset h1⟩, ⟨_, rfl, hset h2⟩, _, rfl, hset h3⟩
  · obtain ⟨m', f', owner', run, hsn'⟩ := hsn.snapShot hi hne hnu isMutable
    refine ⟨⟨w.maps ++ [m'], f'⟩, by rw [step, hi, bind_some, run], ?_⟩
    have hpr := hsn'.presents
    rwa [length_append, comp_update] at hpr

end Upkeep

theorem oneMap_presents :
    let _ : Sha512Half := plainHalf
    ∃ w shown w', Reaches oneTree.nodes ⟨[], noNodes⟩ w ∧ w.step (.snapShot 0 true) = some w' ∧
      w'.Presents 2 (update shown 1 (shown 0)) := by
  intro _
  have hcached : noNodes.Cached oneTree.nodes := nofun
  obtain ⟨m1, f1, owner1, hreach, hfull, hseq, -⟩ := oneMap_reached
  obtain ⟨shown, -, -, hkept⟩ :=
    upkeep_presents collisionFree_oneTree (fun _ _ => rfl) hcached hreach
  obtain ⟨w', hstep, hshown⟩ := (hkept 0 m1 rfl).2 hfull hseq true
  exact ⟨_, shown, w', hreach, hstep, hshown⟩

end Maps

end Sand
