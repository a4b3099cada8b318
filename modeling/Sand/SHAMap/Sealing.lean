import Sand.SHAMap.Canonical

/-!
# Flushing a map

With `doWrite` the walk seals the nodes, and cached nodes take the place of equal ones.
-/

namespace Sand

open Family Function SHAMapAbstractNode Tree

namespace Tree

def Solid : Tree → Prop
  | .empty => True
  | .leaf _ _ => True
  | .inner c => (∃ i, c i ≠ .empty) ∧ ∀ i, Solid (c i)

theorem solid_of_dense {t : Tree} (h : t.Dense) : t.Solid := by
  induction t with
  | empty | leaf type item => trivial
  | inner c ih =>
    refine ⟨?_, fun i => ih i (h.2 i)⟩
    obtain ⟨a, ha, -⟩ := h.1
    obtain ⟨i, hi⟩ := RadixTree.mem_items_inner.mp ha
    refine ⟨i, fun he => ?_⟩
    rw [he] at hi
    cases hi

variable [Sha512Half] {t t' : Tree} {S : Set HashedNode}

theorem digest_ne_zero (hfe : HashedNode.CollisionFree S) (hns : t.nodes ⊆ S)
    (hso : t.Solid) (hne : t ≠ .empty) : t.digest ≠ 0 := by
  cases t with
  | empty => exact absurd rfl hne
  | leaf type item => exact hfe.2 (.leaf type item) (hns rfl)
  | inner c =>
    rcases digest_inner c with ⟨he, -⟩ | ⟨hex, hdg⟩
    · obtain ⟨i, hi⟩ := hso.1
      exact absurd (he i) hi
    · rw [hdg]
      exact hfe.2 _ (hns (.inl ⟨hex, rfl⟩))

theorem eq_of_digest (hfe : HashedNode.CollisionFree S) (hns : t.nodes ⊆ S)
    (hns' : t'.nodes ⊆ S) (hso : t.Solid) (hso' : t'.Solid) (h : t.digest = t'.digest) :
    t = t' := by
  induction t generalizing t' with
  | empty =>
    by_contra hne
    exact digest_ne_zero hfe hns' hso' (Ne.symm hne) h.symm
  | leaf type item =>
    have hne := digest_ne_zero hfe hns hso nofun
    obtain ⟨y, hy, hh, hfo⟩ := exists_top (h ▸ hne)
    have hsa : y = .leaf type item := hfe.1 (hns' hy) (hns rfl) (hh.trans h.symm)
    rcases hfo with ⟨type', item', rfl, rfl⟩ | ⟨c', rfl, rfl⟩
    · cases hsa
      rfl
    · cases hsa
  | inner c ih =>
    have hne := digest_ne_zero hfe hns hso nofun
    obtain ⟨y, hy, hyh, hyf⟩ := exists_top hne
    obtain ⟨z, hz, hzh, hzf⟩ := exists_top (h ▸ hne)
    have hsa : y = z := hfe.1 (hns hy) (hns' hz) (hyh.trans (h.trans hzh.symm))
    rcases hyf with ⟨type, item, hla, -⟩ | ⟨c0, hin, rfl⟩
    · cases hla
    cases hin
    rcases hzf with ⟨type', item', rfl, rfl⟩ | ⟨c', rfl, rfl⟩
    · cases hsa
    · refine congrArg RadixTree.inner (funext fun i => ?_)
      refine ih i (fun w hw => hns (.inr ⟨i, hw⟩)) (fun w hw => hns' (.inr ⟨i, hw⟩))
        (hso.2 i) (hso'.2 i) (congrFun (HashedNode.inner.inj hsa) i)

end Tree

abbrev Stands (f : Family) (t : Tree) (r : NodeRef) : Prop :=
  Represents f (fun _ _ _ => True) t r

section Sealed

variable [Sha512Half] {f f' : Family} {t : Tree} {r : NodeRef} {seq : ℕ} {mine : NodeRef → Prop}
  {L : NodeProp} {P Q : TreeProp} {S : Set HashedNode}

omit [Sha512Half] in
theorem Represents.upgrade (h : Represents f P t r)
    (hcg : ∀ x n s, s.rank ≤ t.rank → Represents f P s x → f.object x = some n →
      f'.object x = some n ∨ Represents f' Q s x) (him :
    ∀ x n s, P x n s → Q x n s) : Represents f' Q t r := by
  induction t generalizing r with
  | empty => cases h
  | leaf type item =>
    obtain ⟨n, hn, hty, hit, hP⟩ := id h
    rcases hcg r _ _ (le_refl _) h hn with hsa | hre
    · exact ⟨n, hsa, hty, hit, him _ _ _ hP⟩
    · exact hre
  | inner c ih =>
    obtain ⟨n, hn, hP, hss⟩ := id h
    rcases hcg r _ _ (le_refl _) h hn with hsa | hre
    · refine ⟨n, hsa, him _ _ _ hP, fun i => ⟨(hss i).1, ?_⟩⟩
      refine Slot.imp (hss i).2 fun q hi hslo => ?_
      refine ih i hslo fun x n' s hs => hcg x n' s ?_
      exact hs.trans (rank_child c i).le
    · exact hre

theorem NodeOk.of_sealed {n : SHAMapAbstractNode} (hsq : seq ≠ 0) (hL : L r n)
    (h : Represents f Sealed t r) (hn : f.object r = some n) : NodeOk f seq mine L r n t := by
  have hsl := h.of_object hn
  refine ⟨hL, fun heq => absurd (heq.symm.trans hsl.1) hsq, ?_, ?_, fun _ => ?_, fun _ => h⟩
  · rintro l rfl
    rw [h.eq_leaf hn] at hsl
    exact hsl.2.1
  · rintro i rfl j hj
    obtain ⟨c, rfl⟩ := h.eq_inner hn
    rw [hsl.2.2 i c rfl rfl j, (h.slots hn).eq_empty hj]
    rfl
  · exact h.mono fun _ _ _ hs => hs.2

theorem Holds.of_sealed (hsq : seq ≠ 0) (hL : ∀ x n, n.getSeq = 0 → L x n)
    (h : Represents f Sealed t r) : Holds f seq mine L t r := by
  induction t generalizing r with
  | empty => cases h
  | leaf type item =>
    obtain ⟨n, hn, hty, hit, hsl⟩ := id h
    exact ⟨n, hn, hty, hit, .of_sealed hsq (hL _ _ hsl.1) h hn⟩
  | inner c ih =>
    obtain ⟨n, hn, hsl, hss⟩ := id h
    refine ⟨n, hn, .of_sealed hsq (hL _ _ hsl.1) h hn, fun i => ⟨(hss i).1, ?_⟩⟩
    have hslo : Slot f Sealed (c i) (n.mChildren i) := (hss i).2
    exact hslo.imp fun q _ => ih i

/-- The cache holds sealed nodes under their hashes. -/
def Family.Cached (f : Family) (S : Set HashedNode) : Prop :=
  ∀ hash x, f.treecache hash = some x →
    ∃ s : Tree, Represents f Sealed s x ∧ s.digest = hash ∧ s.nodes ⊆ S ∧ s.Solid

structure Seals (seq : ℕ) (mine : NodeRef → Prop) (k : ℕ) (f f' : Family) : Prop where
  next_le : f.next ≤ f'.next
  fresh : f'.Fresh
  object : ∀ x n, f.object x = some n → f'.object x = some n ∨
    (mine x ∧ n.getSeq = seq ∧ ∀ s, Stands f s x → s.rank ≤ k ∧ Represents f' Sealed s x)

namespace Seals

variable {k k' : ℕ} {f1 f2 : Family}

theorem refl (hfr : f.Fresh) : Seals seq mine k f f := ⟨le_refl _, hfr, fun _ _ hn => .inl hn⟩

section

variable (h : Seals seq mine k f f1)
include h

theorem upgrade (ht : Represents f P t r)
    (hsl : ∀ x s, Represents f1 Sealed s x → Represents f1 Q s x)
    (him : ∀ x n s, P x n s → Q x n s) : Represents f1 Q t r := by
  refine ht.upgrade (fun x n s _ hs hn => ?_) him
  rcases h.object x n hn with hsa | ⟨-, -, hre⟩
  · exact .inl hsa
  · exact .inr (hsl x s (hre s (hs.mono fun _ _ _ _ => trivial)).2)

theorem stands (ht : Stands f t r) : Stands f1 t r :=
  h.upgrade ht (fun _ _ hs => hs.mono fun _ _ _ _ => trivial) fun _ _ _ => id

theorem isSealed (ht : Represents f Sealed t r) : Represents f1 Sealed t r :=
  h.upgrade ht (fun _ _ => id) fun _ _ _ => id

theorem holds {seq' : ℕ} {mine' : NodeRef → Prop} (hsq : seq' ≠ 0)
    (hL : ∀ x n, n.getSeq = 0 → L x n) (ht : Holds f seq' mine' L t r) :
    Holds f1 seq' mine' L t r := by
  refine h.upgrade ht (fun _ _ hs => Holds.of_sealed hsq hL hs) fun x n s hok => ?_
  exact ⟨hok.extra, hok.own, hok.leaf, hok.unused,
    fun hne => h.upgrade (hok.hashed hne) (fun _ _ hs => hs.mono fun _ _ _ hs => hs.2)
      fun _ _ _ => id,
    fun hz => h.isSealed (hok.isSealed hz)⟩

theorem cached (hf : f.Cached S) (hcc : f1.treecache = f.treecache) : f1.Cached S := by
  intro hash x hx
  rw [hcc] at hx
  obtain ⟨s, hs, hrs⟩ := hf hash x hx
  exact ⟨s, h.isSealed hs, hrs⟩

theorem trans (h' : Seals seq mine k f1 f2) : Seals seq mine k f f2 where
  next_le := h.next_le.trans h'.next_le
  fresh := h'.fresh
  object := by
    intro x n hn
    rcases h.object x n hn with hsa | ⟨hm, hsq, hre⟩
    · rcases h'.object x n hsa with hsa' | ⟨hm, hsq, hre⟩
      · exact .inl hsa'
      · exact .inr ⟨hm, hsq, fun s hs => hre s (h.stands hs)⟩
    · exact .inr ⟨hm, hsq, fun s hs => ⟨(hre s hs).1, h'.isSealed (hre s hs).2⟩⟩

end

theorem of_unshares {n : SHAMapAbstractNode} {r1 : ℕ}
    (hfr : f.Fresh) (h : SHAMap.Unshares seq mine f f1 r r1 n) : Seals seq mine k f f1 :=
  ⟨h.next_le, h.fresh, fun x _ hn => .inl ((h.object x (hfr.lt hn)).trans hn)⟩

end Seals

/-! ### Changing a node that is not sealed -/

variable {n : SHAMapAbstractNode} {x : NodeRef} {s : Tree}

omit [Sha512Half] in
theorem Represents.frame_put (hs : Represents f P s x) (h : Stands f t r)
    (hra : s.rank < t.rank) (n : SHAMapAbstractNode) :
    ∀ y, Occurs f x y → (f.put r n).object y = f.object y := by
  intro y hy
  refine object_put_ne _ _ ?_
  rintro rfl
  obtain ⟨s', hs', -, -, hle⟩ := hs.of_occurs hy
  rw [hs'.unique h] at hle
  omega

theorem Represents.sealed_put (hs : Represents f Sealed s x) (hn : f.object r = some n)
    (hsq : n.getSeq ≠ 0) (n' : SHAMapAbstractNode) : Represents (f.put r n') Sealed s x := by
  refine hs.frame (fun y hy => object_put_ne _ _ ?_) fun _ _ _ _ => id
  rintro rfl
  obtain ⟨s', hs', -⟩ := hs.of_occurs hy
  exact hsq (hs'.of_object hn).1

theorem Family.Cached.put (h : f.Cached S) (hn : f.object r = some n)
    (hsq : n.getSeq ≠ 0) (n' : SHAMapAbstractNode) : (f.put r n').Cached S := by
  intro hash x hx
  obtain ⟨s, hs, hrs⟩ := h hash x hx
  exact ⟨s, hs.sealed_put hn hsq n', hrs⟩

theorem SHAMap.writeNode_run (hfe : HashedNode.CollisionFree S) (hsq : seq ≠ 0)
    (hfr : f.Fresh) (hca : f.Cached S) (hn : f.object r = some n) (how : n.getSeq = seq)
    (hm : mine r) (ht : Stands f t r) (hsl : Represents (f.put r (n.setSeq 0)) Sealed t r)
    (hns : t.nodes ⊆ S) (hso : t.Solid) :
    ∃ f' r', writeNode r f = .ok (r', f') ∧ Seals seq mine t.rank f f' ∧ f'.Cached S ∧
      Represents f' Sealed t r' ∧ Represents f' Sealed t r := by
  have hne : n.getSeq ≠ 0 := fun hz => hsq (how.symm.trans hz)
  have hcached1 := hca.put hn hne (n.setSeq 0)
  have hh : n.getNodeHash = t.digest := by
    have hr := (hsl.of_object (object_put_self _ _ _)).2.1
    cases n <;> exact hr
  have hse : ∀ g : Family, g.next = f.next → g.object = (f.put r (n.setSeq 0)).object →
      Seals seq mine t.rank f g := by
    intro g hnt ho
    refine ⟨hnt.ge, ?_, fun x n' hn' => ?_⟩
    · intro y hy
      rw [ho]
      exact SHAMap.fresh_put hfr (hfr.lt hn) _ y (hnt ▸ hy)
    rw [ho]
    obtain rfl | hx := eq_or_ne x r
    · rw [hn] at hn'
      cases hn'
      refine .inr ⟨hm, how, fun s hs => ?_⟩
      rw [hs.unique ht]
      exact ⟨le_refl _, hsl.frame (fun y _ => congrFun ho y) fun _ _ _ _ => id⟩
    · exact .inl ((object_put_ne _ _ hx).trans hn')
  have hk : ∀ (g : Family) s y, g.object = (f.put r (n.setSeq 0)).object →
      Represents (f.put r (n.setSeq 0)) Sealed s y → Represents g Sealed s y :=
    fun g s y ho hs => hs.frame (fun z _ => congrFun ho z) fun _ _ _ _ => id
  rw [writeNode, run_bind (load_eq hn),
    run_bind (show store r (n.setSeq 0) f = .ok ((), f.put r (n.setSeq 0)) from rfl)]
  cases hcc : f.treecache n.getNodeHash with
  | some y =>
    obtain ⟨s, hs, hdg, hsd, hsi⟩ := hcached1 _ _ hcc
    have hst : s = t := eq_of_digest hfe hsd hns hsi hso (hdg.trans hh)
    subst hst
    obtain ⟨ny, hny, -⟩ := hs.object
    rw [run_bind (show canonicalize n.getNodeHash r (f.put r (n.setSeq 0)) =
      .ok (y, f.put r (n.setSeq 0)) by simp [canonicalize, hcc]), run_bind (load_eq hny)]
    refine ⟨_, y, rfl, hse _ rfl rfl, ?_, hk _ _ _ rfl hs, hk _ _ _ rfl hsl⟩
    intro hash z hz
    obtain ⟨s', hs', hrs⟩ := hcached1 hash z hz
    exact ⟨s', hk _ _ _ rfl hs', hrs⟩
  | none =>
    obtain ⟨g, hg⟩ : ∃ g, g = { f.put r (n.setSeq 0) with
      treecache := update f.treecache n.getNodeHash (some r) } := ⟨_, rfl⟩
    have ho : g.object = (f.put r (n.setSeq 0)).object := by rw [hg]
    have run : canonicalize n.getNodeHash r (f.put r (n.setSeq 0)) = .ok (r, g) := by
      simp [canonicalize, hcc, hg]
    have hl : g.object r = some (n.setSeq 0) := by rw [ho, object_put_self]
    rw [run_bind run, run_bind (load_eq hl)]
    refine ⟨_, r, rfl, hse _ (by rw [hg]; rfl) ho, ?_, hk _ _ _ ho hsl, hk _ _ _ ho hsl⟩
    intro hash z hz
    have hz' : update f.treecache n.getNodeHash (some r) hash = some z := by
      rw [← hz, hg]
    rw [update_apply] at hz'
    split at hz'
    · next heq =>
        cases hz'
        exact ⟨t, hk _ _ _ ho hsl, (heq.trans hh).symm, hns, hso⟩
    · obtain ⟨s', hs', hrs⟩ := hcached1 hash z hz'
      exact ⟨s', hk _ _ _ ho hs', hrs⟩

end Sealed

namespace SHAMap

variable [Sha512Half] {m : SHAMap} {mine : NodeRef → Prop}
  {L : NodeProp} {S : Set HashedNode} {f g g1 : Family} {r q q1 : ℕ}
  {c : Fin 16 → Tree} {n : SHAMapInnerNode} {done : Fin 16 → Prop}

/-- While the children of an own node are flushed. -/
structure Flushing (m : SHAMap) (mine : NodeRef → Prop) (L : NodeRef → SHAMapAbstractNode → Prop)
    (S : Set HashedNode) (f g : Family) (r : NodeRef) (c : Fin 16 → Tree)
    (done : Fin 16 → Prop) : Prop where
  next_le : f.next ≤ g.next
  fresh : g.Fresh
  cached : g.Cached S
  stands : ∀ s x, Stands f s x → Stands g s x
  object : ∀ x n, x ≠ r → f.object x = some n → g.object x = some n ∨ (mine x ∧ n.getSeq = m.seq_ ∧
      ∀ s, Stands f s x → s.rank ≤ rank (.inner c) ∧ Represents g Sealed s x)
  own : ∃ n, g.object r = some (.inner n) ∧ n.mSeq = m.seq_ ∧
    (∀ j, n.mIsBranch j = false → n.mHashes j = 0) ∧
    (∀ j, n.mIsBranch j = (n.mChildren j).isSome ∧
      Slot g (NodeOk g m.seq_ mine L) (c j) (n.mChildren j)) ∧
    ∀ j q, done j → n.mChildren j = some q → Represents g Sealed (c j) q

theorem stands_of_slots (hn : g.object r = some (.inner n))
    (hss : Slots g (NodeOk g m.seq_ mine L) c n) : Stands g (.inner c) r :=
  ⟨n, hn, trivial, fun j => ⟨(hss j).1, (hss j).2.imp fun _ _ hq => hq.mono fun _ _ _ _ => trivial⟩⟩

variable {b : Fin 16} {t : Tree}

theorem Flushing.shareChild (hseq0 : m.seq_ ≠ 0) (hL : ∀ x n, n.getSeq = 0 → L x n)
    (h : Flushing m mine L S f g r c done) (hn : g.object r = some (.inner n))
    (hci : n.mChildren b = some q) (hse : Seals m.seq_ mine (c b).rank g g1)
    (hca : g1.Cached S) (hsl : Represents g1 Sealed (c b) q1) :
    g1.object r = some (.inner n) ∧
      Flushing m mine L S f (g1.put r (.inner (n.shareChild b q1))) r c
        fun j => j = b ∨ done j := by
  obtain ⟨n0, hn0, hsq, huu, hss, hd⟩ := h.own
  rw [hn] at hn0
  cases hn0
  have hsn : Stands g (.inner c) r := stands_of_slots hn hss
  have hlt := rank_child c b
  have hn1 : g1.object r = some (.inner n) := by
    rcases hse.object r _ hn with hsa | ⟨-, -, hre⟩
    · exact hsa
    · have := (hre _ hsn).1
      omega
  have hne : (inner n).getSeq ≠ 0 := fun hz => hseq0 (hsq.symm.trans hz)
  have hstands1 := hse.stands hsn
  have hk : ∀ {s : Tree} {x : NodeRef}, Represents g1 Sealed s x →
      Represents (g1.put r (.inner (n.shareChild b q1))) Sealed s x :=
    fun hs => hs.sealed_put hn1 hne _
  have hslots2 : Slots (g1.put r (.inner (n.shareChild b q1)))
      (NodeOk (g1.put r (.inner (n.shareChild b q1))) m.seq_ mine L) c (n.shareChild b q1) := by
    intro j
    simp only [SHAMapInnerNode.shareChild, update_apply]
    obtain rfl | hj := eq_or_ne j b
    · rw [if_pos rfl]
      refine ⟨?_, Holds.of_sealed hseq0 hL (hk hsl)⟩
      rw [(hss j).1, hci]
      rfl
    · rw [if_neg hj]
      refine ⟨(hss j).1, ?_⟩
      refine Slot.imp (hss j).2 fun x hx hslo => ?_
      have hho : Holds g1 m.seq_ mine L (c j) x := hse.holds hseq0 hL hslo
      exact Holds.frame hho (hho.frame_put hstands1 (rank_child c j) _)
  have hstands2 : Stands (g1.put r (.inner (n.shareChild b q1))) (.inner c) r :=
    stands_of_slots (object_put_self _ _ _) hslots2
  refine ⟨hn1, h.next_le.trans hse.next_le, fresh_put hse.fresh (hse.fresh.lt hn1) _,
    hca.put hn1 hne _, fun s x hs => ?_, fun x nx hx hnx => ?_,
    _, object_put_self _ _ _, hsq, huu, hslots2, fun j x hj hx => ?_⟩
  · refine (hse.stands (h.stands s x hs)).upgrade (fun y ny s' _ hs' hny => ?_) fun _ _ _ => id
    obtain rfl | hy := eq_or_ne y r
    · rw [hs'.unique hstands1]
      exact .inr hstands2
    · exact .inl ((object_put_ne _ _ hy).trans hny)
  · rcases h.object x nx hx hnx with hsa | ⟨hm, how, hre⟩
    · rcases hse.object x nx hsa with hsame1 | ⟨hm, how, hre⟩
      · exact .inl ((object_put_ne _ _ hx).trans hsame1)
      · refine .inr ⟨hm, how, fun s hs => ?_⟩
        obtain ⟨hra, hs1⟩ := hre s (h.stands s x hs)
        exact ⟨by omega, hk hs1⟩
    · exact .inr ⟨hm, how, fun s hs => ⟨(hre s hs).1, hk (hse.isSealed (hre s hs).2)⟩⟩
  · simp only [SHAMapInnerNode.shareChild, update_apply] at hx
    split at hx
    · next heq =>
        cases hx
        rw [heq]
        exact hk hsl
    · next hne' => exact hk (hse.isSealed (hd j x (hj.resolve_left hne') hx))

theorem Flushing.skip (h : Flushing m mine L S f g r c done) (hn : g.object r = some (.inner n))
    (hci : ∀ q, n.mChildren b = some q → Represents g Sealed (c b) q) :
    Flushing m mine L S f g r c fun j => j = b ∨ done j := by
  obtain ⟨n0, hn0, hsq, huu, hss, hd⟩ := h.own
  rw [hn] at hn0
  cases hn0
  refine ⟨h.next_le, h.fresh, h.cached, h.stands, h.object, n, hn, hsq, huu, hss, ?_⟩
  rintro j q (rfl | hj) hq
  · exact hci q hq
  · exact hd j q hj hq

/-- Flushing an own node with its children. -/
def SealsWell (m : SHAMap) (mine : NodeRef → Prop) (L : NodeRef → SHAMapAbstractNode → Prop)
    (S : Set HashedNode) (walk : NodeRef → FamilyM (NodeRef × ℕ)) (c : Fin 16 → Tree) : Prop :=
  ∀ (f : Family) (r : ℕ) (n : SHAMapInnerNode), f.Fresh → f.Cached S →
    (∀ x : ℕ, f.next ≤ x → mine x) → Holds f m.seq_ mine L (.inner c) r →
    f.object r = some (.inner n) → n.mSeq = m.seq_ → mine r →
    ∃ f' r' k, walk r f = .ok ((r', k), f') ∧ Seals m.seq_ mine (rank (.inner c)) f f' ∧
      f'.Cached S ∧ Represents f' Sealed (.inner c) r'

omit [Sha512Half] in
theorem writeIf_true (hba : m.backed_) (q : NodeRef) : m.writeIf true q = writeNode q := by
  simp [writeIf, hba]

section

variable (hfe : HashedNode.CollisionFree S)
include hfe

theorem flushBranch_run (hdi : Discipline m.seq_ mine L) (hL : ∀ x n, n.getSeq = 0 → L x n)
    (hba : m.backed_) {walk : NodeRef → FamilyM (NodeRef × ℕ)}
    (hwa : ∀ c', c b = .inner c' → SealsWell m mine L S walk c')
    (hnw : ∀ x : ℕ, f.next ≤ x → mine x) (h : Flushing m mine L S f g r c done)
    (hns : (c b).nodes ⊆ S) (fl : ℕ) :
    ∃ g' k, m.walkBranch true walk r fl b g = .ok (k, g') ∧
      Flushing m mine L S f g' r c fun j => j = b ∨ done j := by
  obtain ⟨n, hn, -, -, hss, -⟩ := h.own
  by_cases hsk : ∀ q, n.mChildren b = some q → ∃ nq, g.object q = some nq ∧ nq.getSeq = 0
  · refine ⟨g, fl, walkBranch_skip hn hss hsk, h.skip hn fun q hq => ?_⟩
    obtain ⟨nq, hnq, hz⟩ := hsk q hq
    exact (((hss b).2.child hq).of_object hnq).isSealed hz
  push Not at hsk
  obtain ⟨q, hci, hz⟩ := hsk
  have hslo := (hss b).2.child hci
  obtain ⟨nq, hq, hqo⟩ := hslo.object
  obtain ⟨g1, q1, hun, hu⟩ := unshareNode_run (m := m) ⟨0, 1⟩ hq h.fresh hqo.own
    (fun x hx => hnw x (h.next_le.trans hx)) nofun
  obtain ⟨hholds1, -⟩ := hu.holds hdi h.fresh hslo hq
  have hseals1 : Seals m.seq_ mine (c b).rank g g1 := .of_unshares h.fresh hu
  have hcached1 : g1.Cached S := hseals1.cached h.cached (by rw [hu.rest])
  cases nq with
  | inner nq =>
    obtain ⟨c', hc'⟩ := hslo.eq_inner hq
    rw [hc'] at hholds1
    obtain ⟨g2, q2, k, hrun2, hseals2, hcached2, hsealed2⟩ := hwa c' hc' g1 q1 _ hu.fresh hcached1
      (fun x hx => hnw x ((h.next_le.trans hu.next_le).trans hx)) hholds1
      hu.copy rfl hu.mine
    rw [← hc'] at hseals2 hsealed2
    obtain ⟨hn2, hfl⟩ := h.shareChild hdi.seq_ne hL hn hci (hseals1.trans hseals2) hcached2 hsealed2
    exact ⟨_, _, walkBranch_inner hn hss hci hun hn2 hq (hz _ hq) hrun2, hfl⟩
  | leaf leaf =>
    have hh := hqo.leaf leaf rfl
    have ht := hslo.eq_leaf hq
    obtain ⟨g2, q2, hrun2, hseals2, hcached2, hsealed2, -⟩ := writeNode_run (t := c b) hfe
      hdi.seq_ne hu.fresh hcached1 hu.copy rfl hu.mine
      (hholds1.mono fun _ _ _ _ => trivial)
      (by rw [ht]; exact ⟨_, object_put_self _ _ _, rfl, rfl, rfl, hh, nofun⟩) hns
      (by rw [ht]; trivial)
    obtain ⟨hn2, hfl⟩ := h.shareChild hdi.seq_ne hL hn hci (hseals1.trans hseals2) hcached2 hsealed2
    rw [← writeIf_true hba] at hrun2
    exact ⟨_, _, walkBranch_leaf hn hss hci hun hn2 hq (hz _ hq) hh hu.copy hrun2, hfl⟩

theorem Flushing.finish (hseq0 : m.seq_ ≠ 0) (hm : mine r) (hf : Stands f (.inner c) r)
    {n0 : SHAMapInnerNode} (hn0 : f.object r = some (.inner n0)) (hsq₀ : n0.mSeq = m.seq_)
    (h : Flushing m mine L S f g r c fun _ => True) (hn : g.object r = some (.inner n))
    (hns : nodes (.inner c) ⊆ S) (hso : Tree.Solid (.inner c)) :
    ∃ g' r', writeNode r (g.put r (.inner (n.updateHashDeep (hashAt g)))) = .ok (r', g') ∧
      Seals m.seq_ mine (rank (.inner c)) f g' ∧ g'.Cached S ∧
      Represents g' Sealed (.inner c) r' := by
  obtain ⟨n', hn', hsq, huu, hss, hd⟩ := h.own
  rw [hn] at hn'
  cases hn'
  have hne : (inner n).getSeq ≠ 0 := fun hz => hseq0 (hsq.symm.trans hz)
  have hcl : ∀ j q, n.mChildren j = some q → Represents g Sealed (c j) q :=
    fun j q => hd j q trivial
  have hhs : Hashes r (.inner (n.updateHashDeep (hashAt g))) (.inner c) := by
    refine hashes_updateHashDeep hss huu fun j q hq => hashAt_eq ?_
    exact (hcl j q hq).mono fun _ _ _ hs => hs.2
  -- the children stay sealed whatever becomes of the node
  have hbu : ∀ (P : TreeProp) (n1 : SHAMapInnerNode),
      n1.mChildren = n.mChildren → n1.mIsBranch = n.mIsBranch → P r (.inner n1) (.inner c) →
      (∀ x n s, Sealed x n s → P x n s) → Represents (g.put r (.inner n1)) P (.inner c) r := by
    intro P n1 hch hbr hP him
    refine ⟨n1, object_put_self _ _ _, hP, fun j => ?_⟩
    rw [hch, hbr]
    refine ⟨(hss j).1, ?_⟩
    have hslo := (hss j).2
    cases hq : n.mChildren j with
    | none =>
      rw [hq] at hslo
      exact hslo
    | some q => exact ((hcl j q hq).sealed_put hn hne _).mono him
  have hsn : Stands (g.put r (.inner (n.updateHashDeep (hashAt g)))) (.inner c) r :=
    hbu _ _ rfl rfl trivial fun _ _ _ _ => trivial
  have hsl : Represents ((g.put r (.inner (n.updateHashDeep (hashAt g)))).put r
      ((inner (n.updateHashDeep (hashAt g))).setSeq 0)) Sealed (.inner c) r := by
    have hp : (g.put r (.inner (n.updateHashDeep (hashAt g)))).put r
        ((inner (n.updateHashDeep (hashAt g))).setSeq 0) =
        g.put r (.inner { n.updateHashDeep (hashAt g) with mSeq := 0 }) := by
      simp [Family.put, setSeq]
    rw [hp]
    refine hbu _ _ rfl rfl ⟨rfl, hhs.1, ?_⟩ fun _ _ _ => id
    rintro _ c' ⟨⟩ ⟨⟩
    exact hhs.2 (n.updateHashDeep (hashAt g)) c rfl rfl
  obtain ⟨g', r', run, hse, hca, hsl', hsf⟩ := writeNode_run
    (n := .inner (n.updateHashDeep (hashAt g))) hfe hseq0
    (fresh_put h.fresh (h.fresh.lt hn) _) (h.cached.put hn hne _) (object_put_self _ _ _) hsq hm
    hsn hsl hns hso
  refine ⟨g', r', run, ⟨h.next_le.trans hse.next_le, hse.fresh, fun x nx hnx => ?_⟩, hca, hsl'⟩
  obtain rfl | hx := eq_or_ne x r
  · rw [hn0] at hnx
    cases hnx
    refine .inr ⟨hm, hsq₀, fun s hs => ?_⟩
    rw [hs.unique hf]
    exact ⟨le_refl _, hsf⟩
  · rcases h.object x nx hx hnx with hsa | ⟨hmi, how, hre⟩
    · rcases hse.object x nx ((object_put_ne _ _ hx).trans hsa) with hsa' | ⟨hmi, how, hre⟩
      · exact .inl hsa'
      refine .inr ⟨hmi, how, fun s hs => hre s ?_⟩
      refine (h.stands s x hs).upgrade (fun y ny s' _ hs' hny => ?_) fun _ _ _ => id
      obtain rfl | hy := eq_or_ne y r
      · rw [hs'.unique (stands_of_slots hn hss)]
        exact .inr hsn
      · exact .inl ((object_put_ne _ _ hy).trans hny)
    · refine .inr ⟨hmi, how, fun s hs => ⟨(hre s hs).1, ?_⟩⟩
      exact hse.isSealed ((hre s hs).2.sealed_put hn hne _)

theorem walkNode_seals (hdi : Discipline m.seq_ mine L)
    (hL : ∀ x n, n.getSeq = 0 → L x n) (hba : m.backed_) {d fuel : ℕ}
    (ht : t = .inner c) (hpl : (RadixTree.inner c).Placed d)
    (hns : nodes (.inner c) ⊆ S) (hso : Tree.Solid (.inner c)) (hfu : 64 ≤ fuel + d) :
    SealsWell m mine L S (m.walkNode true fuel) c := by
  induction t generalizing c fuel d with
  | empty | leaf type item => cases ht
  | inner c' ih =>
    cases ht
    intro f r n hfr hca hnw h hn hsq hm
    have hdp : d < 64 := hpl.1
    obtain ⟨fuel, rfl⟩ := (@Nat.exists_eq_add_one fuel).mpr (by omega)
    have hsn : Stands f (.inner c') r := h.mono fun _ _ _ _ => trivial
    have hsr : Flushing m mine L S f f r c' fun _ => False :=
      ⟨le_refl _, hfr, hca, fun _ _ => id, fun _ _ _ => .inl, n, hn, hsq,
        (h.of_object hn).unused n rfl, h.slots hn, fun _ _ => False.elim⟩
    have hb : ∀ b, nodes (c' b) ⊆ S := fun b x hx => hns (.inr ⟨b, hx⟩)
    have hwa : ∀ b c'', c' b = .inner c'' → SealsWell m mine L S (m.walkNode true fuel) c'' := by
      intro b c'' hc''
      have hpl' := (hpl.2 b).2
      have hns' := hb b
      have hso' := hso.2 b
      rw [hc''] at hpl' hns' hso'
      exact ih b hc'' hpl' hns' hso' (by omega)
    obtain ⟨g, k, run, hfl⟩ := branches_run (m.walkBranch true _ r)
      (I := fun g done => Flushing m mine L S f g r c' done)
      (fun g done b flushed hg => flushBranch_run hfe hdi hL hba (hwa b) hnw hg (hb b) flushed) hsr
    obtain ⟨n1, hn1, -⟩ := hfl.own
    obtain ⟨g', r', hwr, hse, hca', hsl⟩ := hfl.finish hfe hdi.seq_ne hm hsn hn hsq hn1 hns hso
    refine ⟨g', r', k + 1, ?_, hse, hca', hsl⟩
    rw [walkNode, run_bind run, run_bind (loadInner_eq hn1), writeIf_true hba,
      run_bind (show (get : FamilyM Family) g = .ok (g, g) from rfl),
      run_bind (show store r (.inner (n1.updateHashDeep (hashAt g))) g = .ok ((),
        g.put r (.inner (n1.updateHashDeep (hashAt g)))) from rfl), run_bind hwr]
    rfl

end

omit [Sha512Half] in
theorem solid_of_rooted (h : t.Rooted) (hne : t ≠ .inner fun _ => .empty) : t.Solid := by
  obtain ⟨-, c, rfl, hde⟩ := h
  refine ⟨?_, fun i => solid_of_dense (hde i)⟩
  by_contra hal
  exact hne (congrArg RadixTree.inner (funext fun i => not_not.mp (not_exists.mp hal i)))

theorem flushDirty_run (hfe : HashedNode.CollisionFree S) (hdi : Discipline m.seq_ mine L)
    (hL : ∀ x n, n.getSeq = 0 → L x n) (hba : m.backed_) (hfr : f.Fresh)
    (hca : f.Cached S) (hnw : ∀ x : ℕ, f.next ≤ x → mine x)
    (h : Holds f m.seq_ mine L t m.root_) (hrt : t.Rooted) (hns : t.nodes ⊆ S) :
    ∃ k r' f', m.flushDirty f = .ok ((k, { m with root_ := r' }), f') ∧
      Seals m.seq_ mine t.rank f f' ∧ f'.Cached S ∧ (r' = m.root_ ∨ Represents f' Sealed t r') := by
  obtain ⟨hpl, c, rfl, hde⟩ := id hrt
  obtain ⟨n, hn, hok, hss⟩ := id h
  rw [flushDirty, walkSubTree, run_bind (load_eq hn)]
  by_cases hz : (inner n).getSeq = 0
  · rw [if_pos hz]
    exact ⟨0, m.root_, f, rfl, .refl hfr, hca, .inl rfl⟩
  rw [if_neg hz]
  dsimp only
  by_cases he : n.isEmpty
  · rw [if_pos he]
    exact ⟨0, m.root_, f, rfl, .refl hfr, hca, .inl rfl⟩
  rw [if_neg he]
  have hso : Tree.Solid (.inner c) :=
    solid_of_rooted hrt fun heq => he ((isEmpty_iff_tree hss).mpr heq)
  obtain ⟨f1, r1, hun, hu⟩ := unshareNode_run (m := m) ⟨0, 1⟩ hn hfr hok.own hnw (by rintro ⟨⟩)
  obtain ⟨hholds1, -⟩ := hu.holds hdi hfr h hn
  have hseals1 : Seals m.seq_ mine (rank (.inner c)) f f1 := .of_unshares hfr hu
  obtain ⟨f2, r2, k, hrun2, hseals2, hcached2, hsealed2⟩ := walkNode_seals hfe hdi hL hba
    rfl hpl hns hso (show 64 ≤ 64 + 0 by omega) f1 r1 _ hu.fresh
    (hseals1.cached hca (by rw [hu.rest]))
    (fun x hx => hnw x (hu.next_le.trans hx)) hholds1 hu.copy rfl hu.mine
  refine ⟨k, r2, f2, ?_, hseals1.trans hseals2, hcached2, .inr hsealed2⟩
  rw [run_bind (preFlushNode_eq hn hun), run_bind hrun2]
  rfl

end SHAMap

end Sand
