import Mathlib.Data.Finset.Lattice.Fold
import Mathlib.Order.Lattice.Nat
import Sand.SHAMap.Map

/-!
# Trees in memory

A node stands for a tree if its fields and the nodes it points to say so.
-/

namespace Sand

/-- Items with the types of their leaves. -/
abbrev Tree := RadixTree 16 TNType SHAMapItem

abbrev NodeProp := NodeRef → SHAMapAbstractNode → Prop

abbrev TreeProp := NodeRef → SHAMapAbstractNode → Tree → Prop

namespace Tree

open RadixTree

def rank : Tree → ℕ
  | .empty => 0
  | .leaf _ _ => 0
  | .inner c => (Finset.univ.sup fun i => rank (c i)) + 1

theorem rank_child (c : Fin 16 → Tree) (i : Fin 16) : rank (c i) < rank (.inner c) := by
  have hle : rank (c i) ≤ Finset.univ.sup fun i => rank (c i) :=
    Finset.le_sup (f := fun i => rank (c i)) (Finset.mem_univ i)
  rw [rank]
  omega

def digest [Sha512Half] : Tree → UInt256
  | .empty => 0
  | .leaf type item => SHAMapTreeNode.hashOf type item
  | .inner c =>
    if (List.finRange 16).all fun i => (c i).isEmpty then 0
    else sha512Half (SHAMapInnerNode.hashedBytes fun i => digest (c i))

end Tree

open Family

/-- It stands for a tree, all of whose nodes have the property. -/
def Represents (f : Family) (P : NodeRef → SHAMapAbstractNode → Tree → Prop) :
    Tree → NodeRef → Prop
  | .empty, _ => False
  | .leaf type item, r => ∃ n, f.object r = some (.leaf n) ∧ n.mType = type ∧ n.mItem = item ∧
      P r (.leaf n) (.leaf type item)
  | .inner c, r => ∃ n, f.object r = some (.inner n) ∧ P r (.inner n) (.inner c) ∧
      ∀ i, n.mIsBranch i = (n.mChildren i).isSome ∧
        (n.mChildren i).elim (c i = .empty) (Represents f P (c i))

/-- The null pointer stands for the empty tree. -/
def Slot (f : Family) (P : NodeRef → SHAMapAbstractNode → Tree → Prop) (t : Tree)
    (o : Option NodeRef) : Prop :=
  o.elim (t = .empty) (Represents f P t)

/-- Branch bits and children are those of a tree. -/
abbrev Slots (f : Family) (P : NodeRef → SHAMapAbstractNode → Tree → Prop) (c : Fin 16 → Tree)
    (n : SHAMapInnerNode) : Prop :=
  ∀ i, n.mIsBranch i = (n.mChildren i).isSome ∧ Slot f P (c i) (n.mChildren i)

inductive Occurs (f : Family) : NodeRef → NodeRef → Prop
  | refl (r : NodeRef) : Occurs f r r
  | child {r q x : NodeRef} {n : SHAMapInnerNode} {i : Fin 16} (h : f.object r = some (.inner n))
      (hi : n.mChildren i = some q) (hx : Occurs f q x) : Occurs f r x

variable {f f' : Family} {P Q : TreeProp} {t t' : Tree} {r q x : NodeRef} {c : Fin 16 → Tree}
  {n : SHAMapInnerNode}

theorem slot_none_iff : Slot f P t none ↔ t = .empty := Iff.rfl

theorem slot_some_iff : Slot f P t (some r) ↔ Represents f P t r := Iff.rfl

theorem Represents.ne_empty (h : Represents f P t r) : t ≠ .empty := by
  rintro rfl
  exact h

variable {o : Option NodeRef}

theorem Slot.isSome_iff (h : Slot f P t o) : o.isSome = !t.isEmpty := by
  cases o with
  | none => rw [slot_none_iff.mp h]; rfl
  | some r =>
    cases t with
    | empty => cases h
    | leaf type item | inner c => rfl

section

variable (h : Represents f P t r)
include h

theorem Represents.object : ∃ n, f.object r = some n ∧ P r n t := by
  cases t with
  | empty => cases h
  | leaf type item =>
    obtain ⟨n, hn, -, -, hP⟩ := h
    exact ⟨_, hn, hP⟩
  | inner c =>
    obtain ⟨n, hn, hP, -⟩ := h
    exact ⟨_, hn, hP⟩

theorem Represents.of_object {n : SHAMapAbstractNode} (hn : f.object r = some n) : P r n t := by
  obtain ⟨n', hn', hP⟩ := h.object
  rw [hn] at hn'
  cases hn'
  exact hP

theorem Represents.eq_inner (hn : f.object r = some (.inner n)) : ∃ c, t = .inner c := by
  cases t with
  | empty => cases h
  | leaf type item =>
    obtain ⟨l, hl, -⟩ := h
    rw [hn] at hl
    cases hl
  | inner c => exact ⟨c, rfl⟩

theorem Represents.eq_leaf {l : SHAMapTreeNode}
    (hl : f.object r = some (.leaf l)) : t = .leaf l.mType l.mItem := by
  cases t with
  | empty => cases h
  | leaf type item =>
    obtain ⟨l', hl', rfl, rfl, -⟩ := h
    rw [hl] at hl'
    cases hl'
    rfl
  | inner c =>
    obtain ⟨n, hn, -⟩ := h
    rw [hl] at hn
    cases hn

end

theorem Represents.slots (h : Represents f P (.inner c) r) (hn : f.object r = some (.inner n)) :
    Slots f P c n := by
  obtain ⟨n', hn', -, hsl⟩ := h
  rw [hn] at hn'
  cases hn'
  exact hsl

theorem Slots.isEmptyBranch_eq (h : Slots f P c n) (i : Fin 16) :
    n.isEmptyBranch i = (c i).isEmpty := by
  rw [SHAMapInnerNode.isEmptyBranch, (h i).1, (h i).2.isSome_iff, Bool.not_not]

variable {i : Fin 16}

theorem Slots.eq_empty (h : Slots f P c n) (hi : n.mIsBranch i = false) : c i = .empty := by
  rw [← RadixTree.isEmpty_iff, ← h.isEmptyBranch_eq, SHAMapInnerNode.isEmptyBranch, hi]
  rfl

theorem Slot.child (h : Slot f P (c i) (n.mChildren i))
    (hi : n.mChildren i = some q) : Represents f P (c i) q := by
  rwa [hi] at h

theorem Slot.imp (h : Slot f P t o)
    (him : ∀ r, o = some r → Represents f P t r → Represents f' Q t r) : Slot f' Q t o := by
  cases o with
  | none => exact h
  | some r => exact him r rfl h

theorem Represents.unique (h : Represents f P t r) (h' : Represents f Q t' r) : t = t' := by
  induction t generalizing t' r with
  | empty => cases h
  | leaf type item =>
    obtain ⟨n, hn, ht, hit, -⟩ := h
    cases t'
    case empty => exact absurd rfl h'.ne_empty
    all_goals
      obtain ⟨n', hn', h'⟩ := h'
      rw [hn] at hn'
      cases hn'
    rw [← ht, ← hit, h'.1, h'.2.1]
  | inner c ih =>
    obtain ⟨n, hn, -, hsl⟩ := h
    cases t'
    case empty => exact absurd rfl h'.ne_empty
    all_goals
      obtain ⟨n', hn', h'⟩ := h'
      rw [hn] at hn'
      cases hn'
    refine congrArg RadixTree.inner (funext fun i => ?_)
    have hi := (hsl i).2
    have hi' := (h'.2 i).2
    cases hc : n.mChildren i with
    | none =>
      rw [hc] at hi hi'
      exact Eq.trans hi (Eq.symm hi')
    | some q =>
      rw [hc] at hi hi'
      exact ih i hi hi'

theorem Occurs.trans (h : Occurs f r q) (h' : Occurs f q x) : Occurs f r x := by
  induction h with
  | refl r => exact h'
  | child hob hi _ ih => exact .child hob hi (ih h')

theorem Occurs.cases_inner (h : Occurs f r x) (hn : f.object r = some (.inner n)) :
    x = r ∨ ∃ i q, n.mChildren i = some q ∧ Occurs f q x := by
  cases h with
  | refl => exact .inl rfl
  | child hob hi hx =>
    rw [hn] at hob
    cases hob
    exact .inr ⟨_, _, hi, hx⟩

theorem Occurs.eq_of_leaf {n : SHAMapTreeNode} (h : Occurs f r x)
    (hn : f.object r = some (.leaf n)) : x = r := by
  cases h with
  | refl => rfl
  | child hob _ _ =>
    rw [hn] at hob
    cases hob

section

variable (h : Represents f P t r)
include h

theorem Represents.of_occurs (hx : Occurs f r x) :
    ∃ s, Represents f P s x ∧ (∀ a ∈ s.items, a ∈ t.items) ∧ (t.Dense → s.Dense) ∧
      s.rank ≤ t.rank := by
  induction t generalizing r with
  | empty => cases h
  | leaf type item =>
    obtain ⟨n, hn, -⟩ := id h
    obtain rfl := hx.eq_of_leaf hn
    exact ⟨_, h, fun _ ha => ha, id, le_refl _⟩
  | inner c ih =>
    obtain ⟨n, hn, -, hsl⟩ := id h
    rcases hx.cases_inner hn with rfl | ⟨i, q, hi, hq⟩
    · exact ⟨_, h, fun _ ha => ha, id, le_refl _⟩
    have hso := (hsl i).2
    rw [hi] at hso
    obtain ⟨s, hs, his, hde, hra⟩ := ih i hso hq
    refine ⟨s, hs, fun a ha => ?_, fun hd => hde (hd.2 i), ?_⟩
    · exact RadixTree.mem_items_inner.mpr ⟨i, his a ha⟩
    · exact hra.trans (Tree.rank_child c i).le

theorem Represents.frame (ho : ∀ x, Occurs f r x → f'.object x = f.object x)
    (him : ∀ x n s, Occurs f r x → P x n s → Q x n s) : Represents f' Q t r := by
  induction t generalizing r with
  | empty => cases h
  | leaf type item =>
    obtain ⟨n, hn, ht, hit, hP⟩ := h
    exact ⟨n, (ho r (.refl r)).trans hn, ht, hit, him r _ _ (.refl r) hP⟩
  | inner c ih =>
    obtain ⟨n, hn, hP, hsl⟩ := h
    refine ⟨n, (ho r (.refl r)).trans hn, him r _ _ (.refl r) hP, fun i => ?_⟩
    refine ⟨(hsl i).1, ?_⟩
    refine Slot.imp (hsl i).2 fun q hi hso => ?_
    exact ih i hso (fun x hx => ho x (.child hn hi hx))
      (fun x n' s hx => him x n' s (.child hn hi hx))

theorem Represents.clone {n : SHAMapAbstractNode} {seq : ℕ}
    (hn : f.object r = some n) (hco : f'.object q = some (n.clone seq))
    (ho : ∀ x, Occurs f r x → f'.object x = f.object x) (hr : P r n t → Q q (n.clone seq) t)
    (him : ∀ x n s, Occurs f r x → P x n s → Q x n s) : Represents f' Q t q := by
  cases t with
  | empty => cases h
  | leaf type item =>
    obtain ⟨l, hl, ht, hit, hP⟩ := h
    rw [hn] at hl
    cases hl
    exact ⟨_, hco, ht, hit, hr hP⟩
  | inner c =>
    obtain ⟨i, hi, hP, hsl⟩ := h
    rw [hn] at hi
    cases hi
    refine ⟨_, hco, hr hP, fun j => ⟨(hsl j).1, ?_⟩⟩
    refine Slot.imp (hsl j).2 fun q' hj hso => ?_
    exact Represents.frame hso (fun x hx => ho x (.child hn hj hx))
      (fun x n' s hx => him x n' s (.child hn hj hx))

theorem Represents.mono (him : ∀ x n s, P x n s → Q x n s) : Represents f Q t r :=
  h.frame (fun _ _ => rfl) fun x n s _ => him x n s

theorem Represents.and (h' : Represents f Q t r) :
    Represents f (fun x n s => P x n s ∧ Q x n s) t r := by
  induction t generalizing r with
  | empty => cases h
  | leaf type item =>
    obtain ⟨n, hn, ht, hit, hP⟩ := h
    exact ⟨n, hn, ht, hit, hP, h'.of_object hn⟩
  | inner c ih =>
    obtain ⟨n, hn, hP, hsl⟩ := h
    refine ⟨n, hn, ⟨hP, h'.of_object hn⟩, fun i => ⟨(hsl i).1, ?_⟩⟩
    have hso := (hsl i).2
    have hso' := (h'.slots hn i).2
    cases hi : n.mChildren i with
    | none =>
      rw [hi] at hso
      exact hso
    | some q =>
      rw [hi] at hso hso'
      exact ih i hso hso'

end

theorem Occurs.of_frame (h : Occurs f' r x)
    (ho : ∀ y, Occurs f r y → f'.object y = f.object y) : Occurs f r x := by
  induction h with
  | refl r => exact .refl r
  | @child r q x n i hn hi hx ih =>
    have hn' : f.object r = some (.inner n) := (ho r (.refl r)).symm.trans hn
    exact .child hn' hi (ih fun y hy => ho y (.child hn' hi hy))

theorem Represents.not_occurs_child (h : Represents f P (.inner c) r)
    (hn : f.object r = some (.inner n)) (hi : n.mChildren i = some q) : ¬Occurs f q r := by
  intro hoc
  have hso := (h.slots hn i).2
  rw [hi] at hso
  obtain ⟨s, hs, -, -, hra⟩ := Represents.of_occurs hso hoc
  have hlt := Tree.rank_child c i
  rw [h.unique hs] at hlt
  omega

/-- Children do not share nodes, which would hold items of both. -/
theorem Represents.disjoint {j : Fin 16} {q' : NodeRef}
    {d : ℕ} (h : Represents f P (.inner c) r) (hpl : (RadixTree.inner c).Placed d)
    (hde : ∀ i, (c i).Dense) (hn : f.object r = some (.inner n)) (hi : n.mChildren i = some q)
    (hj : n.mChildren j = some q') (hij : i ≠ j) (hx : Occurs f q x) : ¬Occurs f q' x := by
  intro hx'
  have hso := (h.slots hn i).2
  have hso' := (h.slots hn j).2
  rw [hi] at hso
  rw [hj] at hso'
  obtain ⟨s, hs, his, hsd, -⟩ := Represents.of_occurs hso hx
  obtain ⟨s', hs', his', -, -⟩ := Represents.of_occurs hso' hx'
  obtain rfl := hs.unique hs'
  obtain ⟨a, ha⟩ := (hsd (hde i)).exists_item hs.ne_empty
  refine hij ?_
  rw [← (hpl.2 i).1 a (his a ha), ← (hpl.2 j).1 a (his' a ha)]

/-! ### Trees of a map -/

section NodeOk

variable [Sha512Half]

/-- The hashes that a node holds are those of its tree. -/
def Hashes (_ : NodeRef) (n : SHAMapAbstractNode) (t : Tree) : Prop :=
  n.getNodeHash = t.digest ∧
    ∀ i (c : Fin 16 → Tree), n = .inner i → t = .inner c → ∀ j, i.mHashes j = (c j).digest

def Sealed (r : NodeRef) (n : SHAMapAbstractNode) (t : Tree) : Prop :=
  n.getSeq = 0 ∧ Hashes r n t

/-- Nodes with the map's number are its own, hashes that are there are right, unused branches have
none, and nodes with the number zero are sealed with all below them. -/
structure NodeOk (f : Family) (seq : ℕ) (mine : NodeRef → Prop)
    (L : NodeRef → SHAMapAbstractNode → Prop) (r : NodeRef) (n : SHAMapAbstractNode) (t : Tree) :
    Prop where
  extra : L r n
  own : n.getSeq = seq → mine r
  leaf : ∀ l, n = .leaf l → l.mHash = SHAMapTreeNode.hashOf l.mType l.mItem
  unused : ∀ i, n = .inner i → ∀ j, i.mIsBranch j = false → i.mHashes j = 0
  hashed : n.getNodeHash ≠ 0 → Represents f Hashes t r
  isSealed : n.getSeq = 0 → Represents f Sealed t r

abbrev Holds (f : Family) (seq : ℕ) (mine : NodeRef → Prop)
    (L : NodeRef → SHAMapAbstractNode → Prop) (t : Tree) (r : NodeRef) : Prop :=
  Represents f (NodeOk f seq mine L) t r

variable {seq : ℕ} {mine : NodeRef → Prop} {L : NodeProp}

theorem NodeOk.frame {n : SHAMapAbstractNode} (h : NodeOk f seq mine L r n t)
    (ho : ∀ x, Occurs f r x → f'.object x = f.object x) : NodeOk f' seq mine L r n t where
  extra := h.extra
  own := h.own
  leaf := h.leaf
  unused := h.unused
  hashed hne := (h.hashed hne).frame ho fun _ _ _ _ => id
  isSealed hz := (h.isSealed hz).frame ho fun _ _ _ _ => id

theorem Holds.frame (h : Holds f seq mine L t r)
    (ho : ∀ x, Occurs f r x → f'.object x = f.object x) : Holds f' seq mine L t r := by
  refine Represents.frame h ho fun x n s hx hok => ?_
  exact hok.frame fun y hy => ho y (hx.trans hy)

end NodeOk

end Sand
