import Sand.SHAMap.Represents

/-!
# Finding the place of a key

The walk along the digits of a key, with and without the stack of nodes passed.
-/

namespace Sand

open Family

def Family.childAt (f : Family) (r : NodeRef) (branch : Fin 16) : Option NodeRef :=
  match f.object r with
  | some (.inner n) => n.mChildren branch
  | _ => none

theorem Family.childAt_eq {f : Family} {r : NodeRef} {n : SHAMapInnerNode}
    (h : f.object r = some (.inner n)) (branch : Fin 16) :
    f.childAt r branch = n.mChildren branch := by
  rw [childAt, h]

@[simp]
theorem SHAMapNodeID.mDepth_getChildNodeID (id : SHAMapNodeID) (br : Fin 16) :
    (id.getChildNodeID br).mDepth = id.mDepth + 1 := rfl

namespace SHAMap

/-- From a node down along a key, deepest first. -/
def trace (f : Family) (k : UInt256) : Tree → NodeRef → SHAMapNodeID → NodeStack
  | .empty, r, id => [(r, id)]
  | .leaf _ _, r, id => [(r, id)]
  | .inner c, r, id =>
    match f.childAt r (id.selectBranch k) with
    | none => [(r, id)]
    | some q =>
      trace f k (c (id.selectBranch k)) q (id.getChildNodeID (id.selectBranch k)) ++ [(r, id)]

variable [Sha512Half] {m : SHAMap} {f : Family} {P : TreeProp}
  {t : Tree} {r : NodeRef} {id : SHAMapNodeID} {fuel : ℕ}

variable {c : Fin 16 → Tree} {k : UInt256} {q : NodeRef} {qid : SHAMapNodeID} {tail : NodeStack}
  {leaf : SHAMapTreeNode}

variable {n : SHAMapInnerNode}

section

omit [Sha512Half]

theorem isEmptyBranch_iff (hsl : Slots f P c n)
    (i : Fin 16) : n.isEmptyBranch i ↔ n.mChildren i = none := by
  rw [SHAMapInnerNode.isEmptyBranch, (hsl i).1]
  cases n.mChildren i <;> simp

theorem not_isEmptyBranch {i : Fin 16} (hsl : Slots f P c n)
    (hi : n.mChildren i = some q) : ¬n.isEmptyBranch i := by
  rw [isEmptyBranch_iff hsl, hi]
  simp

theorem trace_ne_nil (f : Family) (k : UInt256) (t : Tree) (r : NodeRef) (id : SHAMapNodeID) :
    trace f k t r id ≠ [] := by
  cases t with
  | empty | leaf type item => simp [trace]
  | inner c =>
    rw [trace]
    split <;> simp

theorem trace_inner (hn : f.object r = some (.inner n))
    (htr : trace f k (.inner c) r id = (q, qid) :: tail) (hq : f.object q = some (.leaf leaf)) :
    ∃ q1 tail', n.mChildren (id.selectBranch k) = some q1 ∧
      trace f k (c (id.selectBranch k)) q1 (id.getChildNodeID (id.selectBranch k)) =
        (q, qid) :: tail' ∧ tail = tail' ++ [(r, id)] := by
  rw [trace, childAt_eq hn] at htr
  cases hch : n.mChildren (id.selectBranch k) with
  | none =>
    rw [hch] at htr
    cases htr
    rw [hn] at hq
    cases hq
  | some q1 =>
    rw [hch] at htr
    dsimp only at htr
    cases hb : trace f k (c (id.selectBranch k)) q1 (id.getChildNodeID (id.selectBranch k)) with
    | nil => exact absurd hb (trace_ne_nil _ _ _ _ _)
    | cons head tail' =>
      rw [hb] at htr
      cases htr
      exact ⟨q1, tail', rfl, hb, rfl⟩

theorem leaf_of_trace (h : Represents f P t r) (htr : trace f k t r id = (q, qid) :: tail)
    (hq : f.object q = some (.leaf leaf)) : Occurs f r q ∧ id.mDepth ≤ qid.mDepth := by
  induction t generalizing r id tail with
  | empty => cases h
  | leaf type item =>
    cases htr
    exact ⟨.refl _, le_refl _⟩
  | inner c ih =>
    obtain ⟨n, hn, -, hsl⟩ := h
    obtain ⟨q1, tail', hch, htr', -⟩ := trace_inner hn htr hq
    obtain ⟨hoc, hd⟩ := ih _ (Slot.child (hsl _).2 hch) htr'
    exact ⟨.child hn hch hoc, (Nat.le_succ _).trans hd⟩

/-- The path ends at the leaf, or shows that there is none. -/
theorem trace_end (k : UInt256) (id : SHAMapNodeID) (h : Represents f P t r) :
    ∃ q qid tail, trace f k t r id = (q, qid) :: tail ∧
      ((∃ n, f.object q = some (.inner n) ∧ t.lookup k id.mDepth = none) ∨
        ∃ leaf, f.object q = some (.leaf leaf) ∧
          (t.lookup k id.mDepth = if leaf.mItem.key = k then some leaf.mItem else none) ∧
          ∀ type, t.Tagged type → leaf.mType = type) := by
  induction t generalizing r id with
  | empty => cases h
  | leaf type item =>
    obtain ⟨n, hn, rfl, rfl, -⟩ := h
    exact ⟨r, id, [], rfl, .inr ⟨n, hn, rfl, fun _ h => h⟩⟩
  | inner c ih =>
    obtain ⟨n, hn, -, hsl⟩ := h
    have hs := (hsl (id.selectBranch k)).2
    cases hch : n.mChildren (id.selectBranch k) with
    | none =>
      rw [hch] at hs
      refine ⟨r, id, [], ?_, .inl ⟨n, hn, ?_⟩⟩
      · simp [trace, childAt_eq hn, hch]
      · change (c (id.selectBranch k)).lookup k (id.mDepth + 1) = none
        rw [slot_none_iff.mp hs]
        rfl
    | some q =>
      rw [hch] at hs
      obtain ⟨q', qid, tail, htr, he⟩ := ih (id.selectBranch k)
        (id.getChildNodeID (id.selectBranch k)) hs
      refine ⟨q', qid, tail ++ [(r, id)], ?_, he.imp (fun h => h) ?_⟩
      · simp [trace, childAt_eq hn, hch, htr]
      · rintro ⟨leaf, hl, hlk, hta⟩
        exact ⟨leaf, hl, hlk, fun type ht => hta type (ht _)⟩

theorem exists_leaf_of_lookup {a : SHAMapItem} (id : SHAMapNodeID) (h : Represents f P t r)
    (hlk : t.lookup k id.mDepth = some a) :
    ∃ q qid tail leaf, trace f k t r id = (q, qid) :: tail ∧ f.object q = some (.leaf leaf) ∧
      leaf.mItem.key = k ∧ leaf.mItem = a ∧ ∀ type, t.Tagged type → leaf.mType = type := by
  obtain ⟨q, qid, tail, htr, he⟩ := trace_end k id h
  rcases he with ⟨n, -, hno⟩ | ⟨leaf, hq, hl, hta⟩
  · rw [hno] at hlk
    cases hlk
  by_cases hk : leaf.mItem.key = k
  · rw [if_pos hk, hlk] at hl
    exact ⟨q, qid, tail, leaf, htr, hq, hk, (Option.some.inj hl).symm, hta⟩
  · rw [if_neg hk, hlk] at hl
    cases hl

theorem exists_node_of_lookup_none (id : SHAMapNodeID) (h : Represents f P t r)
    (hlk : t.lookup k id.mDepth = none) :
    ∃ q qid tail n, trace f k t r id = (q, qid) :: tail ∧ f.object q = some n ∧
      ∀ leaf, n = .leaf leaf → leaf.mItem.key ≠ k := by
  obtain ⟨q, qid, tail, htr, he⟩ := trace_end k id h
  rcases he with ⟨n, hq, -⟩ | ⟨leaf, hq, hl, -⟩
  · exact ⟨q, qid, tail, .inner n, htr, hq, nofun⟩
  refine ⟨q, qid, tail, .leaf leaf, htr, hq, ?_⟩
  rintro _ ⟨⟩ hk
  rw [if_pos hk, hlk] at hl
  cases hl

theorem isRoot_of_trace (h : Represents f P (.inner c) r)
    (htr : trace f k (.inner c) r id = (q, qid) :: tail) (hq : f.object q = some (.leaf leaf)) :
    qid.isRoot = false := by
  obtain ⟨n, hn, -, hsl⟩ := h
  obtain ⟨q1, tail', hch, htr', -⟩ := trace_inner hn htr hq
  have hs := Slot.child (hsl _).2 hch
  have hd := (leaf_of_trace hs htr' hq).2
  rw [SHAMapNodeID.mDepth_getChildNodeID] at hd
  simp only [SHAMapNodeID.isRoot, beq_eq_false_iff_ne]
  omega

end

theorem getStackLoop_run (k : UInt256) (h : Represents f P t r) (hpl : t.Placed id.mDepth)
    (hf : 64 ≤ fuel + id.mDepth) (stk : NodeStack) :
    m.getStackLoop k true fuel r id stk f = .ok (trace f k t r id ++ stk, f) := by
  induction t generalizing r id fuel stk with
  | empty => cases h
  | leaf type item =>
    obtain ⟨n, hn, -⟩ := h
    rw [getStackLoop.eq_def, run_bind (load_eq hn)]
    rfl
  | inner c ih =>
    obtain ⟨n, hn, -, hsl⟩ := h
    have hd : id.mDepth < 64 := hpl.1
    obtain ⟨fuel, rfl⟩ := (@Nat.exists_eq_add_one fuel).mpr (by omega)
    rw [getStackLoop.eq_def, run_bind (load_eq hn)]
    dsimp only
    cases hch : n.mChildren (id.selectBranch k) with
    | none =>
      rw [if_pos ((isEmptyBranch_iff hsl _).mpr hch)]
      simp [trace, childAt_eq hn, hch, run_pure]
    | some q =>
      have hs := Slot.child (hsl _).2 hch
      rw [if_neg (not_isEmptyBranch hsl hch), run_bind (descendThrow_eq _ hn hch),
        ih (id.selectBranch k) hs (hpl.2 _).2 (by simp; omega)]
      simp [trace, childAt_eq hn, hch]

theorem getStack_run (k : UInt256) (h : Represents f P t m.root_) (hpl : t.Placed 0) :
    m.getStack k true f = .ok (trace f k t m.root_ {}, f) := by
  rw [getStack, getStackLoop_run k h hpl (by simp), List.append_nil]

theorem walkToPointer_run (k : UInt256) (fuel : ℕ) (id : SHAMapNodeID) (h : Represents f P t r)
    (hpl : t.Placed id.mDepth) (hf : 64 ≤ fuel + id.mDepth) :
    ∃ leaf, m.walkToPointer k fuel r id f = .ok (leaf, f) ∧
      leaf.map SHAMapTreeNode.mItem = t.lookup k id.mDepth := by
  induction t generalizing r id fuel with
  | empty => cases h
  | leaf type item =>
    obtain ⟨n, hn, -, hit, -⟩ := h
    refine ⟨if n.mItem.key = k then some n else none, ?_, ?_⟩
    · rw [walkToPointer.eq_def, run_bind (load_eq hn)]
      rfl
    rw [RadixTree.lookup, ← hit]
    change _ = if n.mItem.key = k then _ else _
    by_cases hk : n.mItem.key = k
    · rw [if_pos hk, if_pos hk]
      rfl
    · rw [if_neg hk, if_neg hk]
      rfl
  | inner c ih =>
    obtain ⟨n, hn, -, hsl⟩ := h
    have hd : id.mDepth < 64 := hpl.1
    obtain ⟨fuel, rfl⟩ := (@Nat.exists_eq_add_one fuel).mpr (by omega)
    rw [walkToPointer.eq_def, run_bind (load_eq hn)]
    dsimp only
    have hs := (hsl (id.selectBranch k)).2
    cases hch : n.mChildren (id.selectBranch k) with
    | none =>
      rw [hch] at hs
      rw [if_pos ((isEmptyBranch_iff hsl _).mpr hch)]
      have hem : c (nibble id.mDepth k) = .empty := slot_none_iff.mp hs
      refine ⟨none, rfl, ?_⟩
      change none = (c (nibble id.mDepth k)).lookup k (id.mDepth + 1)
      rw [hem]
      rfl
    | some q =>
      rw [hch] at hs
      rw [if_neg (not_isEmptyBranch hsl hch), run_bind (descendThrow_eq _ hn hch)]
      exact ih (id.selectBranch k) _ _ hs (hpl.2 _).2 (by simp; omega)

theorem peekItem_run (k : UInt256) (h : Represents f P t m.root_) (hpl : t.Placed 0) :
    m.peekItem k f = .ok (t.lookup k 0, f) := by
  obtain ⟨leaf, hr, hl⟩ := walkToPointer_run (m := m) k 64 {} h hpl (by simp)
  rw [peekItem, run_bind hr, ← hl]
  rfl

theorem hasItem_run (k : UInt256) (h : Represents f P t m.root_) (hpl : t.Placed 0) :
    m.hasItem k f = .ok ((t.lookup k 0).isSome, f) := by
  obtain ⟨leaf, hr, hl⟩ := walkToPointer_run (m := m) k 64 {} h hpl (by simp)
  rw [hasItem, run_bind hr, ← hl, Option.isSome_map]
  rfl

end SHAMap

end Sand
