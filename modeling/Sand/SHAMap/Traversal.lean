import Mathlib.Data.List.TakeWhile
import Sand.SHAMap.Lookup

/-!
# Walking over a map

The item next to a key is sought along its path, from the bottom up.
-/

namespace Sand

open Family List SHAMapTreeNode Nat

/-- How to go through branches and keys. -/
structure Direction where
  branches : List (Fin 16)
  branchAfter : Fin 16 → Fin 16 → Bool
  keyAfter : UInt256 → UInt256 → Bool
  missing : UInt256 → SHAMapError

namespace Direction

def upwards : Direction where
  branches := finRange 16
  branchAfter i j := i < j
  keyAfter k k' := k < k'
  missing := .missingNode

/-- A missing leaf is used without a check. -/
def downwards : Direction where
  branches := (finRange 16).reverse
  branchAfter i j := j < i
  keyAfter k k' := k' < k
  missing _ := .undefined

/-- The two orders agree, and every branch has its turn. -/
structure Lawful (dir : Direction) : Prop where
  lex : RadixTree.LexOrder (fun k k' => dir.keyAfter k k') (fun i j => dir.branchAfter i j)
  mem_branches : ∀ i, i ∈ dir.branches
  sorted : dir.branches.Pairwise fun i j => dir.branchAfter i j
  asymm : ∀ i j, dir.branchAfter i j → dir.branchAfter j i = false

theorem lawful_upwards : upwards.Lawful where
  lex := by
    simpa only [upwards, decide_eq_true_eq] using lexOrder_lt
  mem_branches := mem_finRange
  sorted := by decide
  asymm := by decide

theorem lawful_downwards : downwards.Lawful where
  lex := by
    simpa only [downwards, decide_eq_true_eq] using lexOrder_gt
  mem_branches i := mem_reverse.mpr (mem_finRange i)
  sorted := by decide
  asymm := by decide

theorem Lawful.of_find {dir : Direction} (h : dir.Lawful) {p : Fin 16 → Bool} {i j : Fin 16}
    (hf : dir.branches.find? p = some i) (hj : dir.branchAfter j i) : p j = false := by
  obtain ⟨-, before, after, hsp, hb⟩ := List.find?_eq_some_iff_append.mp hf
  have hm := h.mem_branches j
  have hso := h.sorted
  rw [hsp] at hm hso
  rcases mem_append.mp hm with hlf | hri
  · simpa using hb j hlf
  have haf : dir.branchAfter i j ∨ j = i := by
    rcases mem_cons.mp hri with rfl | hin
    · exact .inr rfl
    · exact .inl ((pairwise_cons.mp (pairwise_append.mp hso).2.1).1 j hin)
  rcases haf with hij | rfl
  · rw [h.asymm i j hij] at hj
    cases hj
  · rw [h.asymm j j hj] at hj
    cases hj

end Direction

namespace SHAMap

variable [Sha512Half] (m : SHAMap)

def endBelow (dir : Direction) (fuel : ℕ) (node : NodeRef) : FamilyM (Option SHAMapTreeNode) := do
  match ← load node with
  | .leaf leaf => return some leaf
  | .inner inner =>
    match fuel with
    | 0 => throw .undefined
    | fuel + 1 =>
      match dir.branches.find? fun i => !inner.isEmptyBranch i with
      | none => return none
      | some i =>
        let child ← descendThrow m.backed_ node i
        endBelow dir fuel child

def firstBelow (node : NodeRef) : FamilyM (Option SHAMapTreeNode) :=
  m.endBelow .upwards 64 node

def lastBelow (node : NodeRef) : FamilyM (Option SHAMapTreeNode) :=
  m.endBelow .downwards 64 node

def peekFirstItem : FamilyM (Option SHAMapItem) := do
  return (← m.firstBelow m.root_).map mItem

def peekLastItem : FamilyM (Option SHAMapItem) := do
  return (← m.lastBelow m.root_).map mItem

/-- Goes up the path until there is an item beyond the key. -/
def neighbourLoop (dir : Direction) (id : UInt256) : NodeStack → FamilyM (Option SHAMapItem)
  | [] => return none
  | (node, nodeID) :: stack => do
    match ← load node with
    | .leaf leaf =>
      if dir.keyAfter id leaf.mItem.key then return some leaf.mItem
      else neighbourLoop dir id stack
    | .inner inner =>
      match dir.branches.find? fun i =>
          dir.branchAfter (nodeID.selectBranch id) i && !inner.isEmptyBranch i with
      | none => neighbourLoop dir id stack
      | some i =>
        let child ← descendThrow m.backed_ node i
        match ← m.endBelow dir 64 child with
        | some leaf => return some leaf.mItem
        | none => throw (dir.missing id)

def peekNextItem (id : UInt256) : FamilyM (Option SHAMapItem) := do
  m.neighbourLoop .upwards id (← m.getStack id true)

def peekPrevItem (id : UInt256) : FamilyM (Option SHAMapItem) := do
  m.neighbourLoop .downwards id (← m.getStack id true)

/-- The child on a branch, which does not get hooked. -/
def descendNoStore (parent : NodeRef) (branch : Fin 16) : FamilyM NodeRef := do
  let inner ← loadInner parent
  match inner.mChildren branch with
  | some child => return child
  | none =>
    if m.backed_ then
      match ← fetchNodeNT m.backed_ (inner.mHashes branch) with
      | some node => return node
      | none => throw (.missingNode (inner.mHashes branch))
    else throw .undefined

/-- The last position before one in use. -/
def skipEmpty (inner : SHAMapInnerNode) (pos : ℕ) : ℕ :=
  pos + (((finRange 16).drop (pos + 1)).takeWhile inner.isEmptyBranch).length

def visitLoop {σ : Type} (function : SHAMapAbstractNode → σ → Bool × σ) :
    ℕ → NodeRef → ℕ → List (ℕ × NodeRef) → σ → FamilyM σ
  | 0, _, _, _, _ => throw .undefined
  | fuel + 1, node, pos, stack, s =>
    if h : pos < 16 then do
      let inner ← loadInner node
      if inner.isEmptyBranch ⟨pos, h⟩ then visitLoop function fuel node (pos + 1) stack s
      else
        let child ← m.descendNoStore node ⟨pos, h⟩
        let n ← load child
        let (stop, s) := function n s
        if stop then return s
        else
          match n with
          | .leaf _ => visitLoop function fuel node (pos + 1) stack s
          | .inner _ =>
            let pos := skipEmpty inner pos
            -- a node that is done with is not put on the stack
            visitLoop function fuel child 0 (if pos ≠ 15 then (pos + 1, node) :: stack else stack) s
    else
      match stack with
      | [] => return s
      | (pos, node) :: stack => visitLoop function fuel node pos stack s

def visitNodes {σ : Type} (fuel : ℕ) (function : SHAMapAbstractNode → σ → Bool × σ) (s : σ) :
    FamilyM σ := do
  let root ← load m.root_
  let (_, s) := function root s
  if root.isInner then m.visitLoop function fuel m.root_ 0 [] s else return s

def visitLeavesHelper {σ : Type} (function : SHAMapItem → σ → σ) (node : SHAMapAbstractNode)
    (s : σ) : Bool × σ :=
  match node with
  | .inner _ => (false, s)
  | .leaf leaf => (false, function leaf.mItem s)

def visitLeaves {σ : Type} (fuel : ℕ) (leafFunction : SHAMapItem → σ → σ) (s : σ) : FamilyM σ :=
  m.visitNodes fuel (visitLeavesHelper leafFunction) s

variable {m} {f : Family} {P : TreeProp} {t : Tree} {r : NodeRef} {dir : Direction}
  {c : Fin 16 → Tree} {n : SHAMapInnerNode} {i : Fin 16}

section

omit [Sha512Half]

theorem items_eq_nil_of_isEmptyBranch (hsl : Slots f P c n) (h : n.isEmptyBranch i) :
    (c i).items = [] := by
  rw [hsl.isEmptyBranch_eq] at h
  rw [RadixTree.isEmpty_iff.mp h]
  rfl

theorem exists_child_of_used (hsl : Slots f P c n)
    (h : n.isEmptyBranch i = false) : ∃ q, n.mChildren i = some q ∧ Represents f P (c i) q := by
  rw [SHAMapInnerNode.isEmptyBranch, (hsl i).1, Bool.not_eq_false'] at h
  obtain ⟨q, hq⟩ := Option.isSome_iff_exists.mp h
  exact ⟨q, hq, (hsl i).2.child hq⟩

end

theorem endBelow_run (hd : dir.Lawful) (fuel : ℕ) {d : ℕ} (h : Represents f P t r)
    (hpl : t.Placed d) (hun : t.Uniform d)
    (hde : ∀ c, t = .inner c → ∀ i, (c i).Dense) (hfu : 64 ≤ fuel + d) :
    ∃ o, m.endBelow dir fuel r f = .ok (o, f) ∧ o.elim (t.items = []) fun leaf =>
        t.IsFirst (fun k k' => dir.keyAfter k k') leaf.mItem := by
  induction t generalizing r fuel d with
  | empty => cases h
  | leaf type item =>
    obtain ⟨n, hn, -, rfl, -⟩ := h
    refine ⟨some n, ?_, mem_singleton_self _, fun x hx => .inl (mem_singleton.mp hx)⟩
    rw [endBelow.eq_def, run_bind (load_eq hn)]
    rfl
  | inner c ih =>
    obtain ⟨n, hn, -, hsl⟩ := h
    have hdp : d < 64 := hpl.1
    obtain ⟨fuel, rfl⟩ := (@Nat.exists_eq_add_one fuel).mpr (by omega)
    rw [endBelow.eq_def, run_bind (load_eq hn)]
    dsimp only
    cases hf : dir.branches.find? fun i => !n.isEmptyBranch i with
    | none =>
      refine ⟨none, rfl, eq_nil_iff_forall_not_mem.mpr fun x hx => ?_⟩
      obtain ⟨i, hi⟩ := RadixTree.mem_items_inner.mp hx
      have he := List.find?_eq_none.mp hf i (hd.mem_branches i)
      rw [items_eq_nil_of_isEmptyBranch hsl (by simpa using he)] at hi
      cases hi
    | some i =>
      have hus : n.isEmptyBranch i = false := by simpa using List.find?_some hf
      obtain ⟨q, hch, hq⟩ := exists_child_of_used hsl hus
      have hci := hde c rfl i
      obtain ⟨o, hr, hen⟩ := ih i fuel hq (hpl.2 i).2 (hun.child hpl i) (fun c' hc' j => by
          rw [hc'] at hci
          exact hci.2 j) (by omega)
      dsimp only
      rw [run_bind (descendThrow_eq _ hn hch), hr]
      refine ⟨o, rfl, ?_⟩
      cases o with
      | none =>
        obtain ⟨a, ha⟩ := hci.exists_item hq.ne_empty
        rw [show (c i).items = [] from hen] at ha
        cases ha
      | some leaf =>
        refine RadixTree.IsFirst.inner hd.lex hpl hun hen fun j hj => ?_
        have he := hd.of_find hf hj
        exact items_eq_nil_of_isEmptyBranch hsl (by simpa using he)

variable {k : UInt256}

theorem neighbourLoop_inner (hd : dir.Lawful) {id : SHAMapNodeID}
    (hn : f.object r = some (.inner n)) (hsl : Slots f P c n)
    (hpl : (RadixTree.inner c).Placed id.mDepth) (hde : ∀ i, (c i).Dense)
    (hu : (RadixTree.inner c).Under id.mDepth k)
    (hno : (c (id.selectBranch k)).IsNext (fun k k' => dir.keyAfter k k') k none)
    (stk : NodeStack) :
    ∃ o, m.neighbourLoop dir k ((r, id) :: stk) f =
        (o.elim (m.neighbourLoop dir k stk) fun a => pure (some a)) f ∧
      (RadixTree.inner c).IsNext (fun k k' => dir.keyAfter k k') k o := by
  rw [neighbourLoop, run_bind (load_eq hn)]
  dsimp only
  cases hf : dir.branches.find? fun i =>
      dir.branchAfter (id.selectBranch k) i && !n.isEmptyBranch i with
  | none =>
    refine ⟨none, rfl, .inner_none hd.lex hpl hu hno fun j hj => ?_⟩
    have he := List.find?_eq_none.mp hf j (hd.mem_branches j)
    rw [show dir.branchAfter (id.selectBranch k) j from hj] at he
    exact items_eq_nil_of_isEmptyBranch hsl (by simpa using he)
  | some i =>
    have hfn := List.find?_some hf
    rw [Bool.and_eq_true] at hfn
    have hus : n.isEmptyBranch i = false := by simpa using hfn.2
    obtain ⟨q, hch, hq⟩ := exists_child_of_used hsl hus
    obtain ⟨o, hr, hen⟩ := endBelow_run (m := m) hd 64 hq (hpl.2 i).2 (hu.uniform.child hpl i)
      (fun c' hc' j => by
        have := hde i
        rw [hc'] at this
        exact this.2 j) (by omega)
    dsimp only
    rw [run_bind (descendThrow_eq _ hn hch), run_bind hr]
    cases o with
    | none =>
      obtain ⟨a, ha⟩ := (hde i).exists_item hq.ne_empty
      rw [show (c i).items = [] from hen] at ha
      cases ha
    | some leaf =>
      refine ⟨some leaf.mItem, rfl, .inner_first hd.lex hpl hu hno hfn.1 hen ?_⟩
      intro j hkj hji
      have he := hd.of_find hf hji
      rw [show dir.branchAfter (id.selectBranch k) j from hkj] at he
      exact items_eq_nil_of_isEmptyBranch hsl (by simpa using he)

theorem neighbourLoop_run (hd : dir.Lawful) (id : SHAMapNodeID) (h : Represents f P t r)
    (hpl : t.Placed id.mDepth) (hde : ∀ c, t = .inner c → ∀ i, (c i).Dense)
    (hu : t.Under id.mDepth k) (stack : NodeStack) :
    ∃ o, m.neighbourLoop dir k (trace f k t r id ++ stack) f =
        (o.elim (m.neighbourLoop dir k stack) fun a => pure (some a)) f ∧
      t.IsNext (fun k k' => dir.keyAfter k k') k o := by
  induction t generalizing r id stack with
  | empty => cases h
  | leaf type item =>
    obtain ⟨n, hn, -, rfl, -⟩ := h
    rw [trace, singleton_append, neighbourLoop, run_bind (load_eq hn)]
    dsimp only
    by_cases hk : dir.keyAfter k n.mItem.key
    · rw [if_pos hk]
      exact ⟨some n.mItem, rfl, mem_singleton_self _, hk, fun x hx _ => .inl (mem_singleton.mp hx)⟩
    · rw [if_neg hk]
      refine ⟨none, rfl, fun x hx => ?_⟩
      rw [mem_singleton.mp hx]
      exact hk
  | inner c ih =>
    obtain ⟨n, hn, -, hsl⟩ := h
    have hs := (hsl (id.selectBranch k)).2
    cases hch : n.mChildren (id.selectBranch k) with
    | none =>
      rw [hch] at hs
      have htr : trace f k (.inner c) r id = [(r, id)] := by
        simp [trace, childAt_eq hn, hch]
      rw [htr, singleton_append]
      refine neighbourLoop_inner hd hn hsl hpl (hde c rfl) hu ?_ stack
      rw [slot_none_iff.mp hs]
      intro x hx
      cases hx
    | some q =>
      rw [hch] at hs
      have htr : trace f k (.inner c) r id ++ stack =
          trace f k (c (id.selectBranch k)) q (id.getChildNodeID (id.selectBranch k)) ++
            (r, id) :: stack := by
        simp [trace, childAt_eq hn, hch]
      rw [htr]
      obtain ⟨o, hr, hnx⟩ := ih (id.selectBranch k)
        (id.getChildNodeID (id.selectBranch k)) hs (hpl.2 _).2
        (fun c' hc' j => by
          have := hde c rfl (id.selectBranch k)
          rw [hc'] at this
          exact this.2 j) (hu.child hpl) ((r, id) :: stack)
      rw [hr]
      cases o with
      | none =>
        exact neighbourLoop_inner hd hn hsl hpl (hde c rfl) hu hnx stack
      | some a => exact ⟨some a, rfl, .inner_some hd.lex hpl hu hnx⟩

theorem peekNeighbour_run (hd : dir.Lawful) (k : UInt256) (h : Represents f P t m.root_)
    (hrt : t.Rooted) :
    ∃ o, (m.getStack k true >>= m.neighbourLoop dir k) f = .ok (o, f) ∧
      t.IsNext (fun k k' => dir.keyAfter k k') k o := by
  obtain ⟨hpl, c, rfl, hde⟩ := hrt
  obtain ⟨o, hr, hnx⟩ := neighbourLoop_run (m := m) hd {} h hpl (by
      rintro _ ⟨⟩
      exact hde) (RadixTree.under_zero _ k) []
  rw [append_nil] at hr
  refine ⟨o, ?_, hnx⟩
  rw [run_bind (getStack_run k h hpl), hr]
  cases o <;> rfl

theorem peekNextItem_run (k : UInt256) (h : Represents f P t m.root_) (hrt : t.Rooted) :
    ∃ o, m.peekNextItem k f = .ok (o, f) ∧ t.IsNext (· < ·) k o := by
  obtain ⟨o, hr, hnx⟩ := peekNeighbour_run (m := m) Direction.lawful_upwards k h hrt
  exact ⟨o, hr, by simpa only [Direction.upwards, decide_eq_true_eq] using hnx⟩

theorem peekPrevItem_run (k : UInt256) (h : Represents f P t m.root_) (hrt : t.Rooted) :
    ∃ o, m.peekPrevItem k f = .ok (o, f) ∧ t.IsNext (· > ·) k o := by
  obtain ⟨o, hr, hnx⟩ := peekNeighbour_run (m := m) Direction.lawful_downwards k h hrt
  exact ⟨o, hr, by simpa only [Direction.downwards, decide_eq_true_eq] using hnx⟩

theorem peekEnd_run (hd : dir.Lawful) (h : Represents f P t m.root_) (hrt : t.Rooted) :
    ∃ o, (m.endBelow dir 64 m.root_ >>= fun o => pure (o.map mItem)) f =
        .ok (o, f) ∧
      o.elim (t.items = []) (t.IsFirst fun k k' => dir.keyAfter k k') := by
  obtain ⟨hpl, c, rfl, hde⟩ := hrt
  obtain ⟨o, hr, hen⟩ := endBelow_run (m := m) hd 64 h hpl (RadixTree.uniform_zero _) (by
      rintro _ ⟨⟩
      exact hde) (by omega)
  refine ⟨o.map mItem, run_bind hr, ?_⟩
  cases o <;> exact hen

theorem peekFirstItem_run (h : Represents f P t m.root_) (hrt : t.Rooted) :
    ∃ o, m.peekFirstItem f = .ok (o, f) ∧ o.elim (t.items = []) (t.IsFirst (· < ·)) := by
  obtain ⟨o, hr, hen⟩ := peekEnd_run (m := m) Direction.lawful_upwards h hrt
  exact ⟨o, hr, by simpa only [Direction.upwards, decide_eq_true_eq] using hen⟩

theorem peekLastItem_run (h : Represents f P t m.root_) (hrt : t.Rooted) :
    ∃ o, m.peekLastItem f = .ok (o, f) ∧ o.elim (t.items = []) (t.IsFirst (· > ·)) := by
  obtain ⟨o, hr, hen⟩ := peekEnd_run (m := m) Direction.lawful_downwards h hrt
  exact ⟨o, hr, by simpa only [Direction.downwards, decide_eq_true_eq] using hen⟩

/-! ### Visiting -/

variable {σ : Type}

def itemsFrom (c : Fin 16 → Tree) (pos : ℕ) : List SHAMapItem :=
  ((finRange 16).drop pos).flatMap fun i => (c i).items

variable {pos : ℕ}

section

omit [Sha512Half]

theorem itemsFrom_of_lt (c : Fin 16 → Tree) (h : pos < 16) :
    itemsFrom c pos = (c ⟨pos, h⟩).items ++ itemsFrom c (pos + 1) := by
  rw [itemsFrom, drop_eq_getElem_cons (by simpa using h), flatMap_cons]
  simp [itemsFrom]

theorem itemsFrom_of_ge (c : Fin 16 → Tree) (h : 16 ≤ pos) : itemsFrom c pos = [] := by
  rw [itemsFrom, drop_of_length_le (by simpa using h)]
  rfl

theorem itemsFrom_skipEmpty (hsl : Slots f P c n) (pos : ℕ) : itemsFrom c (pos + 1) = itemsFrom c
    (skipEmpty n pos + 1) := by
  have hsp := takeWhile_append_dropWhile (p := n.isEmptyBranch) (l := (finRange 16).drop (pos + 1))
  have hdr : ((finRange 16).drop (pos + 1)).dropWhile n.isEmptyBranch =
      (finRange 16).drop (skipEmpty n pos + 1) := by
    have heq := congrArg (List.drop
      (((finRange 16).drop (pos + 1)).takeWhile n.isEmptyBranch).length) hsp
    rw [drop_left, drop_drop] at heq
    rw [heq, skipEmpty]
    congr 1
    omega
  rw [itemsFrom, ← hsp, flatMap_append, hdr]
  have hni : (((finRange 16).drop (pos + 1)).takeWhile n.isEmptyBranch).flatMap
      (fun i => (c i).items) = [] := by
    refine flatMap_eq_nil_iff.mpr fun i hi => ?_
    exact items_eq_nil_of_isEmptyBranch hsl (mem_takeWhile_imp hi)
  rw [hni]
  rfl

theorem skipEmpty_le (n : SHAMapInnerNode) (h : pos < 16) :
    pos ≤ skipEmpty n pos ∧ skipEmpty n pos ≤ 15 := by
  have hln := (takeWhile_sublist (l := (finRange 16).drop (pos + 1)) n.isEmptyBranch).length_le
  rw [length_drop, length_finRange] at hln
  unfold skipEmpty
  omega

end

theorem visitLoop_done (function : SHAMapAbstractNode → σ → Bool × σ) (fuel : ℕ) (x y : NodeRef)
    (stk : List (ℕ × NodeRef)) (s : σ) :
    m.visitLoop function (fuel + 1) x 16 stk s = m.visitLoop function
    (fuel + 1) y 16 stk s := by
  simp [visitLoop]

theorem descendNoStore_eq {q : NodeRef} (hn : f.object r = some (.inner n))
    (hch : n.mChildren i = some q) : m.descendNoStore r i f = .ok (q, f) := by
  rw [descendNoStore, run_bind (loadInner_eq hn)]
  simp only [hch]
  rfl

section Steps

variable (function : SHAMapItem → σ → σ) (fuel : ℕ) {q : NodeRef}
  (hlt : pos < 16) (hn : f.object r = some (.inner n)) (stack : List (ℕ × NodeRef)) (s : σ)

theorem visitLoop_pop (x y : NodeRef) (next : ℕ) :
    m.visitLoop (visitLeavesHelper function) (fuel + 1) x 16 ((next, y) :: stack) s =
      m.visitLoop (visitLeavesHelper function) fuel y next stack s := by
  simp [visitLoop]

include hn in
theorem visitLoop_empty (he : n.isEmptyBranch ⟨pos, hlt⟩) :
    m.visitLoop (visitLeavesHelper function) (fuel + 1) r pos stack s f =
      m.visitLoop (visitLeavesHelper function) fuel r (pos + 1) stack s f := by
  simp only [visitLoop, dif_pos hlt]
  rw [run_bind (loadInner_eq hn), if_pos he]

variable (hus : n.isEmptyBranch ⟨pos, hlt⟩ = false) (hch : n.mChildren ⟨pos, hlt⟩ = some q)
include hn hus hch

theorem visitLoop_leaf {leaf : SHAMapTreeNode} (hq : f.object q = some (.leaf leaf)) :
    m.visitLoop (visitLeavesHelper function) (fuel + 1) r pos stack s f =
      m.visitLoop (visitLeavesHelper function) fuel r (pos + 1) stack (function leaf.mItem s) f := by
  simp only [visitLoop, dif_pos hlt]
  rw [run_bind (loadInner_eq hn), if_neg (by simp [hus]), run_bind (descendNoStore_eq hn hch),
    run_bind (load_eq hq)]
  rfl

theorem visitLoop_inner {n' : SHAMapInnerNode} (hq : f.object q = some (.inner n')) :
    m.visitLoop (visitLeavesHelper function) (fuel + 1) r pos stack s f =
      m.visitLoop (visitLeavesHelper function) fuel q 0
        (if skipEmpty n pos ≠ 15 then (skipEmpty n pos + 1, r) :: stack else stack) s f := by
  simp only [visitLoop, dif_pos hlt]
  rw [run_bind (loadInner_eq hn), if_neg (by simp [hus]), run_bind (descendNoStore_eq hn hch),
    run_bind (load_eq hq)]
  rfl

end Steps

variable (function : SHAMapItem → σ → σ)

theorem visitLoop_run (h : Represents f P t r)
    (c : Fin 16 → Tree) (ht : t = .inner c) (stk : List (ℕ × NodeRef)) (pos : ℕ)
    (hp : pos ≤ 16) (s : σ) :
    ∃ steps, ∀ fuel x, m.visitLoop (visitLeavesHelper function) (steps + fuel + 1) r pos stk s f =
      m.visitLoop (visitLeavesHelper function) (fuel + 1) x 16 stk
        ((itemsFrom c pos).foldl (fun s a => function a s) s) f := by
  induction t generalizing r c stk pos s with
  | empty | leaf type item => cases ht
  | inner c' ih =>
    cases ht
    obtain ⟨n, hn, -, hsl⟩ := h
    -- within a node, the induction is on the positions that are left
    induction hlf : 16 - pos using Nat.strong_induction_on generalizing pos s with
    | _ left ihpos =>
      rcases Nat.lt_or_eq_of_le hp with hlt | rfl
      · rw [itemsFrom_of_lt _ hlt, foldl_append]
        cases he : n.isEmptyBranch ⟨pos, hlt⟩ with
        | true =>
          obtain ⟨steps, hst⟩ := ihpos (16 - (pos + 1)) (by omega) (pos + 1) hlt s rfl
          refine ⟨steps + 1, fun fuel x => ?_⟩
          rw [add_right_comm steps, visitLoop_empty function _ hlt hn stk s he,
            hst fuel x, items_eq_nil_of_isEmptyBranch hsl he]
          rfl
        | false =>
          obtain ⟨q, hch, hq⟩ := exists_child_of_used hsl he
          cases hci : c' ⟨pos, hlt⟩ with
          | empty =>
            rw [hci] at hq
            cases hq
          | leaf type item =>
            rw [hci] at hq
            obtain ⟨leaf, ho, -, rfl, -⟩ := hq
            obtain ⟨steps, hst⟩ := ihpos (16 - (pos + 1)) (by omega) (pos + 1) hlt
              (function leaf.mItem s) rfl
            refine ⟨steps + 1, fun fuel x => ?_⟩
            rw [add_right_comm steps, visitLoop_leaf function _ hlt hn stk s he hch ho, hst fuel x]
            rfl
          | inner c'' =>
            have hie := hq
            rw [hci] at hie
            obtain ⟨n', ho, -⟩ := hie
            obtain ⟨hge, hle⟩ := skipEmpty_le n hlt
            have hit : itemsFrom c'' 0 = (RadixTree.inner c'').items := rfl
            rw [itemsFrom_skipEmpty hsl, ← hit]
            by_cases hl : skipEmpty n pos = 15
            · obtain ⟨steps, hst⟩ := ih _ hq c'' hci stk 0 (zero_le _) s
              refine ⟨steps + 1, fun fuel x => ?_⟩
              rw [add_right_comm steps, visitLoop_inner function _ hlt hn stk s he hch ho,
                if_neg (not_not_intro hl), hst fuel x, hl,
                itemsFrom_of_ge _ (le_refl _)]
              rfl
            · obtain ⟨steps1, hsteps1⟩ := ih _ hq c'' hci
                ((skipEmpty n pos + 1, r) :: stk) 0 (zero_le _) s
              obtain ⟨steps2, hsteps2⟩ := ihpos (16 - (skipEmpty n pos + 1)) (by omega)
                (skipEmpty n pos + 1) (by omega)
                ((itemsFrom c'' 0).foldl (fun s a => function a s) s) rfl
              refine ⟨steps1 + steps2 + 2, fun fuel x => ?_⟩
              have hfu : steps1 + steps2 + 2 + fuel + 1 =
                  steps1 + (steps2 + fuel + 1) + 1 + 1 := by omega
              rw [hfu, visitLoop_inner function _ hlt hn stk s he hch ho,
                if_pos hl, hsteps1 (steps2 + fuel + 1) r, visitLoop_pop, hsteps2 fuel x]
      · refine ⟨0, fun fuel x => ?_⟩
        rw [zero_add, itemsFrom_of_ge _ (le_refl _), visitLoop_done _ _ r x]
        rfl

/-- With enough steps it hands over all items from left to right. -/
theorem visitLeaves_run (h : Represents f P (.inner c) m.root_) (s : σ) :
    ∃ steps, ∀ fuel, steps ≤ fuel → m.visitLeaves fuel function s f =
      .ok ((RadixTree.inner c).items.foldl (fun s a => function a s) s, f) := by
  obtain ⟨n, hn, -⟩ := id h
  obtain ⟨steps, hst⟩ := visitLoop_run (m := m) function h c rfl [] 0 (zero_le _) s
  refine ⟨steps + 1, fun fuel hfu => ?_⟩
  obtain ⟨rest, rfl⟩ := Nat.exists_eq_add_of_le hfu
  rw [visitLeaves, visitNodes, run_bind (load_eq hn)]
  dsimp only
  rw [if_pos (show (SHAMapAbstractNode.inner n).isInner from rfl), add_right_comm]
  refine (hst rest m.root_).trans ?_
  rfl

end SHAMap

end Sand
