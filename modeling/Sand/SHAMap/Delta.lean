import Sand.SHAMap.Sealing

/-!
# Comparing maps

Two maps are compared from their roots, and branches with the same hash are passed over.
-/

namespace Sand

open Family List SHAMapItem Tree

namespace SHAMapDelta

/-- The items of both maps, where there is one. -/
abbrev DeltaItem := Option SHAMapItem × Option SHAMapItem

abbrev Delta := OrderedMap UInt256 DeltaItem

/-- The differences found, and how many more may be. -/
structure Table where
  differences : Delta
  maxCount : ℤ

namespace Table

def insert (s : Table) (e : UInt256 × DeltaItem) : Table :=
  ⟨s.differences.insertNew e.1 e.2, s.maxCount - 1⟩

def insertAll : Table → List (UInt256 × DeltaItem) → Bool × Table
  | s, [] => (true, s)
  | s, e :: es => if (s.insert e).maxCount ≤ 0 then (false, s.insert e) else insertAll (s.insert e) es

theorem insertAll_single (s : Table) (e : UInt256 × DeltaItem) : s.insertAll [e] =
      if (s.insert e).maxCount ≤ 0 then (false, s.insert e) else (true, s.insert e) := rfl

theorem insertAll_append (s : Table) (es es' : List (UInt256 × DeltaItem)) :
    s.insertAll (es ++ es') =
      if (s.insertAll es).1 then (s.insertAll es).2.insertAll es' else s.insertAll es := by
  induction es generalizing s with
  | nil => rfl
  | cons e es ih =>
    rw [cons_append, insertAll, insertAll]
    split
    · rfl
    · exact ih _

variable {es : List (UInt256 × DeltaItem)}

theorem insertAll_of_lt {s : Table} (h : es.length < s.maxCount) :
    s.insertAll es = (true, ⟨es.foldl (fun m e => m.insertNew e.1 e.2) s.differences,
      s.maxCount - es.length⟩) := by
  induction es generalizing s with
  | nil => simp [insertAll]
  | cons e es ih =>
    rw [length_cons, Nat.cast_succ] at h
    have hmo : ¬(s.insert e).maxCount ≤ 0 := by
      change ¬s.maxCount - 1 ≤ 0
      omega
    rw [insertAll, if_neg hmo, ih (show (es.length : ℤ) < s.maxCount - 1 by omega)]
    simp only [insert, foldl_cons, length_cons, Nat.cast_succ]
    congr 2
    omega

theorem insertAll_of_le {s : Table} (hp : 0 < s.maxCount) (h : s.maxCount ≤ es.length) :
    s.insertAll es = (false, ⟨(es.take s.maxCount.toNat).foldl
      (fun m e => m.insertNew e.1 e.2) s.differences, 0⟩) := by
  induction es generalizing s with
  | nil =>
    simp only [length_nil, Nat.cast_zero] at h
    omega
  | cons e es ih =>
    rw [length_cons, Nat.cast_succ] at h
    obtain ⟨k, hk⟩ : ∃ k : ℕ, s.maxCount = k + 1 := ⟨(s.maxCount - 1).toNat, by omega⟩
    have ht : s.maxCount.toNat = k + 1 := by omega
    have hn : (s.insert e).maxCount = k := by
      change s.maxCount - 1 = k
      omega
    rw [insertAll, ht, take_succ_cons, foldl_cons]
    obtain rfl | h0 := eq_or_ne k 0
    · simp [insert, hk]
    · rw [if_neg (by omega), ih (by omega) (by omega), hn]
      rfl

end Table

/-! ### The code -/

def deltaRef (isFirstMap : Bool) (item otherItem : Option SHAMapItem) : DeltaItem :=
  if isFirstMap then (item, otherItem) else (otherItem, item)

section Model

variable [Sha512Half]

def children (m : SHAMap) (node : NodeRef) (inner : SHAMapInnerNode) : FamilyM (List NodeRef) :=
  ((finRange 16).filter fun i => !inner.isEmptyBranch i).mapM (descendThrow m.backed_ node)

def walkBranchLoop (m : SHAMap) (otherMapItem : Option SHAMapItem) (isFirstMap : Bool) :
    ℕ → List NodeRef → Bool → Table → FamilyM (Option Bool × Table)
  | 0, _, _, _ => throw .undefined
  | _ + 1, [], emptyBranch, s => return (some emptyBranch, s)
  | fuel + 1, node :: stack, emptyBranch, s => do
    match ← load node with
    | .inner inner =>
      let below ← children m node inner
      walkBranchLoop m otherMapItem isFirstMap fuel (below.reverse ++ stack) emptyBranch s
    | .leaf leaf =>
      let item := leaf.mItem
      match emptyBranch, otherMapItem with
      | false, some other =>
        if item.key ≠ other.key then
          let s := s.insert (item.key, deltaRef isFirstMap (some item) none)
          if s.maxCount ≤ 0 then return (none, s)
          else walkBranchLoop m otherMapItem isFirstMap fuel stack false s
        else if item.data ≠ other.data then
          let s := s.insert (item.key, deltaRef isFirstMap (some item) otherMapItem)
          if s.maxCount ≤ 0 then return (none, s)
          else walkBranchLoop m otherMapItem isFirstMap fuel stack true s
        else
          walkBranchLoop m otherMapItem isFirstMap fuel stack true s
      | _, _ =>
        let s := s.insert (item.key, deltaRef isFirstMap (some item) none)
        if s.maxCount ≤ 0 then return (none, s)
        else walkBranchLoop m otherMapItem isFirstMap fuel stack emptyBranch s

/-- Matched by an empty branch or a single item. -/
def walkBranch (m : SHAMap) (fuel : ℕ) (node : NodeRef) (otherMapItem : Option SHAMapItem)
    (isFirstMap : Bool) (s : Table) : FamilyM (Bool × Table) := do
  match ← walkBranchLoop m otherMapItem isFirstMap fuel [node] otherMapItem.isNone s with
  | (none, s) => return (false, s)
  | (some emptyBranch, s) =>
    match emptyBranch, otherMapItem with
    | false, some other =>
      let s := s.insert (other.key, deltaRef isFirstMap none otherMapItem)
      if s.maxCount ≤ 0 then return (false, s) else return (true, s)
    | _, _ => return (true, s)

/-- Pairs of branches both in use go on the stack. -/
def compareBranches (m otherMap : SHAMap) (fuel : ℕ) (ourNode otherNode : NodeRef) :
    List (Fin 16) → List (NodeRef × NodeRef) → Table →
      FamilyM (Option (List (NodeRef × NodeRef)) × Table)
  | [], stack, s => return (some stack, s)
  | i :: is, stack, s => do
    let ours ← loadInner ourNode
    let other ← loadInner otherNode
    if ours.mHashes i ≠ other.mHashes i then
      if other.isEmptyBranch i then
        let iNode ← descendThrow m.backed_ ourNode i
        let (more, s) ← walkBranch m fuel iNode none true s
        if more then compareBranches m otherMap fuel ourNode otherNode is stack s
        else return (none, s)
      else if ours.isEmptyBranch i then
        let iNode ← descendThrow otherMap.backed_ otherNode i
        let (more, s) ← walkBranch otherMap fuel iNode none false s
        if more then compareBranches m otherMap fuel ourNode otherNode is stack s
        else return (none, s)
      else
        let ourChild ← descendThrow m.backed_ ourNode i
        let otherChild ← descendThrow otherMap.backed_ otherNode i
        compareBranches m otherMap fuel ourNode otherNode is ((ourChild, otherChild) :: stack) s
    else compareBranches m otherMap fuel ourNode otherNode is stack s

def compareLoop (m otherMap : SHAMap) :
    ℕ → List (NodeRef × NodeRef) → Table → FamilyM (Bool × Table)
  | 0, _, _ => throw .undefined
  | _ + 1, [], s => return (true, s)
  | fuel + 1, (ourNode, otherNode) :: stack, s => do
    match ← load ourNode, ← load otherNode with
    | .leaf ours, .leaf other =>
      if ours.mItem.key = other.mItem.key then
        if ours.mItem.data ≠ other.mItem.data then
          let s := s.insert (ours.mItem.key, (some ours.mItem, some other.mItem))
          if s.maxCount ≤ 0 then return (false, s)
          else compareLoop m otherMap fuel stack s
        else compareLoop m otherMap fuel stack s
      else
        let s := s.insert (ours.mItem.key, (some ours.mItem, none))
        if s.maxCount ≤ 0 then return (false, s)
        else
          let s := s.insert (other.mItem.key, (none, some other.mItem))
          if s.maxCount ≤ 0 then return (false, s)
          else compareLoop m otherMap fuel stack s
    | .inner _, .leaf other =>
      let (more, s) ← walkBranch m fuel ourNode (some other.mItem) true s
      if more then compareLoop m otherMap fuel stack s else return (false, s)
    | .leaf ours, .inner _ =>
      let (more, s) ← walkBranch otherMap fuel otherNode (some ours.mItem) false s
      if more then compareLoop m otherMap fuel stack s else return (false, s)
    | .inner _, .inner _ =>
      match ← compareBranches m otherMap fuel ourNode otherNode (finRange 16) stack s with
      | (none, s) => return (false, s)
      | (some stack, s) => compareLoop m otherMap fuel stack s

end Model

/-! ### What is found -/

def unmatched (isFirstMap : Bool) (item : SHAMapItem) : UInt256 × DeltaItem :=
  (item.key, deltaRef isFirstMap (some item) none)

def entered (otherMapItem : Option SHAMapItem) (isFirstMap : Bool) :
    Bool → List SHAMapItem → List (UInt256 × DeltaItem)
  | _, [] => []
  | emptyBranch, item :: items =>
    match emptyBranch, otherMapItem with
    | false, some other =>
      if item.key ≠ other.key then
        unmatched isFirstMap item :: entered otherMapItem isFirstMap false items
      else if item.data ≠ other.data then
        (item.key, deltaRef isFirstMap (some item) otherMapItem) ::
          entered otherMapItem isFirstMap true items
      else entered otherMapItem isFirstMap true items
    | _, _ => unmatched isFirstMap item :: entered otherMapItem isFirstMap emptyBranch items

variable (otherMapItem : Option SHAMapItem)

def flagAfter (emptyBranch : Bool) (items : List SHAMapItem) :
    Bool :=
  emptyBranch || otherMapItem.any fun other => items.any fun item => item.key = other.key

/-- The item of the other map, if it was not found. -/
def leftOver (isFirstMap : Bool) (items : List SHAMapItem) :
    List (UInt256 × DeltaItem) :=
  if flagAfter otherMapItem otherMapItem.isNone items then []
  else otherMapItem.toList.map fun other => (other.key, deltaRef isFirstMap none (some other))

def branchEntries (isFirstMap : Bool) (items : List SHAMapItem) :
    List (UInt256 × DeltaItem) :=
  entered otherMapItem isFirstMap otherMapItem.isNone items ++
    leftOver otherMapItem isFirstMap items

variable {t t' : Tree} {S : Set HashedNode} {e : UInt256 × DeltaItem}

section Entered

variable {isFirstMap : Bool} {items : List SHAMapItem} {other : SHAMapItem}

theorem entered_true (omi : Option SHAMapItem) (its : List SHAMapItem) :
    entered omi isFirstMap true its = its.map (unmatched isFirstMap) := by
  induction its with
  | nil => rfl
  | cons item its ih =>
    rw [entered, ih, map_cons]
    nofun

theorem branchEntries_none :
    branchEntries none isFirstMap items = items.map (unmatched isFirstMap) := by
  rw [branchEntries, Option.isNone_none, entered_true]
  simp [leftOver, flagAfter]

theorem entered_absent (h : ∀ item ∈ items, item.key ≠ other.key) :
    entered (some other) isFirstMap false items = items.map (unmatched isFirstMap) := by
  induction items with
  | nil => rfl
  | cons item items ih =>
    rw [entered, if_pos (h item mem_cons_self), map_cons, ih fun x hx => h x (mem_cons_of_mem _ hx)]

theorem branchEntries_absent (h : ∀ item ∈ items, item.key ≠ other.key) :
    branchEntries (some other) isFirstMap items =
      items.map (unmatched isFirstMap) ++ [(other.key, deltaRef isFirstMap none (some other))] := by
  have hfl : flagAfter (some other) false items = false := by
    simpa [flagAfter] using h
  rw [branchEntries, Option.isNone_some, entered_absent h, leftOver, Option.isNone_some, hfl]
  rfl

theorem branchEntries_present {bef after : List SHAMapItem} {item : SHAMapItem}
    (hb : ∀ x ∈ bef, x.key ≠ other.key) (hke : item.key = other.key) :
    branchEntries (some other) isFirstMap (bef ++ item :: after) =
      bef.map (unmatched isFirstMap) ++ ((if item.data = other.data then [] else
          [(item.key, deltaRef isFirstMap (some item) (some other))]) ++
          after.map (unmatched isFirstMap)) := by
  have hfl : flagAfter (some other) false (bef ++ item :: after) := by
    simp [flagAfter, hke]
  rw [branchEntries, Option.isNone_some, leftOver, Option.isNone_some, if_pos hfl, append_nil]
  induction bef with
  | nil =>
    rw [nil_append, entered, if_neg (not_not_intro hke)]
    by_cases hd : item.data = other.data
    · rw [if_neg (not_not_intro hd), entered_true, if_pos hd]
      rfl
    · rw [if_pos hd, entered_true, if_neg hd]
      rfl
  | cons x bef ih =>
    rw [cons_append, entered, if_pos (hb x mem_cons_self), map_cons, cons_append]
    congr 1
    refine ih (fun y hy => hb y (mem_cons_of_mem _ hy)) ?_
    simp [flagAfter, hke]

def Differs (ours others : UInt256 → Option SHAMapItem) (e : UInt256 × DeltaItem) : Prop :=
  e.2.1 = ours e.1 ∧ e.2.2 = others e.1 ∧ e.2.1 ≠ e.2.2

/-- As seen from the map whose branch is walked. -/
def DiffersFrom (isFirstMap : Bool) (items others : UInt256 → Option SHAMapItem)
    (e : UInt256 × DeltaItem) : Prop :=
  if isFirstMap then Differs items others e else Differs others items e

theorem differsFrom_iff {its ots : UInt256 → Option SHAMapItem} : DiffersFrom isFirstMap its ots e ↔
      e = (e.1, deltaRef isFirstMap (its e.1) (ots e.1)) ∧ its e.1 ≠ ots e.1 := by
  obtain ⟨k, o, o'⟩ := e
  cases isFirstMap with
  | true =>
    simp only [DiffersFrom, Differs, deltaRef, if_true, Prod.mk.injEq, true_and]
    constructor
    · rintro ⟨rfl, rfl, hne⟩
      exact ⟨⟨rfl, rfl⟩, hne⟩
    · rintro ⟨⟨rfl, rfl⟩, hne⟩
      exact ⟨rfl, rfl, hne⟩
  | false =>
    simp only [DiffersFrom, Differs, deltaRef, Bool.false_eq_true, if_false, Prod.mk.injEq,
      true_and]
    constructor
    · rintro ⟨rfl, rfl, hne⟩
      exact ⟨⟨rfl, rfl⟩, Ne.symm hne⟩
    · rintro ⟨⟨rfl, rfl⟩, hne⟩
      exact ⟨rfl, rfl, Ne.symm hne⟩

/-- A list and the item it gives under each key. -/
def Lists (items : List SHAMapItem) (at_ : UInt256 → Option SHAMapItem) : Prop :=
  (items.map key).Nodup ∧ ∀ k x, at_ k = some x ↔ x ∈ items ∧ x.key = k

theorem mem_map_unmatched {l : List SHAMapItem} : e ∈ l.map (unmatched isFirstMap) ↔
      ∃ x ∈ l, x.key = e.1 ∧ e = (e.1, deltaRef isFirstMap (some x) none) := by
  rw [mem_map]
  constructor
  · rintro ⟨x, hx, rfl⟩
    exact ⟨x, hx, rfl, rfl⟩
  · rintro ⟨x, hx, hke, he⟩
    refine ⟨x, hx, ?_⟩
    rw [he, unmatched, hke]

variable {at_ : UInt256 → Option SHAMapItem}

theorem exists_item_iff (h : Lists items at_) (e : UInt256 × DeltaItem) :
    (∃ x ∈ items, x.key = e.1 ∧ e = (e.1, deltaRef isFirstMap (some x) none)) ↔
      e = (e.1, deltaRef isFirstMap (at_ e.1) none) ∧ at_ e.1 ≠ none := by
  constructor
  · rintro ⟨x, hx, hke, he⟩
    have hat : at_ e.1 = some x := (h.2 e.1 x).mpr ⟨hx, hke⟩
    rw [hat]
    exact ⟨he, nofun⟩
  · rintro ⟨he, hne⟩
    obtain ⟨x, hat⟩ := Option.ne_none_iff_exists'.mp hne
    obtain ⟨hx, hke⟩ := (h.2 e.1 x).mp hat
    rw [hat] at he
    exact ⟨x, hx, hke, he⟩

theorem mem_branchEntries_none (h : Lists items at_) (e : UInt256 × DeltaItem) :
    e ∈ branchEntries none isFirstMap items ↔ DiffersFrom isFirstMap at_ (fun _ => none) e := by
  rw [branchEntries_none, mem_map_unmatched, differsFrom_iff, exists_item_iff h]

theorem exists_split (h : (items.map key).Nodup) (hin : ∃ item ∈ items, item.key = other.key) :
    ∃ before item after, items = before ++ item :: after ∧ item.key = other.key ∧
      (∀ x ∈ before, x.key ≠ other.key) ∧ ∀ x ∈ after, x.key ≠ other.key := by
  obtain ⟨item, hit, hke⟩ := hin
  obtain ⟨before, after, rfl⟩ := append_of_mem hit
  rw [map_append, map_cons] at h
  refine ⟨before, item, after, rfl, hke, fun x hx heq => ?_, fun x hx heq => ?_⟩
  · refine disjoint_of_nodup_append h (mem_map_of_mem hx) ?_
    rw [heq, ← hke]
    exact mem_cons_self
  · refine (nodup_cons.mp h.of_append_right).1 ?_
    rw [hke, ← heq]
    exact mem_map_of_mem hx

theorem mem_branchEntries_some (h : Lists items at_) (e : UInt256 × DeltaItem) :
    e ∈ branchEntries (some other) isFirstMap items ↔
      DiffersFrom isFirstMap at_ (fun k => if other.key = k then some other else none) e := by
  rw [differsFrom_iff]
  by_cases hin : ∃ item ∈ items, item.key = other.key
  · obtain ⟨before, item, after, rfl, hke, hb, haf⟩ := exists_split h.1 hin
    rw [branchEntries_present hb hke, mem_append, mem_append, mem_map_unmatched, mem_map_unmatched]
    by_cases hk : other.key = e.1
    · have hat : at_ e.1 = some item := (h.2 e.1 item).mpr ⟨by simp, hke.trans hk⟩
      have hsa : item = other ↔ item.data = other.data := by
        refine ⟨congrArg _, fun hd => ?_⟩
        cases item
        cases other
        cases hke
        cases hd
        rfl
      rw [if_pos hk, hat, ne_eq, Option.some.injEq, hsa]
      constructor
      · rintro (⟨x, hx, hxk, -⟩ | hm | ⟨x, hx, hxk, -⟩)
        · exact absurd (hxk.trans hk.symm) (hb x hx)
        · split at hm
          · cases hm
          · next hd =>
              rw [mem_singleton, hke, hk] at hm
              exact ⟨hm, hd⟩
        · exact absurd (hxk.trans hk.symm) (haf x hx)
      · rintro ⟨he, hd⟩
        rw [if_neg hd, mem_singleton, hke, hk]
        exact .inr (.inl he)
    · rw [if_neg hk, ← exists_item_iff h]
      constructor
      · rintro (⟨x, hx, hrs⟩ | hm | ⟨x, hx, hrs⟩)
        · exact ⟨x, by simp [hx], hrs⟩
        · split at hm
          · cases hm
          · rw [mem_singleton] at hm
            exact absurd ((congrArg Prod.fst hm).trans hke).symm hk
        · exact ⟨x, by simp [hx], hrs⟩
      · rintro ⟨x, hx, hxk, he⟩
        rcases mem_append.mp hx with hx | hx
        · exact .inl ⟨x, hx, hxk, he⟩
        · rcases mem_cons.mp hx with rfl | hx
          · exact absurd (hke.symm.trans hxk) hk
          · exact .inr (.inr ⟨x, hx, hxk, he⟩)
  · have ha : ∀ item ∈ items, item.key ≠ other.key := fun item hit hke => hin ⟨item, hit, hke⟩
    rw [branchEntries_absent ha, mem_append, mem_map_unmatched, mem_singleton]
    by_cases hk : other.key = e.1
    · have hat : at_ e.1 = none := by
        rw [Option.eq_none_iff_forall_ne_some]
        intro x hx
        obtain ⟨hme, hxk⟩ := (h.2 e.1 x).mp hx
        exact ha x hme (hxk.trans hk.symm)
      rw [if_pos hk, hat, hk]
      constructor
      · rintro (⟨x, hx, hxk, -⟩ | he)
        · exact absurd (hxk.trans hk.symm) (ha x hx)
        · exact ⟨he, nofun⟩
      · rintro ⟨he, -⟩
        exact .inr he
    · rw [if_neg hk, ← exists_item_iff h]
      constructor
      · rintro (hx | he)
        · exact hx
        · exact absurd (congrArg Prod.fst he).symm hk
      · exact .inl

theorem map_fst_unmatched (l : List SHAMapItem) :
    (l.map (unmatched isFirstMap)).map Prod.fst = l.map key := by
  rw [map_map]
  rfl

theorem nodup_branchEntries (h : (items.map key).Nodup) (omi : Option SHAMapItem) :
    ((branchEntries omi isFirstMap items).map Prod.fst).Nodup := by
  cases omi with
  | none =>
    rw [branchEntries_none, map_fst_unmatched]
    exact h
  | some other =>
    by_cases hin : ∃ item ∈ items, item.key = other.key
    · obtain ⟨before, item, after, rfl, hke, hb, -⟩ := exists_split h hin
      rw [branchEntries_present hb hke, map_append, map_append, map_fst_unmatched,
        map_fst_unmatched]
      rw [map_append, map_cons] at h
      refine h.sublist (List.Sublist.append_left ?_ _)
      split
      · exact sublist_cons_self _ _
      · exact List.Sublist.refl _
    · have ha : ∀ item ∈ items, item.key ≠ other.key := fun item hit hke => hin ⟨item, hit, hke⟩
      rw [branchEntries_absent ha, map_append, map_fst_unmatched, map_singleton]
      refine nodup_append.mpr ⟨h, nodup_singleton _, fun k hk k' hk' => ?_⟩
      obtain ⟨x, hx, rfl⟩ := mem_map.mp hk
      rw [mem_singleton.mp hk']
      exact ha x hx

end Entered

/-! ### The differences of trees -/

section Differences

variable [Sha512Half]

def oneSided (t t' : Tree) : List (UInt256 × DeltaItem) :=
  if t.digest = t'.digest then []
  else if t'.isEmpty then branchEntries none true t.items.reverse
  else if t.isEmpty then branchEntries none false t'.items.reverse
  else []

def differences : Tree → Tree → List (UInt256 × DeltaItem)
  | .leaf _ item, .leaf _ other =>
    if item.key = other.key then
      if item.data ≠ other.data then [(item.key, (some item, some other))] else []
    else [(item.key, (some item, none)), (other.key, (none, some other))]
  | .inner c, .leaf _ other =>
    branchEntries (some other) true (RadixTree.inner c).items.reverse
  | .leaf _ item, .inner c' =>
    branchEntries (some item) false (RadixTree.inner c').items.reverse
  | .inner c, .inner c' =>
    (finRange 16).flatMap (fun i => oneSided (c i) (c' i)) ++
      (finRange 16).reverse.flatMap fun i =>
        if digest (c i) = digest (c' i) ∨ (c i).isEmpty ∨ (c' i).isEmpty then []
        else differences (c i) (c' i)
  | _, _ => []

variable {d : ℕ}

omit [Sha512Half] in
theorem lists_items (h : t.Placed d) : Lists t.items.reverse fun k => t.lookup k d := by
  constructor
  · rw [map_reverse, nodup_reverse]
    exact h.nodup_keys
  · intro k x
    rw [RadixTree.lookup_eq_some_iff h, mem_reverse]
    rfl

variable {c : Fin 16 → Tree}

theorem mem_oneSided (h : t.Placed d) (h' : t'.Placed d) (hdi : t.digest ≠ t'.digest)
    (hem : t.isEmpty ∨ t'.isEmpty) (e : UInt256 × DeltaItem) :
    e ∈ oneSided t t' ↔ Differs (fun k => t.lookup k d) (fun k => t'.lookup k d) e := by
  rw [oneSided, if_neg hdi]
  by_cases hot : t'.isEmpty
  · rw [if_pos hot, mem_branchEntries_none (lists_items h)]
    rw [RadixTree.isEmpty_iff.mp hot]
    exact Iff.rfl
  · have hours := hem.resolve_right hot
    rw [if_neg hot, if_pos hours, mem_branchEntries_none (lists_items h')]
    rw [RadixTree.isEmpty_iff.mp hours]
    exact Iff.rfl

theorem differences_leaf (type type' : TNType) (item oth : SHAMapItem) :
    differences (.leaf type item) (.leaf type' oth) =
      branchEntries (some oth) true (RadixTree.leaf type item : Tree).items.reverse := by
  by_cases hke : item.key = oth.key
  · refine Eq.trans ?_ (branchEntries_present (forall_mem_nil _) hke).symm
    by_cases hd : item.data = oth.data
    · simp [differences, hke, hd]
    · simp [differences, hke, hd, deltaRef]
  · refine Eq.trans ?_ (branchEntries_absent (fun x hx => ?_)).symm
    · simp [differences, hke, unmatched, deltaRef]
    · rw [mem_singleton.mp (mem_reverse.mp hx)]
      exact hke

def branchDifferences (t t' : Tree) : List (UInt256 × DeltaItem) :=
  oneSided t t' ++ if t.digest = t'.digest ∨ t.isEmpty ∨ t'.isEmpty then [] else differences t t'

theorem differences_inner_perm (c c' : Fin 16 → Tree) : (differences (.inner c) (.inner c')).Perm
      ((finRange 16).flatMap fun i => branchDifferences (c i) (c' i)) := by
  refine List.Perm.trans ?_ (flatMap_append_perm _ _ _)
  exact ((reverse_perm _).flatMap_right _).append_left _

variable {c' : Fin 16 → Tree}

section

omit [Sha512Half]

theorem Differs.digit_eq {i : Fin 16} (h : (RadixTree.inner c).Placed d)
    (h' : (RadixTree.inner c').Placed d)
    (hdf : Differs (fun k => (c i).lookup k (d + 1)) (fun k => (c' i).lookup k (d + 1)) e) :
    RadixTree.digit d e.1 = i := by
  obtain ⟨hours, hoh, hne⟩ := hdf
  cases ho : e.2.1 with
  | some x =>
    rw [ho] at hours
    obtain ⟨hx, hke⟩ := (RadixTree.lookup_eq_some_iff (h.2 i).2).mp hours.symm
    rw [← hke]
    exact (h.2 i).1 x hx
  | none =>
    rw [ho] at hne
    obtain ⟨x, hx⟩ := Option.ne_none_iff_exists'.mp (Ne.symm hne)
    rw [hx] at hoh
    obtain ⟨hme, hke⟩ := (RadixTree.lookup_eq_some_iff (h'.2 i).2).mp hoh.symm
    rw [← hke]
    exact (h'.2 i).1 x hme

theorem differs_inner_iff : Differs (fun k => (RadixTree.inner c).lookup k d)
        (fun k => (RadixTree.inner c').lookup k d) e ↔
      Differs (fun k => (c (RadixTree.digit d e.1)).lookup k (d + 1))
        (fun k => (c' (RadixTree.digit d e.1)).lookup k (d + 1)) e := by
  simp [Differs, RadixTree.lookup]

end

structure Comparable (S : Set HashedNode) (d : ℕ) (t : Tree) : Prop where
  placed : t.Placed d
  nodes : t.nodes ⊆ S
  solid : ∀ c, t = .inner c → ∀ i, Tree.Solid (c i)

theorem Comparable.child (h : Comparable S d (.inner c)) (i : Fin 16) :
    Comparable S (d + 1) (c i) where
  placed := (h.placed.2 i).2
  nodes x hx := h.nodes (.inr ⟨i, hx⟩)
  solid c' hc' j := by
    have hs := h.solid c rfl i
    rw [hc'] at hs
    exact hs.2 j

theorem mem_branchDifferences (hf : HashedNode.CollisionFree S) (h : Comparable S d t)
    (h' : Comparable S d t') (hs : t.Solid) (hs' : t'.Solid)
    (hr : t ≠ .empty → t' ≠ .empty → (e ∈ differences t t' ↔
      Differs (fun k => t.lookup k d) (fun k => t'.lookup k d) e)) :
    e ∈ branchDifferences t t' ↔ Differs (fun k => t.lookup k d) (fun k => t'.lookup k d) e := by
  rw [branchDifferences]
  by_cases hdi : t.digest = t'.digest
  · have heq := eq_of_digest hf h.nodes h'.nodes hs hs' hdi
    subst heq
    simp only [oneSided, true_or, if_true, append_nil, not_mem_nil, false_iff]
    rintro ⟨hours, hoh, hne⟩
    exact hne (hours.trans hoh.symm)
  · by_cases hem : t.isEmpty ∨ t'.isEmpty
    · rw [if_pos (.inr hem), append_nil]
      exact mem_oneSided h.placed h'.placed hdi hem e
    have hon : oneSided t t' = [] := by
      obtain ⟨hours, hoh⟩ := not_or.mp hem
      rw [oneSided, if_neg hdi, if_neg hoh, if_neg hours]
    rw [hon, nil_append, if_neg (not_or.mpr ⟨hdi, hem⟩)]
    rw [RadixTree.isEmpty_iff, RadixTree.isEmpty_iff, not_or] at hem
    exact hr hem.1 hem.2

theorem nodup_branchDifferences (h : Comparable S d t) (h' : Comparable S d t')
    (hr : ((differences t t').map Prod.fst).Nodup) :
    ((branchDifferences t t').map Prod.fst).Nodup := by
  rw [branchDifferences, oneSided]
  by_cases hdi : t.digest = t'.digest
  · rw [if_pos hdi, if_pos (.inl hdi)]
    exact nodup_nil
  rw [if_neg hdi]
  by_cases hot : t'.isEmpty
  · rw [if_pos hot, if_pos (.inr (.inr hot)), append_nil]
    exact nodup_branchEntries (lists_items h.placed).1 _
  rw [if_neg hot]
  by_cases hours : t.isEmpty
  · rw [if_pos hours, if_pos (.inr (.inl hours)), append_nil]
    exact nodup_branchEntries (lists_items h'.placed).1 _
  · rw [if_neg hours, if_neg (by simp [hdi, hot, hours]), nil_append]
    exact hr

theorem mem_differences (hf : HashedNode.CollisionFree S) (h : Comparable S d t)
    (h' : Comparable S d t') (hne : t ≠ .empty) (hne' : t' ≠ .empty) (e : UInt256 × DeltaItem) :
    e ∈ differences t t' ↔ Differs (fun k => t.lookup k d) (fun k => t'.lookup k d) e := by
  induction t generalizing t' d with
  | empty => exact absurd rfl hne
  | leaf type item =>
    cases t' with
    | empty => exact absurd rfl hne'
    | leaf type' other =>
      rw [differences_leaf, mem_branchEntries_some (lists_items h.placed)]
      exact Iff.rfl
    | inner c' =>
      rw [differences, mem_branchEntries_some (lists_items h'.placed)]
      exact Iff.rfl
  | inner c ih =>
    cases t' with
    | empty => exact absurd rfl hne'
    | leaf type' other =>
      rw [differences, mem_branchEntries_some (lists_items h.placed)]
      exact Iff.rfl
    | inner c' =>
      have hbr : ∀ i, e ∈ branchDifferences (c i) (c' i) ↔
          Differs (fun k => (c i).lookup k (d + 1)) (fun k => (c' i).lookup k (d + 1)) e :=
        fun i => mem_branchDifferences hf (h.child i) (h'.child i) (h.solid c rfl i)
          (h'.solid c' rfl i) (ih i (h.child i) (h'.child i))
      rw [(differences_inner_perm c c').mem_iff, mem_flatMap, differs_inner_iff, ← hbr]
      constructor
      · rintro ⟨i, -, hi⟩
        rw [((hbr i).mp hi).digit_eq h.placed h'.placed]
        exact hi
      · intro hi
        exact ⟨_, mem_finRange _, hi⟩

theorem nodup_differences (hf : HashedNode.CollisionFree S) (h : Comparable S d t)
    (h' : Comparable S d t') : ((differences t t').map Prod.fst).Nodup := by
  induction t generalizing t' d with
  | empty => simp [differences]
  | leaf type item =>
    cases t' with
    | empty => simp [differences]
    | leaf type' other =>
      rw [differences_leaf]
      exact nodup_branchEntries (lists_items h.placed).1 _
    | inner c' =>
      exact nodup_branchEntries (lists_items h'.placed).1 _
  | inner c ih =>
    cases t' with
    | empty => simp [differences]
    | leaf type' other =>
      exact nodup_branchEntries (lists_items h.placed).1 _
    | inner c' =>
      have hdg : ∀ i k, k ∈ (branchDifferences (c i) (c' i)).map Prod.fst →
          RadixTree.digit d k = i := by
        intro i k hk
        obtain ⟨e, he, rfl⟩ := mem_map.mp hk
        refine ((mem_branchDifferences hf (h.child i) (h'.child i) (h.solid c rfl i)
          (h'.solid c' rfl i) ?_).mp he).digit_eq h.placed h'.placed
        exact fun hne hne' => mem_differences hf (h.child i) (h'.child i) hne hne' e
      refine ((differences_inner_perm c c').map Prod.fst).nodup_iff.mpr ?_
      rw [map_flatMap]
      refine nodup_flatMap.mpr ⟨fun i _ => ?_, ?_⟩
      · exact nodup_branchDifferences (h.child i) (h'.child i) (ih i (h.child i) (h'.child i))
      · refine (nodup_finRange 16).imp fun {i j} hij k hk hk' => hij ?_
        rw [← hdg i k hk, hdg j k hk']

theorem comparable_of_rooted (h : t.Rooted) (hns : t.nodes ⊆ S) : Comparable S 0 t := by
  obtain ⟨hpl, c, rfl, hde⟩ := h
  refine ⟨hpl, hns, ?_⟩
  rintro _ ⟨⟩ i
  exact solid_of_dense (hde i)

end Differences

/-! ### The result -/

/-- Complete, or with as many as are allowed. -/
structure Right (maxCount : ℤ) (ours others : UInt256 → Option SHAMapItem)
    (result : Bool × Delta) : Prop where
  complete : result.1 → ∀ e, e ∈ result.2.entries ↔ Differs ours others e
  limited : result.1 = false → (result.2.entries.length : ℤ) = maxCount ∧
    ∀ e ∈ result.2.entries, Differs ours others e
  enough : ∀ keys : Finset UInt256, (∀ k, k ∈ keys ↔ ours k ≠ others k) →
    (keys.card : ℤ) < maxCount → result.1

theorem right_of_differences {maxc : ℤ} (hp : 0 < maxc)
    {ours ots : UInt256 → Option SHAMapItem} {es : List (UInt256 × DeltaItem)}
    (hme : ∀ e, e ∈ es ↔ Differs ours ots e) (hnd : (es.map Prod.fst).Nodup) :
    Right maxc ours ots ((Table.insertAll ⟨.empty, maxc⟩ es).1,
      (Table.insertAll ⟨.empty, maxc⟩ es).2.differences) := by
  by_cases hlt : (es.length : ℤ) < maxc
  · rw [Table.insertAll_of_lt (s := ⟨.empty, maxc⟩) hlt]
    refine ⟨fun _ e => ?_, nofun, fun _ _ _ => rfl⟩
    exact (OrderedMap.perm_ofList hnd).mem_iff.trans (hme e)
  rw [Table.insertAll_of_le (s := ⟨.empty, maxc⟩) hp (not_lt.mp hlt)]
  have ht : ((es.take maxc.toNat).map Prod.fst).Nodup := hnd.sublist ((take_sublist _ _).map _)
  have hpe := OrderedMap.perm_ofList ht
  refine ⟨nofun, fun _ => ⟨?_, fun e he => ?_⟩, fun keys hks hca => ?_⟩
  · change ((OrderedMap.ofList (es.take maxc.toNat)).entries.length : ℤ) = maxc
    rw [hpe.length_eq, length_take]
    omega
  · exact (hme e).mp (mem_of_mem_take (hpe.mem_iff.mp he))
  · have hsa : keys = (es.map Prod.fst).toFinset := by
      ext k
      rw [hks, mem_toFinset, mem_map]
      constructor
      · intro hne
        exact ⟨(k, ours k, ots k), (hme _).mpr ⟨rfl, rfl, hne⟩, rfl⟩
      · rintro ⟨e, he, rfl⟩
        obtain ⟨hours, hoh, hne⟩ := (hme e).mp he
        rw [← hours, ← hoh]
        exact hne
    rw [hsa, toFinset_card_of_nodup hnd, length_map] at hca
    exact absurd hca hlt

section Trees

variable [Sha512Half] (hf : HashedNode.CollisionFree S) (hrt : t.Rooted) (hrt' : t'.Rooted)
  (hns : t.nodes ⊆ S) (hns' : t'.nodes ⊆ S)
include hf hrt hrt' hns hns'

theorem lookup_of_digest (hsa : t.digest = t'.digest) (k : UInt256) :
    t.lookup k 0 = t'.lookup k 0 := by
  have his := items_of_digest ⟨hf.1.mono (Set.union_subset hns hns'),
    fun x hx => hf.2 x (Set.union_subset hns hns' hx)⟩ hsa
  ext x
  rw [RadixTree.lookup_eq_some_iff hrt.placed, RadixTree.lookup_eq_some_iff hrt'.placed, his]

theorem right_of_digest (hsa : t.digest = t'.digest) (maxc : ℤ) :
    Right maxc (fun k => t.lookup k 0) (fun k => t'.lookup k 0) (true, .empty) := by
  refine ⟨fun _ e => ?_, nofun, fun _ _ _ => rfl⟩
  refine iff_of_false not_mem_nil ?_
  rintro ⟨hours, hoh, hne⟩
  exact hne ((hours.trans (lookup_of_digest hf hrt hrt' hns hns' hsa e.1)).trans hoh.symm)

theorem right_of_trees {maxc : ℤ} (hp : 0 < maxc) :
    Right maxc (fun k => t.lookup k 0) (fun k => t'.lookup k 0)
      ((Table.insertAll ⟨.empty, maxc⟩ (differences t t')).1,
        (Table.insertAll ⟨.empty, maxc⟩ (differences t t')).2.differences) := by
  obtain ⟨c, hc, -⟩ := hrt.root
  obtain ⟨c', hc', -⟩ := hrt'.root
  have h := comparable_of_rooted hrt hns
  have h' := comparable_of_rooted hrt' hns'
  refine right_of_differences hp (fun e => ?_) (nodup_differences hf h h')
  exact mem_differences hf h h' (hc ▸ nofun) (hc' ▸ nofun) e

end Trees

end SHAMapDelta

end Sand
