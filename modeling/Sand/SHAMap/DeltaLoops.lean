import Sand.SHAMap.Delta

/-!
# The loops of the comparison

The stacks of `walkBranch` and `compare` are gone through, or until there are too many
differences.
-/

namespace Sand

open Family List RadixTree

namespace SHAMapDelta

/-- The value of a loop that is given enough steps. -/
def Eventually {β : Type} (x : ℕ → β) (out : β) : Prop := ∃ steps, ∀ fuel, steps ≤ fuel → x fuel = out

variable {β : Type} {y : ℕ → β} {out : β}

theorem Eventually.of_const (h : ∀ fuel, y (fuel + 1) = out) : Eventually y out := by
  refine ⟨1, fun fuel hf => ?_⟩
  obtain ⟨rest, rfl⟩ := (@Nat.exists_eq_add_one fuel).mpr (by omega)
  exact h rest

variable {x : ℕ → β}

theorem Eventually.of_succ (h : Eventually x out)
    (hst : ∀ fuel, y (fuel + 1) = x fuel) : Eventually y out := by
  obtain ⟨steps, hse⟩ := h
  refine ⟨steps + 1, fun fuel hf => ?_⟩
  obtain ⟨rest, rfl⟩ := (@Nat.exists_eq_add_one fuel).mpr (by omega)
  rw [hst]
  exact hse rest (by omega)

theorem Eventually.bind_walk {f : Family} {walk : ℕ → FamilyM (Bool × Table)}
    (rest : ℕ → Table → FamilyM β) (stop : Table → β) {wk : Bool × Table}
    {out : Except SHAMapError (β × Family)}
    (hwa : Eventually (fun fuel => walk fuel f) (.ok (wk, f)))
    (hou : if wk.1 then Eventually (fun fuel => rest fuel wk.2 f) out
      else out = .ok (stop wk.2, f)) :
    Eventually (fun fuel => (do
      let (more, s) ← walk fuel
      if more then rest fuel s else return stop s) f) out := by
  obtain ⟨steps, hse⟩ := hwa
  by_cases hm : wk.1
  · rw [if_pos hm] at hou
    obtain ⟨steps', hse'⟩ := hou
    refine ⟨max steps steps', fun fuel hf => ?_⟩
    have run : walk fuel f = .ok (wk, f) := hse fuel (by omega)
    refine (run_bind run).trans ?_
    dsimp only
    rw [if_pos hm]
    exact hse' fuel (by omega)
  · rw [if_neg hm] at hou
    refine ⟨steps, fun fuel hf => ?_⟩
    have run : walk fuel f = .ok (wk, f) := hse fuel hf
    refine (run_bind run).trans ?_
    dsimp only
    rw [if_neg hm, hou]
    rfl

theorem Eventually.congr (h : Eventually x out) (heq : ∀ fuel, y fuel = x fuel) :
    Eventually y out := by
  obtain ⟨steps, hse⟩ := h
  exact ⟨steps, fun fuel hf => (heq fuel).trans (hse fuel hf)⟩

section Walk

variable {items items' : List SHAMapItem} {otherMapItem : Option SHAMapItem} {isFirstMap : Bool}

variable (emptyBranch : Bool)

theorem flagAfter_append (items items' : List SHAMapItem) :
    flagAfter otherMapItem emptyBranch (items ++ items') =
      flagAfter otherMapItem (flagAfter otherMapItem emptyBranch items) items' := by
  cases otherMapItem <;> simp [flagAfter, Bool.or_assoc]

theorem flagAfter_cons (item : SHAMapItem) (items : List SHAMapItem) :
    flagAfter otherMapItem emptyBranch (item :: items) =
      flagAfter otherMapItem (flagAfter otherMapItem emptyBranch [item]) items :=
  flagAfter_append emptyBranch [item] items

theorem entered_cons (item : SHAMapItem) (items : List SHAMapItem) :
    entered otherMapItem isFirstMap emptyBranch (item :: items) =
      entered otherMapItem isFirstMap emptyBranch [item] ++
        entered otherMapItem isFirstMap (flagAfter otherMapItem emptyBranch [item]) items := by
  cases emptyBranch with
  | true =>
    have hfl : flagAfter otherMapItem true [item] := rfl
    rfl
  | false =>
    cases otherMapItem with
    | none => simp [entered, flagAfter]
    | some other =>
      by_cases hk : item.key = other.key
      · by_cases hda : item.data = other.data
        · simp [entered, flagAfter, hk, hda]
        · simp [entered, flagAfter, hk, hda]
      · simp [entered, flagAfter, hk]

theorem entered_append : entered otherMapItem isFirstMap emptyBranch (items ++ items') =
      entered otherMapItem isFirstMap emptyBranch items ++
        entered otherMapItem isFirstMap (flagAfter otherMapItem emptyBranch items) items' := by
  induction items generalizing emptyBranch with
  | nil => cases otherMapItem <;> simp [entered, flagAfter]
  | cons item items ih =>
    rw [cons_append, entered_cons, ih, entered_cons emptyBranch item items,
      flagAfter_cons emptyBranch item items, append_assoc]

variable [Sha512Half] {m : SHAMap} {f : Family} {P : TreeProp} {t : Tree} {r : NodeRef}

/-- Walking the top of the stack enters what its items give. -/
def Walks (m : SHAMap) (otherMapItem : Option SHAMapItem) (isFirstMap : Bool) (f : Family)
    (top : List NodeRef) (items : List SHAMapItem) : Prop :=
  ∀ emptyBranch s stack out,
    (if (s.insertAll (entered otherMapItem isFirstMap emptyBranch items)).1 then
      Eventually (fun fuel => walkBranchLoop m otherMapItem isFirstMap fuel stack
        (flagAfter otherMapItem emptyBranch items)
        (s.insertAll (entered otherMapItem isFirstMap emptyBranch items)).2 f) out
    else out = .ok ((none, (s.insertAll (entered otherMapItem isFirstMap emptyBranch items)).2), f)) →
    Eventually (fun fuel => walkBranchLoop m otherMapItem isFirstMap fuel (top ++ stack)
      emptyBranch s f) out

theorem Walks.nil : Walks m otherMapItem isFirstMap f [] [] := by
  intro emptyBranch s stack out h
  have hfl : flagAfter otherMapItem emptyBranch [] = emptyBranch := by
    cases otherMapItem <;> simp [flagAfter]
  simpa [entered, Table.insertAll, hfl] using h

theorem Walks.append {top top' : List NodeRef} (h : Walks m otherMapItem isFirstMap f top items)
    (h' : Walks m otherMapItem isFirstMap f top' items') :
    Walks m otherMapItem isFirstMap f (top ++ top') (items ++ items') := by
  intro emptyBranch s stack out hou
  rw [entered_append, Table.insertAll_append, flagAfter_append] at hou
  rw [append_assoc]
  refine h emptyBranch s (top' ++ stack) out ?_
  split
  · next hm =>
      rw [if_pos hm] at hou
      exact h' _ _ stack out hou
  · next hso =>
      rw [if_neg hso, if_neg hso] at hou
      exact hou

theorem Walks.leaf {leaf : SHAMapTreeNode} (hr : f.object r = some (.leaf leaf)) :
    Walks m otherMapItem isFirstMap f [r] [leaf.mItem] := by
  intro emptyBranch s stack out hou
  have hst : ∀ fuel, walkBranchLoop m otherMapItem isFirstMap (fuel + 1) ([r] ++ stack)
      emptyBranch s f =
        if (s.insertAll (entered otherMapItem isFirstMap emptyBranch [leaf.mItem])).1 then
          walkBranchLoop m otherMapItem isFirstMap fuel stack
            (flagAfter otherMapItem emptyBranch [leaf.mItem])
            (s.insertAll (entered otherMapItem isFirstMap emptyBranch [leaf.mItem])).2 f
        else .ok ((none,
          (s.insertAll (entered otherMapItem isFirstMap emptyBranch [leaf.mItem])).2), f) := by
    intro fuel
    rw [singleton_append, walkBranchLoop, run_bind (load_eq hr)]
    -- one entry, after which there may be too many
    have hon : ∀ (e : UInt256 × DeltaItem) (flag : Bool),
        (if (s.insert e).maxCount ≤ 0 then (return (none, s.insert e) : FamilyM (Option Bool × Table))
          else walkBranchLoop m otherMapItem isFirstMap fuel stack flag (s.insert e)) f =
        if (s.insertAll [e]).1 then
          walkBranchLoop m otherMapItem isFirstMap fuel stack flag (s.insertAll [e]).2 f
        else .ok ((none, (s.insertAll [e]).2), f) := by
      intro e flag
      rw [Table.insertAll_single]
      by_cases hc : (s.insert e).maxCount ≤ 0
      · simp only [if_pos hc]
        rfl
      · simp [if_neg hc]
    cases emptyBranch with
    | true =>
      exact hon _ true
    | false =>
      cases otherMapItem with
      | none => exact hon _ false
      | some other =>
        by_cases hk : leaf.mItem.key = other.key
        · have hfl : flagAfter (some other) false [leaf.mItem] := by
            simp [flagAfter, hk]
          rw [hfl]
          by_cases hda : leaf.mItem.data = other.data
          · simp [entered, hk, hda, ne_eq, not_true_eq_false, Table.insertAll]
          · simp only [entered, hk, hda, ne_eq, not_true_eq_false, not_false_eq_true,
              if_false, if_true]
            exact hon _ true
        · have hfl : flagAfter (some other) false [leaf.mItem] = false := by
            simp [flagAfter, hk]
          rw [hfl]
          simp only [entered, hk, ne_eq, not_false_eq_true, if_true]
          exact hon _ false
  by_cases hm : (s.insertAll (entered otherMapItem isFirstMap emptyBranch [leaf.mItem])).1
  · rw [if_pos hm] at hou
    refine hou.of_succ fun fuel => ?_
    rw [hst, if_pos hm]
  · rw [if_neg hm] at hou
    refine .of_const fun fuel => ?_
    rw [hst, if_neg hm, hou]

def childOf (n : SHAMapInnerNode) (i : Fin 16) : NodeRef := (n.mChildren i).getD 0

variable {n : SHAMapInnerNode} {c : Fin 16 → Tree} {i : Fin 16}

omit [Sha512Half] in
theorem childOf_of_slot (h : Slot f P (c i) (n.mChildren i)) (hi : (c i).isEmpty = false) :
    n.mChildren i = some (childOf n i) ∧ Represents f P (c i) (childOf n i) := by
  obtain ⟨q, hq⟩ := Option.isSome_iff_exists.mp (h.isSome_iff.trans (by rw [hi]; rfl))
  have hch : childOf n i = q := by
    rw [childOf, hq]
    rfl
  rw [hch]
  exact ⟨hq, h.child hq⟩

theorem descendThrow_child (backed : Bool) (hn : f.object r = some (.inner n))
    (hi : (n.mChildren i).isSome) : descendThrow backed r i f = .ok (childOf n i, f) := by
  obtain ⟨q, hq⟩ := Option.isSome_iff_exists.mp hi
  rw [descendThrow_eq backed hn hq, childOf, hq]
  rfl

theorem mapM_descendThrow (backed : Bool) (hn : f.object r = some (.inner n))
    (brs : List (Fin 16)) (h : ∀ i ∈ brs, (n.mChildren i).isSome) :
    brs.mapM (descendThrow backed r) f = .ok (brs.map (childOf n), f) := by
  induction brs with
  | nil => rfl
  | cons i brs ih =>
    rw [mapM_cons, run_bind (descendThrow_child backed hn (h i mem_cons_self)),
      run_bind (ih fun j hj => h j (mem_cons_of_mem _ hj))]
    rfl

theorem walks_branches (hsl : Slots f P c n) (hw : ∀ i q, Represents f P (c i) q →
      Walks m otherMapItem isFirstMap f [q] (c i).items.reverse) (brs : List (Fin 16)) :
    Walks m otherMapItem isFirstMap f ((brs.filter fun i => !n.isEmptyBranch i).map (childOf n))
      (brs.flatMap fun i => (c i).items.reverse) := by
  induction brs with
  | nil => exact .nil
  | cons i brs ih =>
    rw [filter_cons, flatMap_cons]
    have hbi := hsl.isEmptyBranch_eq i
    cases he : (c i).isEmpty with
    | true =>
      rw [if_neg (by simp [hbi, he]), isEmpty_iff.mp he]
      exact ih
    | false =>
      rw [if_pos (by simp [hbi, he]), map_cons]
      exact (hw i _ (childOf_of_slot (hsl i).2 he).2).append ih

theorem walks_tree (h : Represents f P t r) :
    Walks m otherMapItem isFirstMap f [r] t.items.reverse := by
  induction t generalizing r with
  | empty => cases h
  | leaf type item =>
    obtain ⟨leaf, hr, -, rfl, -⟩ := h
    exact .leaf hr
  | inner c ih =>
    obtain ⟨n, hn, -⟩ := id h
    have hsl := h.slots hn
    have hb : Walks m otherMapItem isFirstMap f
        (((finRange 16).reverse.filter fun i => !n.isEmptyBranch i).map (childOf n))
        ((finRange 16).reverse.flatMap fun i => (c i).items.reverse) :=
      walks_branches hsl (fun i q hq => ih i hq) _
    have run : children m r n f = .ok (((finRange 16).filter
        fun i => !n.isEmptyBranch i).map (childOf n), f) := by
      refine mapM_descendThrow _ hn _ fun i hi => ?_
      rw [← (hsl i).1]
      simpa [SHAMapInnerNode.isEmptyBranch] using (mem_filter.mp hi).2
    intro emptyBranch s stack out hou
    rw [items, reverse_flatMap] at hou
    refine (hb emptyBranch s stack out hou).of_succ fun fuel => ?_
    rw [singleton_append, walkBranchLoop, run_bind (load_eq hn)]
    dsimp only
    rw [run_bind run, filter_reverse, map_reverse]

theorem walkBranch_run (m : SHAMap) (omi : Option SHAMapItem) (fm : Bool)
    (h : Represents f P t r) (s : Table) :
    Eventually (fun fuel => walkBranch m fuel r omi fm s f)
      (.ok (s.insertAll (branchEntries omi fm t.items.reverse), f)) := by
  have hw : Walks m omi fm f [r] t.items.reverse := walks_tree h
  rw [branchEntries, Table.insertAll_append]
  by_cases hm : (s.insertAll (entered omi fm omi.isNone t.items.reverse)).1
  · rw [if_pos hm]
    obtain ⟨steps, hse⟩ := hw omi.isNone s [] (.ok ((some (flagAfter omi
      omi.isNone t.items.reverse), (s.insertAll (entered omi fm
        omi.isNone t.items.reverse)).2), f)) (by
      rw [if_pos hm]
      exact .of_const fun _ => rfl)
    refine ⟨steps, fun fuel hf => ?_⟩
    have run : walkBranchLoop m omi fm fuel [r] omi.isNone s f = _ := hse fuel hf
    change walkBranch m fuel r omi fm s f = _
    rw [walkBranch, run_bind run, leftOver]
    cases hfl : flagAfter omi omi.isNone t.items.reverse with
    | true => rfl
    | false =>
      cases omi with
      | none => simp [flagAfter] at hfl
      | some other =>
        rw [if_neg Bool.false_ne_true, Option.toList_some, map_singleton, Table.insertAll_single]
        dsimp only
        split
        · rfl
        · rfl
  · rw [if_neg hm]
    obtain ⟨steps, hse⟩ := hw omi.isNone s [] (.ok ((none, (s.insertAll (entered
      omi fm omi.isNone t.items.reverse)).2), f)) (by rw [if_neg hm])
    refine ⟨steps, fun fuel hf => ?_⟩
    have run : walkBranchLoop m omi fm fuel [r] omi.isNone s f = _ := hse fuel hf
    change walkBranch m fuel r omi fm s f = _
    rw [walkBranch, run_bind run]
    have hfa := Bool.eq_false_iff.mpr hm
    exact congrArg (fun b => Except.ok ((b, _), f)) hfa.symm

end Walk

/-! ### Pairs of trees -/

section Compare

variable [Sha512Half] {m otherMap : SHAMap} {f : Family} {t t' : Tree} {r r' : NodeRef}
  {c c' : Fin 16 → Tree} {n n' : SHAMapInnerNode}

/-- Comparing the top of the stack enters the differences. -/
def Compares (m otherMap : SHAMap) (f : Family) (top : List (NodeRef × NodeRef))
    (es : List (UInt256 × DeltaItem)) : Prop :=
  ∀ s stack out, (if (s.insertAll es).1 then
      Eventually (fun fuel => compareLoop m otherMap fuel stack (s.insertAll es).2 f) out
    else out = .ok (s.insertAll es, f)) →
    Eventually (fun fuel => compareLoop m otherMap fuel (top ++ stack) s f) out

theorem Compares.nil : Compares m otherMap f [] [] := by
  intro s stack out h
  simpa [Table.insertAll] using h

variable {es : List (UInt256 × DeltaItem)}

theorem Compares.append {top top' : List (NodeRef × NodeRef)} {es' : List (UInt256 × DeltaItem)}
    (h : Compares m otherMap f top es) (h' : Compares m otherMap f top' es') :
    Compares m otherMap f (top ++ top') (es ++ es') := by
  intro s stack out hou
  rw [Table.insertAll_append] at hou
  rw [append_assoc]
  refine h s (top' ++ stack) out ?_
  split
  · next hm =>
      rw [if_pos hm] at hou
      exact h' _ stack out hou
  · next hso =>
      rw [if_neg hso, if_neg hso] at hou
      exact hou

variable {a b : NodeRef}

theorem Compares.of_step
    (hst : ∀ fuel stack s, compareLoop m otherMap (fuel + 1) ((a, b) :: stack) s f =
      if (s.insertAll es).1 then compareLoop m otherMap fuel stack (s.insertAll es).2 f
      else .ok (s.insertAll es, f)) : Compares m otherMap f [(a, b)] es := by
  intro s stack out hou
  by_cases hm : (s.insertAll es).1
  · rw [if_pos hm] at hou
    refine hou.of_succ fun fuel => ?_
    rw [singleton_append, hst, if_pos hm]
  · rw [if_neg hm] at hou
    refine .of_const fun fuel => ?_
    rw [singleton_append, hst, if_neg hm, hou]

theorem Compares.of_walk {walk : ℕ → Table → FamilyM (Bool × Table)}
    (hwa : ∀ s, Eventually (fun fuel => walk fuel s f) (.ok (s.insertAll es, f)))
    (hst : ∀ fuel stack s, compareLoop m otherMap (fuel + 1) ((a, b) :: stack) s f = (do
        let (more, s) ← walk fuel s
        if more then compareLoop m otherMap fuel stack s else return (false, s)) f) :
    Compares m otherMap f [(a, b)] es := by
  intro s stack out hou
  refine (Eventually.bind_walk (fun fuel s => compareLoop m otherMap fuel stack s)
    (fun s => (false, s)) (hwa s) ?_).of_succ fun fuel => hst fuel stack s
  split
  · next hm =>
      rw [if_pos hm] at hou
      exact hou
  · next hso =>
      rw [if_neg hso] at hou
      rw [hou, ← Bool.eq_false_iff.mpr hso]

/-- Both branches are in use and have different hashes. -/
def twoSided (t t' : Tree) : Bool :=
  decide (t.digest ≠ t'.digest) && !t.isEmpty && !t'.isEmpty

theorem compareBranches_run (m om : SHAMap) (h : Represents f Hashes (.inner c) r)
    (h' : Represents f Hashes (.inner c') r') (hn : f.object r = some (.inner n))
    (hn' : f.object r' = some (.inner n')) (brs : List (Fin 16))
    (stk : List (NodeRef × NodeRef)) (s : Table) :
    Eventually (fun fuel => compareBranches m om fuel r r' brs stk s f)
      (.ok ((if (s.insertAll (brs.flatMap fun i => oneSided (c i) (c' i))).1 then
          some (((brs.filter fun i => twoSided (c i) (c' i)).map
            fun i => (childOf n i, childOf n' i)).reverse ++ stk)
        else none, (s.insertAll (brs.flatMap fun i => oneSided (c i) (c' i))).2), f)) := by
  induction brs generalizing stk s with
  | nil => exact ⟨0, fun _ _ => rfl⟩
  | cons i brs ih =>
    have hh : n.mHashes i = (c i).digest := (h.of_object hn).2 n c rfl rfl i
    have hh' : n'.mHashes i = (c' i).digest := (h'.of_object hn').2 n' c' rfl rfl i
    have hs := h.slots hn i
    have hs' := h'.slots hn' i
    have hu : ∀ fuel, compareBranches m om fuel r r' (i :: brs) stk s f =
        (if (c i).digest ≠ (c' i).digest then
          if (c' i).isEmpty then do
            let iNode ← descendThrow m.backed_ r i
            let (more, s) ← walkBranch m fuel iNode none true s
            if more then compareBranches m om fuel r r' brs stk s
            else return (none, s)
          else if (c i).isEmpty then do
            let iNode ← descendThrow om.backed_ r' i
            let (more, s) ← walkBranch om fuel iNode none false s
            if more then compareBranches m om fuel r r' brs stk s
            else return (none, s)
          else do
            let ourChild ← descendThrow m.backed_ r i
            let otherChild ← descendThrow om.backed_ r' i
            compareBranches m om fuel r r' brs ((ourChild, otherChild) :: stk) s
        else compareBranches m om fuel r r' brs stk s) f := by
      intro fuel
      rw [compareBranches, run_bind (loadInner_eq hn), run_bind (loadInner_eq hn'), hh, hh',
        (h.slots hn).isEmptyBranch_eq, (h'.slots hn').isEmptyBranch_eq]
    rw [flatMap_cons, filter_cons, Table.insertAll_append]
    by_cases hd : (c i).digest = (c' i).digest
    · have hon : oneSided (c i) (c' i) = [] := if_pos hd
      have ht : twoSided (c i) (c' i) = false := by simp [twoSided, hd]
      rw [hon, ht]
      refine (ih stk s).congr fun fuel => ?_
      rw [hu, if_neg (not_not_intro hd)]
    · by_cases ho : (c' i).isEmpty
      · have hon : oneSided (c i) (c' i) = branchEntries none true (c i).items.reverse := by
          rw [oneSided, if_neg hd, if_pos ho]
        have ht : twoSided (c i) (c' i) = false := by simp [twoSided, ho]
        have hours : (c i).isEmpty = false := by
          rw [← Bool.not_eq_true]
          intro hours
          rw [isEmpty_iff.mp hours, isEmpty_iff.mp ho] at hd
          exact hd rfl
        obtain ⟨hq, hre⟩ := childOf_of_slot hs.2 hours
        rw [hon, ht]
        refine Eventually.congr (Eventually.bind_walk
          (fun fuel s => compareBranches m om fuel r r' brs stk s)
          (fun s => (none, s)) (walkBranch_run m none true hre s) ?_) fun fuel => ?_
        · split
          · next hm => exact ih stk _
          · next hso => rfl
        · rw [hu, if_pos hd, if_pos ho, run_bind (descendThrow_eq _ hn hq)]
      · by_cases hours : (c i).isEmpty
        · have hon : oneSided (c i) (c' i) = branchEntries none false (c' i).items.reverse := by
            rw [oneSided, if_neg hd, if_neg ho, if_pos hours]
          have ht : twoSided (c i) (c' i) = false := by simp [twoSided, hours]
          obtain ⟨hq, hre⟩ := childOf_of_slot hs'.2 (Bool.eq_false_iff.mpr ho)
          rw [hon, ht]
          refine Eventually.congr (Eventually.bind_walk
            (fun fuel s => compareBranches m om fuel r r' brs stk s)
            (fun s => (none, s)) (walkBranch_run om none false hre s) ?_) fun fuel => ?_
          · split
            · next hm => exact ih stk _
            · next hso => rfl
          · rw [hu, if_pos hd, if_neg ho, if_pos hours, run_bind (descendThrow_eq _ hn' hq)]
        · have hon : oneSided (c i) (c' i) = [] := by
            rw [oneSided, if_neg hd, if_neg ho, if_neg hours]
          have ht : twoSided (c i) (c' i) := by simp [twoSided, hd, ho, hours]
          have hq := (childOf_of_slot hs.2 (Bool.eq_false_iff.mpr hours)).1
          have hq' := (childOf_of_slot hs'.2 (Bool.eq_false_iff.mpr ho)).1
          rw [hon, ht, if_pos rfl, map_cons, reverse_cons, append_assoc]
          refine (ih ((childOf n i, childOf n' i) :: stk) s).congr fun fuel => ?_
          rw [hu, if_pos hd, if_neg ho, if_neg hours,
            run_bind (descendThrow_eq _ hn hq), run_bind (descendThrow_eq _ hn' hq')]

theorem compares_pairs (hsl : ∀ i, Slot f Hashes (c i) (n.mChildren i))
    (hsl' : ∀ i, Slot f Hashes (c' i) (n'.mChildren i))
    (hp : ∀ i q q', Represents f Hashes (c i) q → Represents f Hashes (c' i) q' →
      Compares m otherMap f [(q, q')] (differences (c i) (c' i))) (brs : List (Fin 16)) :
    Compares m otherMap f
      ((brs.filter fun i => twoSided (c i) (c' i)).map fun i => (childOf n i, childOf n' i))
      (brs.flatMap fun i =>
        if (c i).digest = (c' i).digest ∨ (c i).isEmpty ∨ (c' i).isEmpty then []
        else differences (c i) (c' i)) := by
  induction brs with
  | nil => exact .nil
  | cons i brs ih =>
    rw [filter_cons, flatMap_cons]
    by_cases ht : twoSided (c i) (c' i)
    · have hpt := ht
      simp only [twoSided, Bool.and_eq_true, decide_eq_true_eq, Bool.not_eq_true'] at hpt
      obtain ⟨⟨hd, hours⟩, hot⟩ := hpt
      rw [if_pos ht, if_neg (by simp [hd, hours, hot]), map_cons]
      change Compares m otherMap f ([(childOf n i, childOf n' i)] ++ _) _
      refine Compares.append ?_ ih
      exact hp i _ _ (childOf_of_slot (hsl i) hours).2 (childOf_of_slot (hsl' i) hot).2
    · rw [if_neg ht, if_pos]
      · exact ih
      simp only [twoSided, Bool.and_eq_true, decide_eq_true_eq, Bool.not_eq_true'] at ht
      by_contra hno
      simp only [not_or, Bool.not_eq_true] at hno
      exact ht ⟨⟨hno.1, hno.2.1⟩, hno.2.2⟩

theorem compares_leaves {leaf leaf' : SHAMapTreeNode} (hr : f.object r = some (.leaf leaf))
    (hr' : f.object r' = some (.leaf leaf')) (type type' : TNType) :
    Compares m otherMap f [(r, r')]
      (differences (.leaf type leaf.mItem) (.leaf type' leaf'.mItem)) := by
  refine .of_step fun fuel stack s => ?_
  rw [compareLoop, run_bind (load_eq hr), run_bind (load_eq hr'), differences]
  dsimp only
  by_cases hk : leaf.mItem.key = leaf'.mItem.key
  · rw [if_pos hk, if_pos hk]
    by_cases hda : leaf.mItem.data = leaf'.mItem.data
    · rw [if_neg (not_not_intro hda), if_neg (not_not_intro hda)]
      rfl
    rw [if_pos hda, if_pos hda, Table.insertAll_single]
    by_cases hc : (s.insert (leaf.mItem.key, (some leaf.mItem, some leaf'.mItem))).maxCount ≤ 0
    · simp only [if_pos hc]
      rfl
    · simp [if_neg hc]
  · rw [if_neg hk, if_neg hk, Table.insertAll, Table.insertAll_single]
    by_cases hc : (s.insert (leaf.mItem.key, (some leaf.mItem, none))).maxCount ≤ 0
    · simp only [if_pos hc]
      rfl
    simp only [if_neg hc]
    by_cases hc' : ((s.insert (leaf.mItem.key, (some leaf.mItem, none))).insert
        (leaf'.mItem.key, (none, some leaf'.mItem))).maxCount ≤ 0
    · simp only [if_pos hc']
      rfl
    · simp [if_neg hc']

theorem compares_inner (h : Represents f Hashes (.inner c) r)
    (h' : Represents f Hashes (.inner c') r')
    (hp : ∀ i q q', Represents f Hashes (c i) q → Represents f Hashes (c' i) q' →
      Compares m otherMap f [(q, q')] (differences (c i) (c' i))) :
    Compares m otherMap f [(r, r')] (differences (.inner c) (.inner c')) := by
  obtain ⟨n, hn, -⟩ := id h
  obtain ⟨n', hn', -⟩ := id h'
  have hb := compares_pairs (m := m) (fun i => (h.slots hn i).2) (fun i => (h'.slots hn' i).2)
    hp (finRange 16).reverse
  intro s stack out hou
  rw [differences, Table.insertAll_append] at hou
  obtain ⟨steps, hse⟩ := compareBranches_run m otherMap h h' hn hn' (finRange 16) stack s
  by_cases hm : (s.insertAll ((finRange 16).flatMap fun i => oneSided (c i) (c' i))).1
  · simp only [if_pos hm] at hou
    obtain ⟨steps', hse'⟩ := hb _ stack out hou
    refine ⟨max steps steps' + 1, fun fuel hf => ?_⟩
    obtain ⟨rest, rfl⟩ := (@Nat.exists_eq_add_one fuel).mpr (by omega)
    have hbr : compareBranches m otherMap rest r r' (finRange 16) stack s f = _ :=
      hse rest (by omega)
    rw [if_pos hm] at hbr
    change compareLoop m otherMap (rest + 1) ((r, r') :: stack) s f = out
    rw [compareLoop, run_bind (load_eq hn), run_bind (load_eq hn')]
    dsimp only
    rw [run_bind hbr, ← map_reverse, ← filter_reverse]
    exact hse' rest (by omega)
  · simp only [if_neg hm] at hou
    refine ⟨steps + 1, fun fuel hf => ?_⟩
    obtain ⟨rest, rfl⟩ := (@Nat.exists_eq_add_one fuel).mpr (by omega)
    have hbr : compareBranches m otherMap rest r r' (finRange 16) stack s f = _ :=
      hse rest (by omega)
    rw [if_neg hm] at hbr
    change compareLoop m otherMap (rest + 1) ((r, r') :: stack) s f = out
    rw [compareLoop, run_bind (load_eq hn), run_bind (load_eq hn')]
    dsimp only
    rw [run_bind hbr, hou]
    exact congrArg (fun b => Except.ok ((b, _), f)) (Bool.eq_false_iff.mpr hm).symm

theorem compares_trees (h : Represents f Hashes t r) (h' : Represents f Hashes t' r') :
    Compares m otherMap f [(r, r')] (differences t t') := by
  induction t generalizing t' r r' with
  | empty => cases h
  | leaf type item =>
    obtain ⟨leaf, hr, -, rfl, -⟩ := id h
    cases t' with
    | empty => exact absurd rfl h'.ne_empty
    | leaf type' other =>
      obtain ⟨leaf', hr', -, rfl, -⟩ := id h'
      exact compares_leaves hr hr' type type'
    | inner c' =>
      obtain ⟨n', hn', -⟩ := id h'
      refine .of_walk (fun s => walkBranch_run otherMap (some leaf.mItem) false h' s)
        fun fuel stack s => ?_
      rw [compareLoop, run_bind (load_eq hr), run_bind (load_eq hn')]
  | inner c ih =>
    obtain ⟨n, hn, -⟩ := id h
    cases t' with
    | empty => exact absurd rfl h'.ne_empty
    | leaf type' other =>
      obtain ⟨leaf', hr', -, rfl, -⟩ := id h'
      refine .of_walk (fun s => walkBranch_run m (some leaf'.mItem) true h s) fun fuel stack s => ?_
      rw [compareLoop, run_bind (load_eq hn), run_bind (load_eq hr')]
    | inner c' => exact compares_inner h h' fun i q q' hq hq' => ih i hq hq'

theorem compareLoop_run (h : Represents f Hashes t m.root_)
    (h' : Represents f Hashes t' otherMap.root_) (s : Table) :
    Eventually (fun fuel => compareLoop m otherMap fuel [(m.root_, otherMap.root_)] s f)
      (.ok (s.insertAll (differences t t'), f)) := by
  refine (compares_trees (m := m) h h' : Compares m otherMap f _ _) s [] _ ?_
  split
  · next hm =>
      refine .of_const fun fuel => ?_
      exact congrArg (fun b => Except.ok ((b, _), f)) hm.symm
  · rfl

end Compare

end SHAMapDelta

end Sand
