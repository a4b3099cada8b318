import Mathlib.Data.List.FinRange

/-!
# Radix trees with items in their leaves

A tree over keys that are read digit by digit.
-/

/-- Keys by digits, up to a height that tells them apart. -/
class Digits (κ : Type) (b : outParam ℕ) where
  height : ℕ
  digit : ℕ → κ → Fin b
  eq_of_digit : ∀ {k k' : κ}, (∀ d < height, digit d k = digit d k') → k = k'

class HasKey (α : Type) (κ : outParam Type) where
  key : α → κ

inductive RadixTree (b : ℕ) (τ α : Type) where
  | empty
  | leaf (tag : τ) (item : α)
  | inner (child : Fin b → RadixTree b τ α)

namespace RadixTree

open Function List

export Digits (height digit)

export HasKey (key)

variable {κ τ α : Type} {b : ℕ}

def isEmpty : RadixTree b τ α → Bool
  | .empty => true
  | _ => false

def items : RadixTree b τ α → List α
  | .empty => []
  | .leaf _ a => [a]
  | .inner c => (List.finRange b).flatMap fun i => (c i).items

def Tagged (tag : τ) : RadixTree b τ α → Prop
  | .empty => True
  | .leaf t _ => t = tag
  | .inner c => ∀ i, (c i).Tagged tag

def branches (c : Fin b → RadixTree b τ α) : List (Fin b) :=
  (List.finRange b).filter fun i => !(c i).isEmpty

/-- The item at the end of a tree without a fork. -/
def only : RadixTree b τ α → Option α
  | .empty => none
  | .leaf _ a => some a
  | .inner c =>
    match branches c with
    | [i] => (c i).only
    | _ => none

def single (i : Fin b) (t : RadixTree b τ α) : RadixTree b τ α :=
  .inner (update (fun _ => .empty) i t)

/-- What becomes of an inner node that lost an item. -/
def contract (tag : τ) (c : Fin b → RadixTree b τ α) : RadixTree b τ α :=
  match branches c with
  | [] => .empty
  | [_] =>
    match only (.inner c) with
    | some a => .leaf tag a
    | none => .inner c
  | _ => .inner c

variable [Digits κ b] [HasKey α κ]

/-- Every leaf is on its key's branch, with digits left. -/
def Placed : RadixTree b τ α → ℕ → Prop
  | .empty, _ => True
  | .leaf _ _, _ => True
  | .inner c, d => d < height κ ∧
      ∀ i, (∀ a ∈ (c i).items, digit d (key a) = i) ∧ (c i).Placed (d + 1)

def Crowded (t : RadixTree b τ α) : Prop :=
  ∃ a ∈ t.items, ∃ a' ∈ t.items, key a ≠ key a'

/-- Every inner node has two items under it. -/
def Dense : RadixTree b τ α → Prop
  | .empty => True
  | .leaf _ _ => True
  | .inner c => Crowded (.inner c) ∧ ∀ i, (c i).Dense

variable [DecidableEq κ]

def lookup (k : κ) : RadixTree b τ α → ℕ → Option α
  | .empty, _ => none
  | .leaf _ a, _ => if key a = k then some a else none
  | .inner c, d => (c (digit d k)).lookup k (d + 1)

/-- Inner nodes down to where two keys part. -/
def fork (tag : τ) (a a' : α) : ℕ → ℕ → RadixTree b τ α
  | 0, _ => .leaf tag a
  | n + 1, d =>
    if digit d (key a) = digit d (key a') then
      single (digit d (key a)) (fork tag a a' n (d + 1))
    else
      .inner (update (update (fun _ => .empty) (digit d (key a)) (.leaf tag a))
        (digit d (key a')) (.leaf tag a'))

def insert (tag : τ) (a : α) : RadixTree b τ α → ℕ → RadixTree b τ α
  | .empty, _ => .leaf tag a
  | .leaf t a', d => if key a' = key a then .leaf t a' else fork tag a a' (height κ - d) d
  | .inner c, d => .inner (update c (digit d (key a))
      ((c (digit d (key a))).insert tag a (d + 1)))

def replace (tag : τ) (a : α) : RadixTree b τ α → ℕ → RadixTree b τ α
  | .empty, _ => .empty
  | .leaf t a', _ => if key a' = key a then .leaf tag a else .leaf t a'
  | .inner c, d => .inner (update c (digit d (key a))
      ((c (digit d (key a))).replace tag a (d + 1)))

def erase (tag : τ) (k : κ) : RadixTree b τ α → ℕ → RadixTree b τ α
  | .empty, _ => .empty
  | .leaf t a, _ => if key a = k then .empty else .leaf t a
  | .inner c, d => contract tag (update c (digit d k)
      ((c (digit d k)).erase tag k (d + 1)))

/-- Removal at the root, which stays an inner node. -/
def eraseRoot (tag : τ) (k : κ) : RadixTree b τ α → RadixTree b τ α
  | .inner c => .inner (update c (digit 0 k) ((c (digit 0 k)).erase tag k 1))
  | t => t

/-! ### Items and their places -/

variable {t t' : RadixTree b τ α} {c : Fin b → RadixTree b τ α} {i : Fin b} {d : ℕ} {k : κ} {a : α}
  {tag : τ}

section Items

omit [Digits κ b] [HasKey α κ] [DecidableEq κ]

@[simp]
theorem items_empty : (empty : RadixTree b τ α).items = [] := rfl

@[simp]
theorem items_leaf (t : τ) (a : α) : (leaf t a : RadixTree b τ α).items = [a] := rfl

@[simp]
theorem mem_items_inner : a ∈ (inner c).items ↔ ∃ i, a ∈ (c i).items := by
  simp [items]

theorem mem_items_update :
    a ∈ (inner (update c i t)).items ↔ a ∈ t.items ∨ ∃ j, j ≠ i ∧ a ∈ (c j).items := by
  rw [mem_items_inner]
  constructor
  · rintro ⟨j, hj⟩
    obtain rfl | hji := eq_or_ne j i
    · rw [update_self] at hj
      exact .inl hj
    · rw [update_of_ne hji] at hj
      exact .inr ⟨j, hji, hj⟩
  · rintro (ht | ⟨j, hji, hj⟩)
    · exact ⟨i, by rwa [update_self]⟩
    · exact ⟨j, by rwa [update_of_ne hji]⟩

@[simp]
theorem mem_items_single : a ∈ (single i t).items ↔ a ∈ t.items := by
  rw [single, mem_items_update]
  simp

theorem isEmpty_iff : t.isEmpty = true ↔ t = empty := by
  cases t <;> simp [isEmpty]

theorem mem_branches : i ∈ branches c ↔ c i ≠ empty := by
  simp [branches, ← isEmpty_iff]

theorem tagged_update (hc : ∀ j, (c j).Tagged tag) (ht : t.Tagged tag) :
    (inner (update c i t)).Tagged tag := by
  intro j
  obtain rfl | hji := eq_or_ne j i
  · rwa [update_self]
  · rw [update_of_ne hji]
    exact hc j

end Items

section Placement

omit [DecidableEq κ]

/-- The items share the first digits of a key. -/
def Under (t : RadixTree b τ α) (d : ℕ) (k : κ) : Prop :=
  ∀ a ∈ t.items, ∀ e < d, digit e (key a) = digit e k

theorem under_zero (t : RadixTree b τ α) (k : κ) : t.Under 0 k :=
  fun _ _ _ he => absurd he (Nat.not_lt_zero _)

theorem Under.child (h : (inner c).Under d k) (hpl : (inner c).Placed d) :
    (c (digit d k)).Under (d + 1) k := by
  intro a ha e he
  rcases Nat.lt_succ_iff_lt_or_eq.mp he with hlt | rfl
  · exact h a (mem_items_inner.mpr ⟨_, ha⟩) e hlt
  · exact (hpl.2 _).1 a ha

theorem Placed.update (h : (inner c).Placed d) (ht : t.Placed (d + 1))
    (hdi : ∀ a ∈ t.items, digit d (key a) = i) : (inner (update c i t)).Placed d := by
  refine ⟨h.1, fun j => ?_⟩
  obtain rfl | hji := eq_or_ne j i
  · rw [update_self]
    exact ⟨hdi, ht⟩
  · rw [update_of_ne hji]
    exact h.2 j

theorem placed_empty_branches (hd : d < height κ) :
    (inner fun _ => empty : RadixTree b τ α).Placed d :=
  ⟨hd, fun _ => ⟨fun _ ha => absurd ha not_mem_nil, trivial⟩⟩

theorem Placed.nodup_keys (h : t.Placed d) : (t.items.map key).Nodup := by
  induction t generalizing d with
  | empty => exact nodup_nil
  | leaf t x => exact nodup_singleton _
  | inner c ih =>
    rw [items, map_flatMap]
    refine nodup_flatMap.mpr ⟨fun i _ => ih i (h.2 i).2, ?_⟩
    refine (nodup_finRange b).imp fun {i j} hij k hk hk' => hij ?_
    obtain ⟨a, ha, rfl⟩ := mem_map.mp hk
    obtain ⟨a', ha', hke⟩ := mem_map.mp hk'
    rw [← (h.2 i).1 a ha, ← hke, (h.2 j).1 a' ha']

end Placement

theorem lookup_eq_some_iff (h : t.Placed d) : t.lookup k d = some a ↔ a ∈ t.items ∧ key a = k := by
  induction t generalizing d with
  | empty => simp [lookup]
  | leaf t x =>
    rw [lookup, items_leaf, mem_singleton]
    constructor
    · intro hif
      split at hif
      · next hke => exact ⟨(Option.some.inj hif).symm, Option.some.inj hif ▸ hke⟩
      · cases hif
    · rintro ⟨rfl, hke⟩
      rw [if_pos hke]
  | inner c ih =>
    rw [lookup, ih _ (h.2 _).2, mem_items_inner]
    constructor
    · rintro ⟨ha, hke⟩
      exact ⟨⟨_, ha⟩, hke⟩
    · rintro ⟨⟨i, hi⟩, hke⟩
      have hdi := (h.2 i).1 a hi
      rw [hke] at hdi
      exact ⟨hdi ▸ hi, hke⟩

theorem lookup_eq_none_iff (h : t.Placed d) : t.lookup k d = none ↔ ∀ a ∈ t.items, key a ≠ k := by
  rw [Option.eq_none_iff_forall_ne_some]
  constructor
  · intro hno a ha hke
    exact hno a ((lookup_eq_some_iff h).mpr ⟨ha, hke⟩)
  · intro hal a ha
    obtain ⟨hm, hke⟩ := (lookup_eq_some_iff h).mp ha
    exact hal a hm hke

/-! ### Insertion -/

section Crowd

omit [Digits κ b] [DecidableEq κ]

theorem Crowded.mono (h : t.Crowded) (hs : ∀ a ∈ t.items, a ∈ t'.items) : t'.Crowded := by
  obtain ⟨a, ha, a', ha', hne⟩ := h
  exact ⟨a, hs a ha, a', hs a' ha', hne⟩

theorem dense_update (hc : ∀ j, (c j).Dense) (ht : t.Dense)
    (hcr : (inner (update c i t)).Crowded) : (inner (update c i t)).Dense := by
  refine ⟨hcr, fun j => ?_⟩
  obtain rfl | hji := eq_or_ne j i
  · rwa [update_self]
  · rw [update_of_ne hji]
    exact hc j

theorem Dense.exists_item (h : t.Dense) (hne : t ≠ empty) : ∃ a, a ∈ t.items := by
  cases t with
  | empty => exact absurd rfl hne
  | leaf t a => exact ⟨a, mem_singleton_self a⟩
  | inner c =>
    obtain ⟨a, ha, -⟩ := h.1
    exact ⟨a, ha⟩

end Crowd

/-- Splitting a leaf: a tree of two items. -/
structure IsFork (tag : τ) (a a' : α) (d : ℕ) (t : RadixTree b τ α) : Prop where
  mem_items : ∀ x, x ∈ t.items ↔ x = a ∨ x = a'
  placed : t.Placed d
  dense : t.Dense
  tagged : t.Tagged tag

omit [DecidableEq κ] in
theorem isFork_fork (tag : τ) {a' : α} {n : ℕ} (hn : d + n = height κ)
    (hag : ∀ e < d, digit e (key a) = digit e (key a')) (hne : key a ≠ key a') :
    IsFork tag a a' d (fork tag a a' n d) := by
  have hcr : ∀ {t : RadixTree b τ α}, (∀ x, x ∈ t.items ↔ x = a ∨ x = a') → t.Crowded := by
    intro t ht
    exact ⟨a, (ht a).mpr (.inl rfl), a', (ht a').mpr (.inr rfl), hne⟩
  induction n generalizing d with
  | zero => exact absurd (Digits.eq_of_digit fun e he => hag e (by omega)) hne
  | succ n ih =>
    have hpl : (inner fun _ => empty : RadixTree b τ α).Placed d := placed_empty_branches (by omega)
    rw [fork]
    split
    · next heq =>
        have hb := ih (d := d + 1) (by omega) (by
          intro e he
          rcases Nat.lt_succ_iff_lt_or_eq.mp he with hlt | rfl
          · exact hag e hlt
          · exact heq)
        have hm : ∀ x, x ∈ (single (digit d (key a)) (fork tag a a' n (d + 1))).items ↔
            x = a ∨ x = a' := by
          intro x
          rw [mem_items_single, hb.mem_items]
        refine ⟨hm, hpl.update hb.placed ?_, ?_, ?_⟩
        · intro x hx
          rcases (hb.mem_items x).mp hx with rfl | rfl
          · rfl
          · exact heq.symm
        · exact dense_update (fun _ => trivial) hb.dense (hcr hm)
        · exact tagged_update (fun _ => trivial) hb.tagged
    · next hp =>
        have hm : ∀ x, x ∈ (inner (update (update (fun _ => empty)
            (digit d (key a)) (leaf tag a)) (digit d (key a')) (leaf tag a')) :
            RadixTree b τ α).items ↔ x = a ∨ x = a' := by
          intro x
          rw [mem_items_update]
          constructor
          · rintro (hx | ⟨j, hj, hx⟩)
            · exact .inr (mem_singleton.mp hx)
            · by_cases hja : j = digit d (key a)
              · subst hja
                rw [update_self] at hx
                exact .inl (mem_singleton.mp hx)
              · rw [update_of_ne hja] at hx
                cases hx
          · rintro (rfl | rfl)
            · refine .inr ⟨digit d (key x), hp, ?_⟩
              rw [update_self]
              exact mem_singleton_self _
            · exact .inl (mem_singleton_self _)
        refine ⟨hm, ?_, ?_, ?_⟩
        · have hl : ∀ {x : α}, ∀ y ∈ (leaf tag x : RadixTree b τ α).items,
              digit d (key y) = digit d (key x) := by
            intro x y hy
            rw [mem_singleton.mp hy]
          exact (hpl.update (t := leaf tag a) trivial hl).update (t := leaf tag a') trivial hl
        · refine dense_update (fun j => ?_) trivial (hcr hm)
          by_cases hja : j = digit d (key a)
          · subst hja
            rw [update_self]
            trivial
          · rw [update_of_ne hja]
            trivial
        · exact tagged_update (tagged_update (fun _ => trivial) rfl) rfl

/-- What adding a new item does to a tree. -/
structure IsInsert (a : α) (d : ℕ) (t t' : RadixTree b τ α) : Prop where
  mem_items : ∀ x, x ∈ t'.items ↔ x = a ∨ x ∈ t.items
  placed : t'.Placed d
  dense : t.Dense → t'.Dense

theorem isInsert_insert (tag : τ) (hpl : t.Placed d) (hu : t.Under d (key a))
    (hab : ∀ x ∈ t.items, key x ≠ key a) (hd : d ≤ height κ) :
    IsInsert a d t (t.insert tag a d) := by
  induction t generalizing d with
  | empty => exact ⟨fun x => by simp [insert], trivial, fun _ => trivial⟩
  | leaf t a' =>
    have hne : key a' ≠ key a := hab a' (mem_singleton_self _)
    rw [insert, if_neg hne]
    have hf := isFork_fork tag (n := height κ - d) (d := d) (by omega)
      (fun e he => (hu a' (mem_singleton_self _) e he).symm) hne.symm
    refine ⟨fun x => ?_, hf.placed, fun _ => hf.dense⟩
    rw [hf.mem_items, items_leaf, mem_singleton]
  | inner c ih =>
    have hb := ih (digit d (key a)) (hpl.2 _).2 (hu.child hpl)
      (fun x hx => hab x (mem_items_inner.mpr ⟨_, hx⟩)) hpl.1
    have hm : ∀ x, x ∈ (inner (update c (digit d (key a))
        ((c (digit d (key a))).insert tag a (d + 1)))).items ↔ x = a ∨ x ∈ (inner c).items := by
      intro x
      rw [mem_items_update, hb.mem_items, or_assoc, mem_items_inner]
      refine or_congr Iff.rfl ⟨?_, ?_⟩
      · rintro (hx | ⟨j, -, hx⟩)
        · exact ⟨_, hx⟩
        · exact ⟨j, hx⟩
      · rintro ⟨j, hx⟩
        by_cases hj : j = digit d (key a)
        · exact .inl (hj ▸ hx)
        · exact .inr ⟨j, hj, hx⟩
    refine ⟨hm, hpl.update hb.placed ?_, fun hde => ?_⟩
    · intro x hx
      rcases (hb.mem_items x).mp hx with rfl | hx
      · rfl
      · exact (hpl.2 _).1 x hx
    · refine dense_update hde.2 (hb.dense (hde.2 _)) ?_
      exact hde.1.mono fun x hx => (hm x).mpr (.inr hx)

theorem Tagged.insert (h : t.Tagged tag) (hu : t.Under d (key a)) (hpl : t.Placed d)
    (hd : d ≤ height κ) : (t.insert tag a d).Tagged tag := by
  induction t generalizing d with
  | empty => rfl
  | leaf t a' =>
    rw [RadixTree.insert]
    split
    · exact h
    · next hne =>
        exact (isFork_fork tag (n := height κ - d) (d := d) (by omega)
          (fun e he => (hu a' (mem_singleton_self _) e he).symm) (Ne.symm hne)).tagged
  | inner c ih =>
    exact tagged_update h (ih _ (h _) (hu.child hpl) (hpl.2 _).2 hpl.1)

/-! ### Replacement -/

/-- What replacing the item of a key does to a tree. -/
structure IsReplace (a : α) (d : ℕ) (t t' : RadixTree b τ α) : Prop where
  mem_items : ∀ x, x ∈ t'.items ↔
    (x = a ∧ ∃ y ∈ t.items, key y = key a) ∨ (x ∈ t.items ∧ key x ≠ key a)
  placed : t'.Placed d
  dense : t.Dense → t'.Dense

theorem isReplace_replace (tag : τ) (hpl : t.Placed d) : IsReplace a d t (t.replace tag a d) := by
  induction t generalizing d with
  | empty => exact ⟨fun x => by simp [replace], trivial, fun _ => trivial⟩
  | leaf t a' =>
    rw [replace]
    split
    · next hke =>
        refine ⟨fun x => ?_, trivial, fun _ => trivial⟩
        simp only [items_leaf, mem_singleton]
        constructor
        · rintro rfl
          exact .inl ⟨rfl, a', rfl, hke⟩
        · rintro (⟨rfl, -⟩ | ⟨rfl, hne⟩)
          · rfl
          · exact absurd hke hne
    · next hke =>
        refine ⟨fun x => ?_, trivial, fun _ => trivial⟩
        simp only [items_leaf, mem_singleton]
        constructor
        · rintro rfl
          exact .inr ⟨rfl, hke⟩
        · rintro (⟨-, y, rfl, hy⟩ | ⟨rfl, -⟩)
          · exact absurd hy hke
          · rfl
  | inner c ih =>
    have hb := ih (digit d (key a)) (hpl.2 _).2
    have hm : ∀ x, x ∈ (inner (update c (digit d (key a))
        ((c (digit d (key a))).replace tag a (d + 1)))).items ↔
        (x = a ∧ ∃ y ∈ (inner c).items, key y = key a) ∨ (x ∈ (inner c).items ∧ key x ≠ key a) := by
      intro x
      rw [mem_items_update, hb.mem_items]
      constructor
      · rintro ((⟨rfl, y, hy, hke⟩ | ⟨hx, hke⟩) | ⟨j, hj, hx⟩)
        · exact .inl ⟨rfl, y, mem_items_inner.mpr ⟨_, hy⟩, hke⟩
        · exact .inr ⟨mem_items_inner.mpr ⟨_, hx⟩, hke⟩
        · refine .inr ⟨mem_items_inner.mpr ⟨j, hx⟩, fun hke => hj ?_⟩
          rw [← hke, (hpl.2 j).1 x hx]
      · rintro (⟨rfl, y, hy, hke⟩ | ⟨hx, hke⟩)
        · obtain ⟨i, hi⟩ := mem_items_inner.mp hy
          have hdi := (hpl.2 i).1 y hi
          rw [hke] at hdi
          exact .inl (.inl ⟨rfl, y, hdi ▸ hi, hke⟩)
        · obtain ⟨i, hi⟩ := mem_items_inner.mp hx
          by_cases hdi : i = digit d (key a)
          · exact .inl (.inr ⟨hdi ▸ hi, hke⟩)
          · exact .inr ⟨i, hdi, hi⟩
    refine ⟨hm, hpl.update hb.placed ?_, fun hde => ?_⟩
    · intro x hx
      rcases (hb.mem_items x).mp hx with ⟨rfl, -⟩ | ⟨hx, -⟩
      · rfl
      · exact (hpl.2 _).1 x hx
    refine dense_update hde.2 (hb.dense (hde.2 _)) ?_
    -- every key is kept, so two keys are
    have hkp : ∀ y ∈ (inner c).items, ∃ x ∈ (inner (update c (digit d (key a))
        ((c (digit d (key a))).replace tag a (d + 1)))).items, key x = key y := by
      intro y hy
      by_cases hke : key y = key a
      · exact ⟨a, (hm a).mpr (.inl ⟨rfl, y, hy, hke⟩), hke.symm⟩
      · exact ⟨y, (hm y).mpr (.inr ⟨hy, hke⟩), rfl⟩
    obtain ⟨y, hy, y', hy', hne⟩ := hde.1
    obtain ⟨x, hx, hxy⟩ := hkp y hy
    obtain ⟨x', hx', hxy'⟩ := hkp y' hy'
    exact ⟨x, hx, x', hx', by rwa [hxy, hxy']⟩

theorem isEmpty_replace (tag : τ) (a : α) (t : RadixTree b τ α) (d : ℕ) :
    (t.replace tag a d).isEmpty = t.isEmpty := by
  cases t with
  | empty => rfl
  | leaf t a' =>
    rw [replace]
    split <;> rfl
  | inner c => rfl

theorem Tagged.replace (h : t.Tagged tag) (a : α) (d : ℕ) : (t.replace tag a d).Tagged tag := by
  induction t generalizing d with
  | empty => trivial
  | leaf t a' =>
    rw [RadixTree.replace]
    split
    · rfl
    · exact h
  | inner c ih => exact tagged_update h (ih _ (h _) _)

/-! ### Deletion -/

section Contract

omit [Digits κ b] [DecidableEq κ]

theorem only_of_crowded (hde : t.Dense) (hcr : t.Crowded) : t.only = none := by
  induction t with
  | empty => rfl
  | leaf t a =>
    obtain ⟨x, hx, y, hy, hne⟩ := hcr
    rw [mem_singleton.mp hx, mem_singleton.mp hy] at hne
    exact absurd rfl hne
  | inner c ih =>
    rw [only]
    split
    · next i hi =>
        refine ih i (hde.2 i) (hcr.mono fun a ha => ?_)
        obtain ⟨j, hj⟩ := mem_items_inner.mp ha
        have hne : c j ≠ empty := fun h => by simp [h] at hj
        have hji : j = i := by simpa [hi] using mem_branches.mpr hne
        exact hji ▸ hj
    · rfl

theorem only_inner (hbr : branches c = [i]) (hde : (c i).Dense) :
    (∃ t a, c i = leaf t a ∧ only (inner c) = some a) ∨
      (Crowded (c i) ∧ only (inner c) = none) := by
  have hne : c i ≠ empty := mem_branches.mp (hbr ▸ mem_singleton_self i)
  have ho : only (inner c) = (c i).only := by rw [only, hbr]
  rw [ho]
  cases hci : c i with
  | empty => exact absurd hci hne
  | leaf t a => exact .inl ⟨t, a, rfl, rfl⟩
  | inner c' =>
    rw [hci] at hde
    exact .inr ⟨hde.1, only_of_crowded hde hde.1⟩

end Contract

omit [DecidableEq κ] in
theorem contract_spec (tag : τ) (hpl : (inner c).Placed d) (hde : ∀ i, (c i).Dense) :
    (∀ x, x ∈ (contract tag c).items ↔ x ∈ (inner c).items) ∧ (contract tag c).Placed d ∧
      (contract tag c).Dense := by
  have hem : ∀ {j}, j ∉ branches c → c j = empty := by
    intro j hj
    by_contra hne
    exact hj (mem_branches.mpr hne)
  rcases hbr : branches c with _ | ⟨i, _ | ⟨j, rest⟩⟩
  · rw [contract, hbr]
    refine ⟨fun x => ?_, trivial, trivial⟩
    have hno : ∀ j, c j = empty := fun j => hem (by simp [hbr])
    simp [hno]
  · have hit : ∀ x, x ∈ (inner c).items ↔ x ∈ (c i).items := by
      intro x
      rw [mem_items_inner]
      refine ⟨?_, fun hx => ⟨i, hx⟩⟩
      rintro ⟨j, hj⟩
      by_cases hji : j = i
      · exact hji ▸ hj
      · rw [hem (by simp [hbr, hji])] at hj
        cases hj
    rcases only_inner hbr (hde i) with ⟨t, a, hl, ho⟩ | ⟨hcr, ho⟩
    · have hr : contract tag c = leaf tag a := by
        simp [contract, hbr, ho]
      rw [hr]
      refine ⟨fun x => ?_, trivial, trivial⟩
      rw [hit, hl, items_leaf, items_leaf]
    · have hr : contract tag c = inner c := by
        simp [contract, hbr, ho]
      rw [hr]
      exact ⟨fun x => Iff.rfl, hpl, hcr.mono fun x hx => (hit x).mpr hx, hde⟩
  · rw [contract, hbr]
    refine ⟨fun x => Iff.rfl, hpl, ⟨?_, hde⟩⟩
    have hij : i ≠ j := by
      have hnd : (branches c).Nodup := (nodup_finRange b).filter _
      rw [hbr] at hnd
      exact fun h => (nodup_cons.mp hnd).1 (h ▸ mem_cons_self)
    obtain ⟨a, ha⟩ := (hde i).exists_item (mem_branches.mp (by simp [hbr]))
    obtain ⟨a', ha'⟩ := (hde j).exists_item (mem_branches.mp (by simp [hbr]))
    refine ⟨a, mem_items_inner.mpr ⟨i, ha⟩, a', mem_items_inner.mpr ⟨j, ha'⟩, fun hke => hij ?_⟩
    rw [← (hpl.2 i).1 a ha, hke, (hpl.2 j).1 a' ha']

structure IsErase (k : κ) (d : ℕ) (t t' : RadixTree b τ α) : Prop where
  mem_items : ∀ x, x ∈ t'.items ↔ x ∈ t.items ∧ key x ≠ k
  placed : t'.Placed d
  dense : t'.Dense

omit [DecidableEq κ] in
theorem isErase_update (hpl : (inner c).Placed d) (hb : IsErase k (d + 1) (c (digit d k)) t) :
    (∀ x, x ∈ (inner (update c (digit d k) t)).items ↔
      x ∈ (inner c).items ∧ key x ≠ k) ∧ (inner (update c (digit d k) t)).Placed d := by
  constructor
  · intro x
    rw [mem_items_update, hb.mem_items]
    constructor
    · rintro (⟨hx, hke⟩ | ⟨j, hj, hx⟩)
      · exact ⟨mem_items_inner.mpr ⟨_, hx⟩, hke⟩
      · refine ⟨mem_items_inner.mpr ⟨j, hx⟩, fun hke => hj ?_⟩
        rw [← hke, (hpl.2 j).1 x hx]
    · rintro ⟨hx, hke⟩
      obtain ⟨i, hi⟩ := mem_items_inner.mp hx
      by_cases hdi : i = digit d k
      · exact .inl ⟨hdi ▸ hi, hke⟩
      · exact .inr ⟨i, hdi, hi⟩
  · refine hpl.update hb.placed fun x hx => ?_
    exact (hpl.2 _).1 x ((hb.mem_items x).mp hx).1

theorem isErase_erase (tag : τ) (hpl : t.Placed d) (hde : t.Dense) :
    IsErase k d t (t.erase tag k d) := by
  induction t generalizing d with
  | empty => exact ⟨fun x => by simp [erase], trivial, trivial⟩
  | leaf t a =>
    rw [erase]
    split
    · next hke =>
        refine ⟨fun x => ?_, trivial, trivial⟩
        simp only [items_empty, items_leaf, mem_singleton, not_mem_nil, false_iff]
        rintro ⟨rfl, hne⟩
        exact hne hke
    · next hke =>
        refine ⟨fun x => ?_, trivial, trivial⟩
        simp only [items_leaf, mem_singleton]
        constructor
        · rintro rfl
          exact ⟨rfl, hke⟩
        · exact fun h => h.1
  | inner c ih =>
    have hb := ih (digit d k) (hpl.2 _).2 (hde.2 _)
    obtain ⟨hm, hpl'⟩ := isErase_update hpl hb
    have hde' : ∀ j, (update c (digit d k) ((c (digit d k)).erase tag k (d + 1)) j).Dense := by
      intro j
      by_cases hj : j = digit d k
      · subst hj
        rw [update_self]
        exact hb.dense
      · rw [update_of_ne hj]
        exact hde.2 j
    obtain ⟨hit, hcp, hcd⟩ := contract_spec tag hpl' hde'
    exact ⟨fun x => (hit x).trans (hm x), hcp, hcd⟩

theorem Tagged.contract (h : (inner c).Tagged tag) : (contract tag c).Tagged tag := by
  unfold RadixTree.contract
  split
  · trivial
  · split
    · rfl
    · exact h
  · exact h

theorem Tagged.erase (h : t.Tagged tag) (k : κ) (d : ℕ) : (t.erase tag k d).Tagged tag := by
  induction t generalizing d with
  | empty => trivial
  | leaf t a =>
    rw [RadixTree.erase]
    split
    · trivial
    · exact h
  | inner c ih => exact (tagged_update h (ih _ (h _) _)).contract

/-! ### Trees of a root -/

section Root

omit [DecidableEq κ]

/-- An inner node, with every leaf on the path of its key and two items under every other inner
node. -/
structure Rooted (t : RadixTree b τ α) : Prop where
  placed : t.Placed 0
  root : ∃ c, t = inner c ∧ ∀ i, (c i).Dense

theorem Placed.mem_child_iff {c' : Fin b → RadixTree b τ α} (h : (inner c).Placed d)
    (h' : (inner c').Placed d) (hit : ∀ x, x ∈ (inner c).items ↔ x ∈ (inner c').items)
    (i : Fin b) (a : α) : a ∈ (c i).items ↔ a ∈ (c' i).items := by
  constructor
  · intro ha
    obtain ⟨j, hj⟩ := mem_items_inner.mp ((hit a).mp (mem_items_inner.mpr ⟨i, ha⟩))
    have hij : i = j := by rw [← (h.2 i).1 a ha, (h'.2 j).1 a hj]
    exact hij ▸ hj
  · intro ha
    obtain ⟨j, hj⟩ := mem_items_inner.mp ((hit a).mpr (mem_items_inner.mpr ⟨i, ha⟩))
    have hij : i = j := by rw [← (h'.2 i).1 a ha, (h.2 j).1 a hj]
    exact hij ▸ hj

theorem Dense.eq_of_items (hde : t.Dense)
    (hde' : t'.Dense) (hpl : t.Placed d) (hpl' : t'.Placed d) (hta : t.Tagged tag)
    (hta' : t'.Tagged tag) (hit : ∀ x, x ∈ t.items ↔ x ∈ t'.items) : t = t' := by
  induction t generalizing t' d with
  | empty =>
    by_contra hne
    obtain ⟨a, ha⟩ := hde'.exists_item (Ne.symm hne)
    exact absurd ((hit a).mpr ha) not_mem_nil
  | leaf s a =>
    cases t' with
    | empty => exact absurd ((hit a).mp (mem_singleton_self a)) not_mem_nil
    | leaf s' a' =>
      have haa' : a = a' := mem_singleton.mp ((hit a).mp (mem_singleton_self a))
      rw [haa', hta, hta']
    | inner c' =>
      obtain ⟨x, hx, y, hy, hne⟩ := hde'.1
      rw [mem_singleton.mp ((hit x).mpr hx), mem_singleton.mp ((hit y).mpr hy)] at hne
      exact absurd rfl hne
  | inner c ih =>
    obtain ⟨x, hx, y, hy, hne⟩ := hde.1
    cases t' with
    | empty => exact absurd ((hit x).mp hx) not_mem_nil
    | leaf s' a' =>
      rw [mem_singleton.mp ((hit x).mp hx), mem_singleton.mp ((hit y).mp hy)] at hne
      exact absurd rfl hne
    | inner c' =>
      have hch : ∀ i, c i = c' i := by
        intro i
        exact ih i (hde.2 i) (hde'.2 i) (hpl.2 i).2 (hpl'.2 i).2 (hta i)
          (hta' i) (hpl.mem_child_iff hpl' hit i)
      exact congrArg inner (funext hch)

theorem Rooted.eq_of_items (h : t.Rooted) (h' : t'.Rooted) (hta : t.Tagged tag)
    (hta' : t'.Tagged tag) (hit : ∀ x, x ∈ t.items ↔ x ∈ t'.items) : t = t' := by
  obtain ⟨hpl, c, rfl, hde⟩ := h
  obtain ⟨hpl', c', rfl, hde'⟩ := h'
  refine congrArg inner (funext fun i => ?_)
  exact (hde i).eq_of_items (hde' i) (hpl.2 i).2 (hpl'.2 i).2 (hta i) (hta' i)
    (hpl.mem_child_iff hpl' hit i)

theorem rooted_empty (hpo : 0 < height κ) : (inner fun _ => empty : RadixTree b τ α).Rooted :=
  ⟨placed_empty_branches hpo, _, rfl, fun _ => trivial⟩

theorem Rooted.of_update (hpl : (inner (update c i t)).Placed 0) (hc : ∀ j, (c j).Dense)
    (ht : t.Dense) :
    (inner (update c i t)).Rooted := by
  refine ⟨hpl, _, rfl, fun j => ?_⟩
  obtain rfl | hji := eq_or_ne j i
  · rwa [update_self]
  · rw [update_of_ne hji]
    exact hc j

end Root

theorem Rooted.insert (h : t.Rooted) (tag : τ) (hab : ∀ x ∈ t.items, key x ≠ key a) :
    (t.insert tag a 0).Rooted ∧ ∀ x, x ∈ (t.insert tag a 0).items ↔ x = a ∨ x ∈ t.items := by
  have hin := isInsert_insert tag h.placed (under_zero t (key a)) hab (Nat.zero_le _)
  refine ⟨?_, hin.mem_items⟩
  obtain ⟨hpl, c, rfl, hde⟩ := h
  have hb := isInsert_insert tag (hpl.2 _).2 ((under_zero (inner c) (key a)).child hpl)
    (fun x hx => hab x (mem_items_inner.mpr ⟨_, hx⟩)) hpl.1
  exact .of_update hin.placed hde (hb.dense (hde _))

theorem Rooted.replace (h : t.Rooted) (tag : τ) (a : α) :
    (t.replace tag a 0).Rooted ∧ ∀ x, x ∈ (t.replace tag a 0).items ↔
      (x = a ∧ ∃ y ∈ t.items, key y = key a) ∨ (x ∈ t.items ∧ key x ≠ key a) := by
  have hre := isReplace_replace tag (a := a) h.placed
  refine ⟨?_, hre.mem_items⟩
  obtain ⟨hpl, c, rfl, hde⟩ := h
  have hb := isReplace_replace tag (a := a) (hpl.2 (digit 0 (key a))).2
  exact .of_update hre.placed hde (hb.dense (hde _))

theorem Rooted.eraseRoot (h : t.Rooted) (tag : τ) (k : κ) : (t.eraseRoot tag k).Rooted ∧
      ∀ x, x ∈ (t.eraseRoot tag k).items ↔ x ∈ t.items ∧ key x ≠ k := by
  obtain ⟨hpl, c, rfl, hde⟩ := h
  have hb := isErase_erase tag (k := k) (hpl.2 (digit 0 k)).2 (hde _)
  obtain ⟨hm, hpl'⟩ := isErase_update hpl hb
  exact ⟨.of_update hpl' hde hb.dense, hm⟩

theorem Tagged.eraseRoot (h : t.Tagged tag) (k : κ) : (t.eraseRoot tag k).Tagged tag := by
  cases t with
  | empty => trivial
  | leaf t a => exact h
  | inner c => exact tagged_update h ((h _).erase k 1)

end RadixTree
