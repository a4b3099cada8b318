import Mathlib.Data.List.AList
import Mathlib.Algebra.Order.BigOperators.Group.Finset
import Mathlib.Algebra.Ring.Int.Defs

/-!
# Finite maps with overlays and totals

A table of pending writes over a base map, and the sum of a measure over the entries.
-/

namespace FiniteMap

open List AList

variable {α : Type} [DecidableEq α] {β γ : α → Type}

/-- Writes one cell: `none` removes the key. -/
def put (m : AList β) (a : α) : Option (β a) → AList β
  | none => m.erase a
  | some b => m.insert a b

@[simp]
theorem lookup_put_self (m : AList β) (a : α) (cell : Option (β a)) :
    (put m a cell).lookup a = cell := by
  cases cell with
  | none => exact lookup_erase a m
  | some b => exact lookup_insert m

theorem lookup_put_ne (m : AList β) {a a' : α} (cell : Option (β a)) (hne : a' ≠ a) :
    (put m a cell).lookup a' = m.lookup a' := by
  cases cell with
  | none => exact lookup_erase_ne hne
  | some b => exact lookup_insert_ne hne

/-! ## Overlays -/

/-- Applies the cell writes of pending items. -/
def overlayEntries (base : AList β) (write : ∀ a, γ a → Option (Option (β a))) :
    List (Sigma γ) → AList β
  | [] => base
  | ⟨a, item⟩ :: rest =>
    match write a item with
    | none => overlayEntries base write rest
    | some cell => put (overlayEntries base write rest) a cell

def overlay (base : AList β) (items : AList γ)
    (write : ∀ a, γ a → Option (Option (β a))) : AList β :=
  overlayEntries base write items.entries

theorem lookup_overlayEntries (base : AList β) (write : ∀ a, γ a → Option (Option (β a)))
    (es : List (Sigma γ)) (hnd : es.NodupKeys) (a : α) :
    (overlayEntries base write es).lookup a =
      ((es.dlookup a).bind (write a)).getD (base.lookup a) := by
  induction es with
  | nil => rfl
  | cons entry rest ih =>
    obtain ⟨k, item⟩ := entry
    have hrs := ih (nodupKeys_of_nodupKeys_cons hnd)
    have hfr : k ∉ rest.keys := notMem_keys_of_nodupKeys_cons hnd
    obtain rfl | hk := eq_or_ne a k
    · rw [dlookup_eq_none.mpr hfr] at hrs
      cases hw : write a item with
      | none => simpa [overlayEntries, hw] using hrs
      | some cell => simp [overlayEntries, hw]
    · rw [dlookup_cons_ne _ _ hk]
      cases hw : write k item with
      | none => simpa [overlayEntries, hw] using hrs
      | some cell =>
        simp only [overlayEntries, hw]
        rw [lookup_put_ne _ _ hk, hrs]

/-- The pending write of a key, or else the base. -/
theorem lookup_overlay (base : AList β) (its : AList γ)
    (write : ∀ a, γ a → Option (Option (β a))) (a : α) :
    (overlay base its write).lookup a = ((its.lookup a).bind (write a)).getD (base.lookup a) :=
  lookup_overlayEntries base write its.entries its.nodupKeys a

/-! ## Mapping -/

def filterMap (m : AList β) (f : ∀ a, β a → Option (γ a)) : AList γ where
  entries := m.entries.filterMap fun entry => (f entry.1 entry.2).map (Sigma.mk entry.1)
  nodupKeys := by
    have hks : (m.entries.filterMap fun entry =>
        (f entry.1 entry.2).map (Sigma.mk entry.1)).keys.Sublist m.entries.keys := by
      induction m.entries with
      | nil => exact List.Sublist.slnil
      | cons entry rest ih =>
        rw [filterMap_cons]
        cases f entry.1 entry.2 with
        | none => exact ih.cons _
        | some b => exact ih.cons_cons _
    exact List.Nodup.sublist hks m.nodupKeys

theorem mem_entries_filterMap {m : AList β} {f : ∀ a, β a → Option (γ a)} {a : α} {c : γ a} :
    ⟨a, c⟩ ∈ (filterMap m f).entries ↔ ∃ b, m.lookup a = some b ∧ f a b = some c := by
  simp only [filterMap, mem_filterMap, Option.map_eq_some_iff]
  constructor
  · rintro ⟨⟨a', b⟩, he, c', hkp, heq⟩
    cases heq
    exact ⟨b, mem_dlookup m.nodupKeys he, hkp⟩
  · rintro ⟨b, hlk, hkp⟩
    exact ⟨⟨a, b⟩, of_mem_dlookup hlk, c, hkp, rfl⟩

@[simp]
theorem lookup_filterMap (m : AList β) (f : ∀ a, β a → Option (γ a)) (a : α) :
    (filterMap m f).lookup a = (m.lookup a).bind (f a) := by
  ext c
  rw [Option.bind_eq_some_iff, ← mem_entries_filterMap]
  exact mem_dlookup_iff (filterMap m f).nodupKeys

/-! ## Totals -/

/-- The measure of the entry, zero for none. -/
def valueAt (f : ∀ a, β a → Int) (m : AList β) (a : α) : Int :=
  (m.lookup a).elim 0 (f a)

def total (f : ∀ a, β a → Int) (m : AList β) : Int :=
  (m.entries.map fun entry => f entry.1 entry.2).sum

section

variable (f : ∀ a, β a → Int)
include f

theorem sum_kerase (es : List (Sigma β)) (a : α) :
    ((es.kerase a).map fun entry => f entry.1 entry.2).sum =
      (es.map fun entry => f entry.1 entry.2).sum - (es.dlookup a).elim 0 (f a) := by
  induction es with
  | nil => rfl
  | cons entry rest ih =>
    obtain ⟨k, b⟩ := entry
    obtain rfl | hk := eq_or_ne a k
    · have hh : List.kerase a (⟨a, b⟩ :: rest) = rest := kerase_cons_eq rfl
      simp
    · rw [kerase_cons_ne hk, dlookup_cons_ne _ _ hk]
      simp only [map_cons, sum_cons, ih]
      omega

section

variable (m : AList β)
include m

theorem total_erase (a : α) : total f (m.erase a) = total f m - valueAt f m a :=
  sum_kerase f m.entries a

theorem total_insert (a : α) (b : β a) :
    total f (m.insert a b) = total f m - valueAt f m a + f a b := by
  have her := sum_kerase f m.entries a
  unfold total valueAt
  rw [entries_insert, map_cons, sum_cons, her]
  exact Int.add_comm _ _

theorem total_put (a : α) (cell : Option (β a)) :
    total f (put m a cell) = total f m - valueAt f m a + cell.elim 0 (f a) := by
  cases cell with
  | none => simpa [put] using total_erase f m a
  | some b => exact total_insert f m a b

theorem valueAt_put_self (a : α) (cell : Option (β a)) :
    valueAt f (put m a cell) a = cell.elim 0 (f a) := by
  rw [valueAt, lookup_put_self]

theorem valueAt_put_ne {a a' : α} (cell : Option (β a)) (hne : a' ≠ a) : valueAt f
    (put m a cell) a' = valueAt f m a' := by
  rw [valueAt, lookup_put_ne m cell hne, valueAt]

theorem total_eq_sum_keys : total f m = ∑ a ∈ m.keys.toFinset, valueAt f m a := by
  have hp : ∀ entry ∈ m.entries, f entry.1 entry.2 = valueAt f m entry.1 := by
    intro entry he
    obtain ⟨a, b⟩ := entry
    have hlk : m.lookup a = some b := mem_dlookup m.nodupKeys he
    simp [valueAt, hlk]
  have hks : total f m = (m.keys.map (valueAt f m)).sum := by
    rw [total, AList.keys, List.keys, map_map]
    exact congrArg List.sum (map_congr_left hp)
  rw [hks, sum_toFinset _ m.keys_nodup]

end

variable {m m' : AList β}

theorem total_congr (h : ∀ a, valueAt f m a = valueAt f m' a) : total f m = total f m' := by
  have ho : ∀ (n : AList β) (a : α), a ∉ n.keys.toFinset → valueAt f n a = 0 := by
    intro n a ha
    have hno : n.lookup a = none := AList.lookup_eq_none.mpr (by simpa [AList.mem_keys] using ha)
    simp [valueAt, hno]
  rw [total_eq_sum_keys, total_eq_sum_keys]
  calc ∑ a ∈ m.keys.toFinset, valueAt f m a
      = ∑ a ∈ m.keys.toFinset ∪ m'.keys.toFinset, valueAt f m a :=
        Finset.sum_subset Finset.subset_union_left fun a _ ha => ho m a ha
    _ = ∑ a ∈ m.keys.toFinset ∪ m'.keys.toFinset, valueAt f m' a :=
        Finset.sum_congr rfl fun a _ => h a
    _ = ∑ a ∈ m'.keys.toFinset, valueAt f m' a :=
        (Finset.sum_subset Finset.subset_union_right fun a _ ha => ho m' a ha).symm

theorem total_nonneg (m : AList β) (h : ∀ a, 0 ≤ valueAt f m a) : 0 ≤ total f m := by
  rw [total_eq_sum_keys]
  exact Finset.sum_nonneg fun a _ => h a

theorem valueAt_le_total (m : AList β) (h : ∀ a, 0 ≤ valueAt f m a) (a : α) :
    valueAt f m a ≤ total f m := by
  have hrs : 0 ≤ total f (m.erase a) := by
    apply total_nonneg
    intro k
    obtain rfl | hk := eq_or_ne k a
    · simp [valueAt, lookup_erase]
    · rw [valueAt, lookup_erase_ne hk]
      exact h k
  rw [total_erase] at hrs
  omega

theorem total_of_agree {a : α} (h : ∀ a', a' ≠ a → m'.lookup a' = m.lookup a') :
    total f m' = total f m - valueAt f m a + valueAt f m' a := by
  have hpu : total f m' = total f (put m a (m'.lookup a)) := by
    apply total_congr
    intro k
    obtain rfl | hk := eq_or_ne k a
    · rw [valueAt_put_self, valueAt]
    · rw [valueAt_put_ne _ _ _ hk, valueAt, h k hk, valueAt]
  rw [hpu, total_put]
  rfl

end

end FiniteMap
