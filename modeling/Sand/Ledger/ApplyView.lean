import Sand.Library.FiniteMap
import Sand.Ledger.Entry

/-!
# Writable views

A view holds the contents of its parent and a table of the entries it has checked out. Only
entries that were inserted, updated or erased reach the parent.
-/

namespace Sand

open FiniteMap List

structure LedgerInfo where
  isOpen : Bool
  seq : UInt32
  parentCloseTime : UInt32
  deriving DecidableEq

structure Fees where
  base : UInt64
  units : UInt32
  reserve : UInt32
  increment : UInt32
  deriving DecidableEq

def Fees.accountReserve (fees : Fees) (ownerCount : UInt32) : UInt64 :=
  fees.reserve.toUInt64 + ownerCount.toUInt64 * fees.increment.toUInt64

def tapNO_CHECK_SIGN : Flags := 0x01
def tapENABLE_TESTING : Flags := 0x02
def tapRETRY : Flags := 0x20
def tapADMIN : Flags := 0x400

inductive Action where
  | cache
  | erase
  | insert
  | modify
  deriving DecidableEq

abbrev Items := AList fun k : Key => Action × Entry k

/-- Credits received, by line and side, not to be spent again. -/
abbrev DeferredCredits := AList fun _ : AccountID × AccountID × Currency => STAmount × STAmount

/-- What every view over one ledger shares. -/
structure Context where
  info : LedgerInfo
  fees : Fees
  flags : Flags
  txs : List UInt256
  deriving DecidableEq

structure View where
  context : Context
  base : Ledger
  items : Items
  dropsCreated : UInt64
  dropsDestroyed : UInt64
  /-- Those of a payment sandbox, else `none`. -/
  tab : Option DeferredCredits
  /-- Those of the enclosing sandboxes, innermost first. -/
  parents : List DeferredCredits

namespace Action

def visible {k : Key} : Action × Entry k → Option (Entry k)
  | (.erase, _) => none
  | (_, sle) => some sle

/-- The cell an item writes, if any. -/
def committed {k : Key} : Action × Entry k → Option (Option (Entry k))
  | (.cache, _) => none
  | (.erase, _) => some none
  | (_, sle) => some (some sle)

theorem visible_eq_of_committed {k : Key} {item : Action × Entry k} {cell : Option (Entry k)}
    (h : committed item = some cell) : visible item = cell := by
  obtain ⟨action, sle⟩ := item
  cases action <;> simp_all [committed, visible]

end Action

namespace View

def get (v : View) (k : Key) : Option (Entry k) :=
  match v.items.lookup k with
  | some item => Action.visible item
  | none => v.base.lookup k

variable {v : View} {k k' : Key} {item : Action × Entry k}

theorem get_of_item (hi : v.items.lookup k = some item) : v.get k = Action.visible item := by
  rw [get, hi]

theorem get_of_none (hi : v.items.lookup k = none) : v.get k = v.base.lookup k := by
  rw [get, hi]

/-- The contents of the view as a ledger of its own. -/
def flatten (v : View) : Ledger :=
  FiniteMap.overlay v.base v.items fun _ item => some (Action.visible item)

/-- The parent's contents once the view is applied. -/
def commit (v : View) : Ledger :=
  FiniteMap.overlay v.base v.items fun _ item => Action.committed item

theorem lookup_flatten (v : View) (k : Key) : v.flatten.lookup k = v.get k := by
  rw [flatten, lookup_overlay, get]
  cases v.items.lookup k <;> rfl

/-- Each key has the view's entry or the parent's. -/
theorem lookup_commit (v : View) (k : Key) :
    v.commit.lookup k = v.get k ∨ v.commit.lookup k = v.base.lookup k := by
  rw [commit, lookup_overlay, get]
  cases hi : v.items.lookup k with
  | none => exact .inr rfl
  | some item =>
    cases hc : Action.committed item with
    | none => exact .inr (by simp [hc])
    | some cell => exact .inl (by simp [hc, Action.visible_eq_of_committed hc])

theorem lookup_commit_of_item (hi : v.items.lookup k = some item) (hwr : item.1 ≠ .cache) :
    v.commit.lookup k = v.get k := by
  rw [commit, lookup_overlay, get, hi]
  obtain ⟨action, sle⟩ := item
  cases action <;> simp_all [Action.committed, Action.visible]

theorem lookup_commit_of_none (hi : v.items.lookup k = none) :
    v.commit.lookup k = v.base.lookup k := by
  rw [commit, lookup_overlay, hi]
  rfl

def Writes (v : View) (k : Key) : Prop :=
  ∃ item, v.items.lookup k = some item ∧ item.1 ≠ .cache

theorem Writes.lookup_commit (h : v.Writes k) : v.commit.lookup k = v.get k := by
  obtain ⟨item, hi, hwr⟩ := h
  exact lookup_commit_of_item hi hwr

theorem writes_iff (hi : v.items.lookup k = some item) : v.Writes k ↔ item.1 ≠ .cache := by
  simp [Writes, hi]

theorem not_writes (hi : v.items.lookup k = none) : ¬ v.Writes k := by
  simp [Writes, hi]

def size (v : View) : Nat :=
  (v.items.entries.filter fun entry => decide (entry.2.1 ≠ .cache)).length

def Unwritten (v : View) : Prop :=
  ∀ k item, v.items.lookup k = some item → item.1 = .cache

theorem size_of_unwritten (h : v.Unwritten) : v.size = 0 := by
  rw [size, length_eq_zero_iff, filter_eq_nil_iff]
  intro entry he
  have hca : entry.2.1 = .cache := h entry.1 entry.2 (AList.mem_lookup_iff.mpr he)
  simp [hca]

def setItem (v : View) (k : Key) (item : Option (Action × Entry k)) : View :=
  { v with items := FiniteMap.put v.items k item }

theorem Unwritten.setItem (h : v.Unwritten) (k : Key) (sle : Entry k) :
    (v.setItem k (some (.cache, sle))).Unwritten := by
  intro k' item hi
  obtain rfl | hk := eq_or_ne k' k
  · rw [View.setItem, lookup_put_self] at hi
    cases hi
    rfl
  · rw [View.setItem, lookup_put_ne _ _ hk] at hi
    exact h k' item hi

variable (v)

@[simp]
theorem lookup_setItem (k : Key) (item : Action × Entry k) :
    (v.setItem k (some item)).items.lookup k = some item := by
  rw [setItem, lookup_put_self]

theorem lookup_setItem_ne (item : Option (Action × Entry k)) (hne : k' ≠ k) :
    (v.setItem k item).items.lookup k' = v.items.lookup k' := by
  rw [setItem, lookup_put_ne _ _ hne]

@[simp]
theorem base_setItem (k : Key) (item : Option (Action × Entry k)) :
    (v.setItem k item).base = v.base :=
  rfl

@[simp]
theorem context_setItem (k : Key) (item : Option (Action × Entry k)) :
    (v.setItem k item).context = v.context :=
  rfl

@[simp]
theorem setItem_setItem (k : Key) (item item' : Action × Entry k) :
    (v.setItem k (some item)).setItem k (some item') = v.setItem k (some item') := by
  simp [setItem, FiniteMap.put]

theorem get_setItem_ne (item : Option (Action × Entry k)) (hne : k' ≠ k) :
    (v.setItem k item).get k' = v.get k' := by
  simp [get, setItem, lookup_put_ne _ _ hne]

theorem lookup_commit_setItem_ne (item : Option (Action × Entry k)) (hne : k' ≠ k) :
    (v.setItem k item).commit.lookup k' = v.commit.lookup k' := by
  rw [commit, commit, lookup_overlay, lookup_overlay, lookup_setItem_ne v item hne, base_setItem]

theorem lookup_commit_setItem (k : Key) {act : Action} (sle : Entry k)
    (hwr : act ≠ .cache) (hke : act ≠ .erase) :
    (v.setItem k (some (act, sle))).commit.lookup k = some sle := by
  rw [lookup_commit_of_item (lookup_setItem v k (act, sle)) hwr,
    get_of_item (lookup_setItem v k (act, sle))]
  cases act <;> first | rfl | contradiction

theorem writes_setItem_ne (item : Option (Action × Entry k)) (hne : k' ≠ k) :
    (v.setItem k item).Writes k' ↔ v.Writes k' := by
  simp [Writes, lookup_setItem_ne v item hne]

theorem writes_setItem (k : Key) (item : Action × Entry k) :
    (v.setItem k (some item)).Writes k ↔ item.1 ≠ .cache :=
  writes_iff (lookup_setItem v k item)

theorem size_setItem_le (k : Key) (item : Action × Entry k) :
    (v.setItem k (some item)).size ≤ v.size + 1 := by
  have hs : (v.items.entries.kerase k).Sublist v.items.entries := kerase_sublist k v.items.entries
  have hf := (hs.filter fun entry => decide (entry.2.1 ≠ .cache)).length_le
  rw [size, setItem, FiniteMap.put, AList.entries_insert, filter_cons]
  split
  · simpa [size] using hf
  · exact Nat.le_succ_of_le hf

theorem get_setItem_some (k : Key) (item : Action × Entry k) :
    (v.setItem k (some item)).get k = Action.visible item := by
  simp [get, setItem, lookup_put_self]

theorem get_setItem_none (k : Key) : (v.setItem k none).get k = v.base.lookup k := by
  simp [get, setItem, lookup_put_self]

end View

end Sand
