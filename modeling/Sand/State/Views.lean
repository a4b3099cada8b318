import Sand.Protocol.Types

/-!
# Views

Tables of buffered changes stand between the code and the ledger.
-/

namespace Sand

open Function

/-- Keys are ordered as numbers. -/
instance : LinearOrder UInt256 where
  le_refl _ := BitVec.le_refl _
  le_trans _ _ _ := BitVec.le_trans
  le_antisymm _ _ := BitVec.le_antisymm
  le_total := BitVec.le_total
  lt_iff_le_not_ge a b := by
    rw [BitVec.lt_def, BitVec.le_def, BitVec.le_def]
    omega
  toDecidableLE := inferInstance
  toDecidableEq := inferInstance
  toDecidableLT := inferInstance

/-- The process ends with a message. -/
structure LogicError where
  text : String
  deriving DecidableEq

/-- Its key is fixed when it is made. -/
structure SLE (κ ν : Type) where
  key : κ
  value : ν

/-- A shared pointer to an entry object. -/
abbrev Ref := Nat

/-- Those below `next` have been made. -/
structure Memory (κ ν : Type) where
  object : Ref → SLE κ ν
  next : Ref

namespace Memory

variable {κ ν : Type}

/-- Makes an object; its pointer is the old `next`. -/
def make (mem : Memory κ ν) (sle : SLE κ ν) : Memory κ ν where
  object := update mem.object mem.next sle
  next := mem.next + 1

def change (mem : Memory κ ν) (r : Ref) (f : ν → ν) : Memory κ ν where
  object := update mem.object r ⟨(mem.object r).key, f (mem.object r).value⟩
  next := mem.next

section

variable (mem : Memory κ ν)
include mem

theorem object_make_self (sle : SLE κ ν) : (mem.make sle).object mem.next = sle := by
  simp [make]

theorem object_make_ne (sle : SLE κ ν) {r : Ref} (h : r ≠ mem.next) :
    (mem.make sle).object r = mem.object r := by
  simp [make, h]

theorem object_change_self (r : Ref) (f : ν → ν) :
    (mem.change r f).object r = ⟨(mem.object r).key, f (mem.object r).value⟩ := by
  simp [change]

theorem object_change_ne {r r' : Ref} (f : ν → ν) (h : r' ≠ r) :
    (mem.change r f).object r' = mem.object r' := by
  simp [change, h]

@[simp]
theorem key_change (r r' : Ref) (f : ν → ν) :
    ((mem.change r f).object r').key = (mem.object r').key := by
  by_cases h : r' = r
  · rw [h, object_change_self]
  · rw [object_change_ne mem f h]

end

end Memory

/-- A key and the kind expected under it. -/
structure Keylet (κ ν : Type) where
  key : κ
  check : ν → Bool

structure ReadView (κ ν : Type) where
  read : Keylet κ ν → Option ν
  existsKey : Keylet κ ν → Bool
  /-- The least above the first and, if given, below the second. -/
  succ : κ → Option κ → Option κ

/-- What can be written to a view. -/
class RawView (κ ν σ : Type) where
  rawErase : Memory κ ν → Ref → σ → Except LogicError σ
  rawInsert : Memory κ ν → Ref → σ → Except LogicError σ
  rawReplace : Memory κ ν → Ref → σ → Except LogicError σ

/-- The drops a view can be told of. -/
class RawDrops (σ : Type) where
  rawCreateXRP : UInt64 → σ → σ
  rawDestroyXRP : UInt64 → σ → σ

structure Store (κ ν : Type) where
  map : κ → Option ν
  dropsCreated : UInt64
  dropsDestroyed : UInt64

namespace Store

variable {κ ν : Type} [DecidableEq κ]

def rawErase (mem : Memory κ ν) (r : Ref) (s : Store κ ν) : Except LogicError (Store κ ν) :=
  let sle := mem.object r
  if (s.map sle.key).isNone then
    .error ⟨"Ledger::rawErase: key not found"⟩
  else
    .ok { s with map := update s.map sle.key none }

def rawInsert (mem : Memory κ ν) (r : Ref) (s : Store κ ν) : Except LogicError (Store κ ν) :=
  let sle := mem.object r
  if (s.map sle.key).isSome then
    .error ⟨"Ledger::rawInsert: key already exists"⟩
  else
    .ok { s with map := update s.map sle.key (some sle.value) }

def rawReplace (mem : Memory κ ν) (r : Ref) (s : Store κ ν) : Except LogicError (Store κ ν) :=
  let sle := mem.object r
  if (s.map sle.key).isNone then
    .error ⟨"Ledger::rawReplace: key not found"⟩
  else
    .ok { s with map := update s.map sle.key (some sle.value) }

instance : RawView κ ν (Store κ ν) where
  rawErase := rawErase
  rawInsert := rawInsert
  rawReplace := rawReplace

instance : RawDrops (Store κ ν) where
  rawCreateXRP drops s := { s with dropsCreated := s.dropsCreated + drops }
  rawDestroyXRP drops s := { s with dropsDestroyed := s.dropsDestroyed + drops }

end Store

end Sand
