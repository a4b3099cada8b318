import Sand.Ledger.ApplyView
import Sand.Library.OrderedMap
import Sand.State.Views

/-!
# Tables of buffered changes

For every entry looked up to be changed, the object handed out and what became of it; and the
changes that are written to an open ledger.
-/

namespace Sand

structure ApplyStateTable (κ : Type) [LinearOrder κ] where
  items : OrderedMap κ (Action × Ref)
  dropsDestroyed : UInt64
  dropsCreated : UInt64

namespace ApplyStateTable

variable {κ ν : Type} [LinearOrder κ]

def empty : ApplyStateTable κ :=
  ⟨.empty, 0, 0⟩

def writeItem {σ : Type} [RawView κ ν σ] (mem : Memory κ ν) (target : σ)
    (item : κ × Action × Ref) : Except LogicError σ :=
  match item.2.1 with
  | .cache => .ok target
  | .erase => RawView.rawErase mem item.2.2 target
  | .insert => RawView.rawInsert mem item.2.2 target
  | .modify => RawView.rawReplace mem item.2.2 target

variable (t : ApplyStateTable κ)

def apply {σ : Type} [RawDrops σ] [RawView κ ν σ] (mem : Memory κ ν)
    (target : σ) : Except LogicError σ :=
  t.items.entries.foldlM (writeItem mem)
    (RawDrops.rawDestroyXRP t.dropsDestroyed (RawDrops.rawCreateXRP t.dropsCreated target))

def existsKey (mem : Memory κ ν) (base : ReadView κ ν)
    (k : Keylet κ ν) : Bool :=
  match t.items.find k.key with
  | none => base.existsKey k
  | some (.erase, _) => false
  | some (_, r) => k.check (mem.object r).value

def read (mem : Memory κ ν) (base : ReadView κ ν) (k : Keylet κ ν) :
    Option ν :=
  match t.items.find k.key with
  | none => base.read k
  | some (.erase, _) => none
  | some (_, r) => if k.check (mem.object r).value then some (mem.object r).value else none

/-- Made if the base has the entry. -/
def peek (mem : Memory κ ν) (base : ReadView κ ν) (k : Keylet κ ν) :
    Option Ref × Memory κ ν × ApplyStateTable κ :=
  match t.items.find k.key with
  | none =>
    match base.read k with
    | none => (none, mem, t)
    | some value =>
      (some mem.next, mem.make ⟨k.key, value⟩,
        { t with items := t.items.insert k.key (.cache, mem.next) })
  | some (.erase, _) => (none, mem, t)
  | some (_, r) => (if k.check (mem.object r).value then some r else none, mem, t)

def erase (t : ApplyStateTable κ) (mem : Memory κ ν) (r : Ref) :
    Except LogicError (ApplyStateTable κ) :=
  let key := (mem.object r).key
  match t.items.find key with
  | none => .error ⟨"ApplyStateTable::erase: missing key"⟩
  | some (action, r') =>
    if r' ≠ r then
      .error ⟨"ApplyStateTable::erase: unknown SLE"⟩
    else
      match action with
      | .erase => .error ⟨"ApplyStateTable::erase: double erase"⟩
      | .insert => .ok { t with items := t.items.erase key }
      | .cache | .modify => .ok { t with items := t.items.insert key (.erase, r') }

def rawErase (t : ApplyStateTable κ) (mem : Memory κ ν) (r : Ref) :
    Except LogicError (ApplyStateTable κ) :=
  let key := (mem.object r).key
  match t.items.find key with
  | none => .ok { t with items := t.items.insert key (.erase, r) }
  | some (.erase, _) => .error ⟨"ApplyStateTable::rawErase: double erase"⟩
  | some (.insert, _) => .ok { t with items := t.items.erase key }
  | some (.cache, _) | some (.modify, _) =>
    .ok { t with items := t.items.insert key (.erase, r) }

def insert (t : ApplyStateTable κ) (mem : Memory κ ν) (r : Ref) :
    Except LogicError (ApplyStateTable κ) :=
  let key := (mem.object r).key
  match t.items.find key with
  | none => .ok { t with items := t.items.insert key (.insert, r) }
  | some (.cache, _) => .error ⟨"ApplyStateTable::insert: already cached"⟩
  | some (.insert, _) => .error ⟨"ApplyStateTable::insert: already inserted"⟩
  | some (.modify, _) => .error ⟨"ApplyStateTable::insert: already modified"⟩
  | some (.erase, _) => .ok { t with items := t.items.insert key (.modify, r) }

def replace (t : ApplyStateTable κ) (mem : Memory κ ν) (r : Ref) :
    Except LogicError (ApplyStateTable κ) :=
  let key := (mem.object r).key
  match t.items.find key with
  | none => .ok { t with items := t.items.insert key (.modify, r) }
  | some (.erase, _) => .error ⟨"ApplyStateTable::replace: already erased"⟩
  | some (.cache, _) => .ok { t with items := t.items.insert key (.modify, r) }
  | some (.insert, _) => .ok { t with items := t.items.insert key (.insert, r) }
  | some (.modify, _) => .ok { t with items := t.items.insert key (.modify, r) }

def update (t : ApplyStateTable κ) (mem : Memory κ ν) (r : Ref) :
    Except LogicError (ApplyStateTable κ) :=
  let key := (mem.object r).key
  match t.items.find key with
  | none => .error ⟨"ApplyStateTable::update: missing key"⟩
  | some (action, r') =>
    if r' ≠ r then
      .error ⟨"ApplyStateTable::update: unknown SLE"⟩
    else
      match action with
      | .erase => .error ⟨"ApplyStateTable::update: erased"⟩
      | .cache => .ok { t with items := t.items.insert key (.modify, r') }
      | .insert | .modify => .ok t

def destroyXRP (feeDrops : UInt64) : ApplyStateTable κ :=
  { t with dropsDestroyed := t.dropsDestroyed + feeDrops }

def createXRP (feeDrops : UInt64) : ApplyStateTable κ :=
  { t with dropsCreated := t.dropsCreated + feeDrops }

end ApplyStateTable

/-! ## The table of a view that is being written to -/

inductive RawAction where
  | erase
  | insert
  | replace
  deriving DecidableEq

structure RawStateTable (κ : Type) [LinearOrder κ] where
  items : OrderedMap κ (RawAction × Ref)
  dropsDestroyed : UInt64
  dropsCreated : UInt64

namespace RawStateTable

variable {κ ν : Type} [LinearOrder κ]

def empty : RawStateTable κ :=
  ⟨.empty, 0, 0⟩

def writeItem {σ : Type} [RawView κ ν σ] (mem : Memory κ ν) (target : σ)
    (item : κ × RawAction × Ref) : Except LogicError σ :=
  match item.2.1 with
  | .erase => RawView.rawErase mem item.2.2 target
  | .insert => RawView.rawInsert mem item.2.2 target
  | .replace => RawView.rawReplace mem item.2.2 target

variable (t : RawStateTable κ)

def apply {σ : Type} [RawDrops σ] [RawView κ ν σ] (mem : Memory κ ν)
    (target : σ) : Except LogicError σ :=
  t.items.entries.foldlM (writeItem mem)
    (RawDrops.rawDestroyXRP t.dropsDestroyed (RawDrops.rawCreateXRP t.dropsCreated target))

def existsKey (mem : Memory κ ν) (base : ReadView κ ν) (k : Keylet κ ν) :
    Bool :=
  match t.items.find k.key with
  | none => base.existsKey k
  | some (.erase, _) => false
  | some (_, r) => k.check (mem.object r).value

def read (mem : Memory κ ν) (base : ReadView κ ν) (k : Keylet κ ν) :
    Option ν :=
  match t.items.find k.key with
  | none => base.read k
  | some (.erase, _) => none
  | some (_, r) => if k.check (mem.object r).value then some (mem.object r).value else none

def erase (mem : Memory κ ν) (r : Ref) (t : RawStateTable κ) :
    Except LogicError (RawStateTable κ) :=
  let key := (mem.object r).key
  match t.items.find key with
  | none => .ok { t with items := t.items.insert key (.erase, r) }
  | some (.erase, _) => .error ⟨"RawStateTable::erase: already erased"⟩
  | some (.insert, _) => .ok { t with items := t.items.erase key }
  | some (.replace, _) => .ok { t with items := t.items.insert key (.erase, r) }

def insert (mem : Memory κ ν) (r : Ref) (t : RawStateTable κ) :
    Except LogicError (RawStateTable κ) :=
  let key := (mem.object r).key
  match t.items.find key with
  | none => .ok { t with items := t.items.insert key (.insert, r) }
  | some (.erase, _) => .ok { t with items := t.items.insert key (.replace, r) }
  | some (.insert, _) => .error ⟨"RawStateTable::insert: already inserted"⟩
  | some (.replace, _) => .error ⟨"RawStateTable::insert: already exists"⟩

def replace (mem : Memory κ ν) (r : Ref) (t : RawStateTable κ) :
    Except LogicError (RawStateTable κ) :=
  let key := (mem.object r).key
  match t.items.find key with
  | none => .ok { t with items := t.items.insert key (.replace, r) }
  | some (.erase, _) => .error ⟨"RawStateTable::replace: was erased"⟩
  | some (action, _) => .ok { t with items := t.items.insert key (action, r) }

instance : RawView κ ν (RawStateTable κ) where
  rawErase := erase
  rawInsert := insert
  rawReplace := replace

instance : RawDrops (RawStateTable κ) where
  rawCreateXRP feeDrops t := { t with dropsCreated := t.dropsCreated + feeDrops }
  rawDestroyXRP feeDrops t := { t with dropsDestroyed := t.dropsDestroyed + feeDrops }

end RawStateTable

end Sand
