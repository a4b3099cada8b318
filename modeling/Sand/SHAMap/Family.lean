import Sand.SHAMap.Wire

/-!
# The family of maps

Maps share their node objects, a cache of nodes by hash, the node store and the full-below cache.
-/

namespace Sand

open Function

/-- `undefined`: a null pointer, or a read behind a key's digits. -/
inductive SHAMapError where
  | missingNode (hash : UInt256)
  | runtimeError (message : String)
  | undefined
  deriving DecidableEq

structure Family where
  object : NodeRef → Option SHAMapAbstractNode
  next : ℕ
  treecache : UInt256 → Option NodeRef
  db : UInt256 → Option Blob
  fullbelow : UInt256 → Bool
  generation : ℕ

abbrev FamilyM := StateT Family (Except SHAMapError)

namespace Family

theorem run_bind {β γ : Type} {x : FamilyM β} {g : β → FamilyM γ} {f f1 : Family} {a : β}
    (h : x f = .ok (a, f1)) : (x >>= g) f = g a f1 := by
  simp [bind, StateT.bind, h, Except.bind]

theorem run_pure {β : Type} (a : β) (f : Family) : (pure a : FamilyM β) f = .ok (a, f) := rfl

variable (r : NodeRef)

def load : FamilyM SHAMapAbstractNode := fun f =>
  match f.object r with
  | some n => .ok (n, f)
  | none => .error .undefined

def loadInner : FamilyM SHAMapInnerNode := fun f =>
  match f.object r with
  | some (.inner n) => .ok (n, f)
  | _ => .error .undefined

def put (f : Family) (r : NodeRef) (n : SHAMapAbstractNode) : Family :=
  { f with object := update f.object r (some n) }

def add (f : Family) (n : SHAMapAbstractNode) : Family :=
  { f with object := update f.object f.next (some n), next := f.next + 1 }

def store (n : SHAMapAbstractNode) : FamilyM Unit := fun f => .ok ((), f.put r n)

def alloc (n : SHAMapAbstractNode) : FamilyM NodeRef := fun f => .ok (f.next, f.add n)

/-- The cached node takes its place, or it is cached. -/
def canonicalize (hash : UInt256) (node : NodeRef) : FamilyM NodeRef := fun f =>
  match f.treecache hash with
  | some cached => .ok (cached, f)
  | none => .ok (node, { f with treecache := update f.treecache hash (some node) })

variable [Sha512Half] (backed : Bool)

def fetchNodeFromDB (hash : UInt256) : FamilyM (Option NodeRef) := do
  let f ← get
  if backed then
    match f.db hash with
    | none => return none
    | some raw =>
      match SHAMapAbstractNode.make raw 0 .snfPREFIX hash true with
      | .ok (some n) =>
        let node ← alloc n
        return some (← canonicalize hash node)
      | _ => return none
  else
    return none

def fetchNodeNT (hash : UInt256) : FamilyM (Option NodeRef) := do
  let f ← get
  match f.treecache hash with
  | some node => return some node
  | none => fetchNodeFromDB backed hash

/-- Hooks a node, or gives the one already hooked. -/
def canonicalizeChild (parent : NodeRef) (branch : Fin 16) (node : NodeRef) : FamilyM NodeRef := do
  let inner ← loadInner parent
  match inner.mChildren branch with
  | some child => return child
  | none =>
    store parent (.inner (inner.shareChild branch node))
    return node

def descend (parent : NodeRef) (branch : Fin 16) : FamilyM (Option NodeRef) := do
  let inner ← loadInner parent
  match inner.mChildren branch with
  | some child => return some child
  | none =>
    if backed then
      match ← fetchNodeNT backed (inner.mHashes branch) with
      | some node => return some (← canonicalizeChild parent branch node)
      | none => return none
    else
      return none

def descendThrow (parent : NodeRef) (branch : Fin 16) : FamilyM NodeRef := do
  match ← descend backed parent branch with
  | some node => return node
  | none =>
    let inner ← loadInner parent
    if inner.isEmptyBranch branch then throw .undefined
    else throw (.missingNode (inner.mHashes branch))

section Run

omit [Sha512Half]

variable {f : Family} {r : NodeRef} {n : SHAMapAbstractNode}

theorem load_eq (h : f.object r = some n) : load r f = .ok (n, f) := by
  simp [load, h]

theorem loadInner_eq {n : SHAMapInnerNode} (h : f.object r = some (.inner n)) :
    loadInner r f = .ok (n, f) := by
  simp [loadInner, h]

theorem put_eq_self (h : f.object r = some n) : f.put r n = f := by
  rw [put, ← h, update_eq_self]

variable (f r n)

@[simp]
theorem object_put_self : (f.put r n).object r = some n := by
  simp [put]

theorem object_put_ne {r r' : NodeRef} (h : r' ≠ r) : (f.put r n).object r' = f.object r' := by
  simp [put, h]

@[simp]
theorem next_put : (f.put r n).next = f.next := rfl

@[simp]
theorem treecache_put : (f.put r n).treecache = f.treecache := rfl

@[simp]
theorem object_add_self : (f.add n).object f.next = some n := by
  simp [add]

theorem object_add_ne {r : NodeRef} (h : r ≠ f.next) : (f.add n).object r = f.object r := by
  simp [add, h]

@[simp]
theorem next_add : (f.add n).next = f.next + 1 := rfl

end Run

theorem descendThrow_eq {f : Family} {r ch : NodeRef} {n : SHAMapInnerNode} {br : Fin 16}
    (h : f.object r = some (.inner n)) (hch : n.mChildren br = some ch) :
    descendThrow backed r br f = .ok (ch, f) := by
  have hd : descend backed r br f = .ok (some ch, f) := by
    rw [descend, run_bind (loadInner_eq h)]
    simp only [hch]
    rfl
  rw [descendThrow, run_bind hd]
  rfl

end Family

end Sand
