import Sand.SHAMap.Family

/-!
# Hash tree maps

A node with the map's sequence number is changed in place, any other is copied first.
-/

namespace Sand

inductive SHAMapState where
  | Modifying
  | Immutable
  | Synching
  | Floating
  | Invalid
  deriving DecidableEq

structure SHAMap where
  seq_ : ℕ
  root_ : NodeRef
  state_ : SHAMapState
  backed_ : Bool := true

namespace SHAMap

open Family

def make (seq : ℕ) : FamilyM SHAMap := do
  let root ← alloc (.inner { mSeq := seq })
  return { seq_ := seq, root_ := root, state_ := .Modifying }

def leafType (isTransaction hasMeta : Bool) : TNType :=
  if !isTransaction then .tnACCOUNT_STATE
  else if hasMeta then .tnTRANSACTION_MD else .tnTRANSACTION_NM

/-- Nodes with their places, the deepest first. -/
abbrev NodeStack := List (NodeRef × SHAMapNodeID)

variable [Sha512Half] (m : SHAMap)

def walkToPointer (id : UInt256) (fuel : ℕ) (node : NodeRef) (nodeID : SHAMapNodeID) :
    FamilyM (Option SHAMapTreeNode) := do
  match ← load node with
  | .leaf leaf => return if leaf.mItem.key = id then some leaf else none
  | .inner inner =>
    match fuel with
    | 0 => throw .undefined
    | fuel + 1 =>
      let branch := nodeID.selectBranch id
      if inner.isEmptyBranch branch then return none
      else
        let child ← descendThrow m.backed_ node branch
        walkToPointer id fuel child (nodeID.getChildNodeID branch)

variable (id : UInt256)

def peekItem : FamilyM (Option SHAMapItem) := do
  let leaf ← m.walkToPointer id 64 m.root_ {}
  return leaf.map SHAMapTreeNode.mItem

def hasItem : FamilyM Bool := do
  let leaf ← m.walkToPointer id 64 m.root_ {}
  return leaf.isSome

def getStackLoop (id : UInt256) (includeNonmatchingLeaf : Bool) (fuel : ℕ) (node : NodeRef)
    (nodeID : SHAMapNodeID) (stack : NodeStack) : FamilyM NodeStack := do
  match ← load node with
  | .leaf leaf =>
    return if includeNonmatchingLeaf ∨ leaf.mItem.key = id then (node, nodeID) :: stack
      else stack
  | .inner inner =>
    match fuel with
    | 0 => throw .undefined
    | fuel + 1 =>
      let branch := nodeID.selectBranch id
      if inner.isEmptyBranch branch then return (node, nodeID) :: stack
      else
        let child ← descendThrow m.backed_ node branch
        getStackLoop id includeNonmatchingLeaf fuel child (nodeID.getChildNodeID branch)
          ((node, nodeID) :: stack)

def getStack (includeNonmatchingLeaf : Bool) : FamilyM NodeStack :=
  m.getStackLoop id includeNonmatchingLeaf 64 m.root_ {} []

/-- The node if it is the map's own, else a copy. -/
def unshareNode (node : NodeRef) (nodeID : SHAMapNodeID) : FamilyM (NodeRef × SHAMap) := do
  let n ← load node
  if n.getSeq ≠ m.seq_ then
    let copy ← alloc (n.clone m.seq_)
    return (copy, if nodeID.isRoot then { m with root_ := copy } else m)
  else
    return (node, m)

def replaceChild (node : NodeRef) (nodeID : SHAMapNodeID) (branch : Fin 16)
    (child : Option NodeRef) : FamilyM (NodeRef × SHAMap) := do
  let (node, m) ← m.unshareNode node nodeID
  let inner ← loadInner node
  store node (.inner (inner.setChild branch child))
  return (node, m)

/-- Hooks a node to its parent, and so on to the root. -/
def dirtyUp (target : UInt256) : SHAMap → NodeStack → NodeRef → FamilyM SHAMap
  | m, [], _ => return m
  | m, (node, nodeID) :: stack, child => do
    let (node, m) ← m.replaceChild node nodeID (nodeID.selectBranch target) (some child)
    dirtyUp target m stack node

/-- Down to the place where two keys part. -/
def splitLoop (tag other : UInt256) :
    ℕ → NodeRef → SHAMapNodeID → NodeStack → FamilyM (NodeRef × SHAMapNodeID × NodeStack)
  | 0, _, _, _ => throw .undefined
  | fuel + 1, node, nodeID, stack => do
    let b1 := nodeID.selectBranch tag
    if b1 = nodeID.selectBranch other then
      let below ← alloc (.inner { mSeq := m.seq_ })
      splitLoop tag other fuel below (nodeID.getChildNodeID b1) ((node, nodeID) :: stack)
    else
      return (node, nodeID, stack)

variable (item : SHAMapItem)

def hookLeaf (type : TNType) (node : NodeRef) (branch : Fin 16) :
    FamilyM Unit := do
  let leaf ← alloc (.leaf (SHAMapTreeNode.make item type m.seq_))
  let inner ← loadInner node
  store node (.inner (inner.setChild branch (some leaf)))

/-- A tree of two items below a new node. -/
def splitLeaf (item otherItem : SHAMapItem) (type : TNType) (fuel : ℕ) (node : NodeRef)
    (nodeID : SHAMapNodeID) (stack : NodeStack) : FamilyM (Bool × SHAMap) := do
  let (node, nodeID, stack) ← m.splitLoop item.key otherItem.key fuel node nodeID stack
  m.hookLeaf item type node (nodeID.selectBranch item.key)
  m.hookLeaf otherItem type node (nodeID.selectBranch otherItem.key)
  let m ← m.dirtyUp item.key stack node
  return (true, m)

/-- At the node where the walk along its key ends. -/
def addAt (type : TNType) (node : NodeRef) (nodeID : SHAMapNodeID)
    (stack : NodeStack) : FamilyM (Bool × SHAMap) := do
  let tag := item.key
  match ← load node with
  | .inner _ =>
    let (node, m) ← m.unshareNode node nodeID
    m.hookLeaf item type node (nodeID.selectBranch tag)
    let m ← m.dirtyUp tag stack node
    return (true, m)
  | .leaf leaf =>
    if leaf.mItem.key = tag then return (false, m)
    else
      -- the leaf becomes an inner node that holds two items
      let otherItem := leaf.mItem
      let (node, m) ← m.unshareNode node nodeID
      let own ← load node
      let node ← alloc (.inner { mSeq := own.getSeq })
      m.splitLeaf item otherItem type (64 - nodeID.mDepth) node nodeID stack

def addGiveItem (isTransaction hasMeta : Bool) : FamilyM (Bool × SHAMap) := do
  match ← m.getStack item.key true with
  | [] => throw (.missingNode item.key)
  | (node, nodeID) :: stack => m.addAt item (leafType isTransaction hasMeta) node nodeID stack

def updateGiveItem (isTransaction hasMeta : Bool) :
    FamilyM (Bool × SHAMap) := do
  let tag := item.key
  match ← m.getStack tag true with
  | [] => throw (.missingNode tag)
  | (node, nodeID) :: stack =>
    match ← load node with
    | .inner _ => return (false, m)
    | .leaf leaf =>
      if leaf.mItem.key ≠ tag then return (false, m)
      else
        let (node, m) ← m.unshareNode node nodeID
        let (changed, leaf) := (leaf.clone m.seq_).setItem item (leafType isTransaction hasMeta)
        store node (.leaf leaf)
        if changed then
          let m ← m.dirtyUp tag stack node
          return (true, m)
        else
          return (true, m)

def onlyBelow (fuel : ℕ) (node : NodeRef) : FamilyM (Option SHAMapItem) := do
  match ← load node with
  | .leaf leaf => return some leaf.mItem
  | .inner inner =>
    match fuel with
    | 0 => throw .undefined
    | fuel + 1 =>
      match (List.finRange 16).filter inner.mIsBranch with
      | [] => return none
      | i :: rest =>
        let nextNode ← descendThrow m.backed_ node i
        if rest.isEmpty then onlyBelow fuel nextNode else return none

def dropChild (inner : SHAMapInnerNode) : SHAMapInnerNode :=
  match (List.finRange 16).find? inner.mIsBranch with
  | some i => inner.setChild i none
  | none => inner

def delLoop (id : UInt256) (type : TNType) :
    SHAMap → NodeStack → Option NodeRef → FamilyM SHAMap
  | m, [], _ => return m
  | m, (node, nodeID) :: stack, prevNode => do
    let (node, m) ← m.replaceChild node nodeID (nodeID.selectBranch id) prevNode
    let inner ← loadInner node
    if nodeID.isRoot then delLoop id type m stack prevNode
    else if inner.getBranchCount = 0 then delLoop id type m stack none
    else if inner.getBranchCount = 1 then
      match ← m.onlyBelow 64 node with
      | some item =>
        store node (.inner (dropChild inner))
        let leaf ← alloc (.leaf (SHAMapTreeNode.make item type inner.mSeq))
        delLoop id type m stack (some leaf)
      | none => delLoop id type m stack (some node)
    else
      delLoop id type m stack (some node)

def delItem : FamilyM (Bool × SHAMap) := do
  match ← m.getStack id true with
  | [] => throw (.missingNode id)
  | (node, _) :: stack =>
    match ← load node with
    | .inner _ => return (false, m)
    | .leaf leaf =>
      if leaf.mItem.key ≠ id then return (false, m)
      else
        let m ← m.delLoop id leaf.mType stack none
        return (true, m)

end SHAMap

end Sand
