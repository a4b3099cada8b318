import Sand.Library.BigEndian
import Sand.Library.RadixOrder
import Sand.State.Views

/-!
# Nodes of a hash tree

Inner nodes with sixteen branches, and leaves that hold an item. A node's place in the tree is its
depth and the digits of the keys below it.
-/

namespace Sand

open Function BigEndian

namespace UInt256

variable (x : UInt256)

/-- As `base_uint` stores them. -/
def toBytes : Blob :=
  bytes 32 x.toNat

def ofBytes (l : Blob) : UInt256 :=
  BitVec.ofNat 256 (value l)

@[simp]
theorem length_toBytes : (toBytes x).length = 32 := length_bytes 32 x.toNat

@[simp]
theorem ofBytes_toBytes : ofBytes (toBytes x) = x := by
  rw [ofBytes, toBytes, value_bytes]
  apply BitVec.eq_of_toNat_eq
  have hx := x.isLt
  rw [BitVec.toNat_ofNat]
  omega

theorem toBytes_injective : Function.Injective toBytes :=
  Function.LeftInverse.injective ofBytes_toBytes

end UInt256

/-- The first half of the SHA-512 digest of a message. -/
class Sha512Half where
  sha512Half : Blob → UInt256

export Sha512Half (sha512Half)

/-- Digests tell messages apart, and none is zero. -/
def CollisionFree [Sha512Half] (messages : Set Blob) : Prop :=
  Set.InjOn sha512Half messages ∧ ∀ x ∈ messages, sha512Half x ≠ 0

/-! Four bytes before the hashed material put each kind of hash in its own space. -/

namespace HashPrefix

def transactionID : Blob := [0x54, 0x58, 0x4E, 0]

def txNode : Blob := [0x53, 0x4E, 0x44, 0]

def leafNode : Blob := [0x4D, 0x4C, 0x4E, 0]

def innerNode : Blob := [0x4D, 0x49, 0x4E, 0]

end HashPrefix

structure SHAMapItem where
  key : UInt256
  data : Blob
  deriving DecidableEq

/-- Without metadata, with it, or an entry of the state. -/
inductive TNType where
  | tnTRANSACTION_NM
  | tnTRANSACTION_MD
  | tnACCOUNT_STATE
  deriving DecidableEq

abbrev NodeRef := ℕ

/-- A branch in use without a child: only its hash is known. -/
structure SHAMapInnerNode where
  mSeq : ℕ
  mHash : UInt256 := 0
  mHashes : Fin 16 → UInt256 := fun _ => 0
  mChildren : Fin 16 → Option NodeRef := fun _ => none
  mIsBranch : Fin 16 → Bool := fun _ => false
  mFullBelowGen : ℕ := 0

structure SHAMapTreeNode where
  mSeq : ℕ
  mHash : UInt256
  mType : TNType
  mItem : SHAMapItem

inductive SHAMapAbstractNode where
  | inner (node : SHAMapInnerNode)
  | leaf (node : SHAMapTreeNode)

namespace SHAMapInnerNode

variable (n : SHAMapInnerNode) (m : Fin 16)

def isEmptyBranch : Bool := !n.mIsBranch m

def isEmpty : Bool := (List.finRange 16).all n.isEmptyBranch

def getBranchCount : ℕ := (List.finRange 16).countP n.mIsBranch

/-- Takes a child, and forgets hashes that depend on it. -/
def setChild (child : Option NodeRef) : SHAMapInnerNode :=
  { n with
    mHashes := update n.mHashes m 0
    mHash := 0
    mIsBranch := update n.mIsBranch m child.isSome
    mChildren := update n.mChildren m child }

/-- Hooks a node that stands for the same subtree. -/
def shareChild (child : NodeRef) : SHAMapInnerNode :=
  { n with mChildren := update n.mChildren m (some child) }

def clone (seq : ℕ) : SHAMapInnerNode := { n with mSeq := seq }

variable [Sha512Half]

/-- All sixteen, those of empty branches included. -/
def hashedBytes (hashes : Fin 16 → UInt256) : Blob :=
  HashPrefix.innerNode ++ (List.finRange 16).flatMap fun i => (hashes i).toBytes

def updateHash : SHAMapInnerNode :=
  { n with mHash := if n.isEmpty then 0 else sha512Half (hashedBytes n.mHashes) }

/-- Takes the hooked children's hashes before hashing. -/
def updateHashDeep (childHash : NodeRef → UInt256) : SHAMapInnerNode :=
  updateHash { n with mHashes := fun i => (n.mChildren i).elim (n.mHashes i) childHash }

end SHAMapInnerNode

namespace SHAMapTreeNode

/-- Without metadata the key is left out: it is the hash. -/
def hashedBytes (type : TNType) (item : SHAMapItem) : Blob :=
  match type with
  | .tnTRANSACTION_NM => HashPrefix.transactionID ++ item.data
  | .tnACCOUNT_STATE => HashPrefix.leafNode ++ item.data ++ item.key.toBytes
  | .tnTRANSACTION_MD => HashPrefix.txNode ++ item.data ++ item.key.toBytes

variable [Sha512Half]

def hashOf (type : TNType) (item : SHAMapItem) : UInt256 := sha512Half (hashedBytes type item)

def make (item : SHAMapItem) (type : TNType) (seq : ℕ) : SHAMapTreeNode :=
  ⟨seq, hashOf type item, type, item⟩

variable (n : SHAMapTreeNode)

/-- Whether it has changed, and the node with it. -/
def updateHash : Bool × SHAMapTreeNode :=
  let nh := hashOf n.mType n.mItem
  if nh = n.mHash then (false, n) else (true, { n with mHash := nh })

def setItem (item : SHAMapItem) (type : TNType) : Bool × SHAMapTreeNode :=
  updateHash { n with mType := type, mItem := item }

def clone (seq : ℕ) : SHAMapTreeNode := { n with mSeq := seq }

end SHAMapTreeNode

namespace SHAMapAbstractNode

def getSeq : SHAMapAbstractNode → ℕ
  | .inner n => n.mSeq
  | .leaf n => n.mSeq

def setSeq (seq : ℕ) : SHAMapAbstractNode → SHAMapAbstractNode
  | .inner n => .inner { n with mSeq := seq }
  | .leaf n => .leaf { n with mSeq := seq }

def getNodeHash : SHAMapAbstractNode → UInt256
  | .inner n => n.mHash
  | .leaf n => n.mHash

def isInner : SHAMapAbstractNode → Bool
  | .inner _ => true
  | .leaf _ => false

def clone (seq : ℕ) : SHAMapAbstractNode → SHAMapAbstractNode
  | .inner n => .inner (n.clone seq)
  | .leaf n => .leaf (n.clone seq)

end SHAMapAbstractNode

/-! ## Node identifiers -/

/-- Digits of `mNodeID` to its depth; the rest is zero. -/
structure SHAMapNodeID where
  mNodeID : UInt256 := 0
  mDepth : ℕ := 0
  deriving DecidableEq

/-- A key's digit at a depth. -/
def nibble (depth : ℕ) (hash : UInt256) : Fin 16 :=
  let byte := hash.toBytes.getD (depth / 2) 0
  if depth % 2 = 1 then Fin.ofNat 16 (byte.toNat % 16) else Fin.ofNat 16 (byte.toNat / 16)

namespace SHAMapNodeID

variable (id : SHAMapNodeID)

def isRoot : Bool := id.mDepth == 0

def masks (depth : ℕ) : UInt256 := BitVec.allOnes 256 <<< (4 * (64 - depth))

def getChildNodeID (m : Fin 16) : SHAMapNodeID where
  mNodeID := (id.mNodeID ||| BitVec.ofNat 256 m <<< (4 * (63 - id.mDepth))) &&& masks (id.mDepth + 1)
  mDepth := id.mDepth + 1

def selectBranch (hash : UInt256) : Fin 16 := nibble id.mDepth hash

end SHAMapNodeID

theorem nibble_val {depth : ℕ} (h : depth < 64) (hash : UInt256) :
    (nibble depth hash : ℕ) = hash.toNat / 16 ^ (63 - depth) % 16 := by
  have hb : hash.toBytes.getD (depth / 2) 0 =
      UInt8.ofNat (hash.toNat / 256 ^ (31 - depth / 2)) := by
    rw [List.getD_eq_getElem?_getD, UInt256.toBytes,
      BigEndian.getElem?_bytes _ (show depth / 2 < 32 by omega)]
    rfl
  have hp : (256 : ℕ) ^ (31 - depth / 2) = 16 ^ (2 * (31 - depth / 2)) := by
    rw [pow_mul]
    norm_num
  simp only [nibble, hb, UInt8.toNat_ofNat']
  split
  · next ho =>
      have hex : 2 * (31 - depth / 2) = 63 - depth := by omega
      rw [hp, hex, Fin.val_ofNat]
      omega
  · next hev =>
      have hex : 2 * (31 - depth / 2) + 1 = 63 - depth := by omega
      have hdi : hash.toNat / 16 ^ (63 - depth) = hash.toNat / 16 ^ (2 * (31 - depth / 2)) / 16 := by
        rw [← hex, Nat.div_div_eq_div_mul, pow_succ]
      rw [hp, hdi, Fin.val_ofNat]
      omega

theorem forall_nibble_eq_iff {d : ℕ} (hd : d ≤ 64) (k k' : UInt256) :
    (∀ e < d, nibble e k = nibble e k') ↔ k.toNat / 16 ^ (64 - d) = k'.toNat / 16 ^ (64 - d) := by
  induction d with
  | zero =>
    have hk := k.isLt
    have hk' := k'.isLt
    rw [Nat.div_eq_of_lt (by omega), Nat.div_eq_of_lt (by omega)]
    simp
  | succ d ih =>
    have hs : ∀ x : ℕ, x / 16 ^ (64 - d) = x / 16 ^ (63 - d) / 16 := by
      intro x
      rw [Nat.div_div_eq_div_mul, ← pow_succ, show 63 - d + 1 = 64 - d by omega]
    have hex : 64 - (d + 1) = 63 - d := by omega
    have hd' := ih (by omega)
    rw [hs, hs] at hd'
    have hn : nibble d k = nibble d k' ↔
        k.toNat / 16 ^ (63 - d) % 16 = k'.toNat / 16 ^ (63 - d) % 16 := by
      rw [← Fin.val_inj, nibble_val (by omega), nibble_val (by omega)]
    rw [hex]
    constructor
    · intro h
      have hl := hn.mp (h d (by omega))
      have hh := hd'.mp fun e he => h e (by omega)
      omega
    · intro h e he
      rcases Nat.lt_succ_iff_lt_or_eq.mp he with hlt | rfl
      · exact hd'.mpr (by rw [h]) e hlt
      · exact hn.mpr (by rw [h])

instance : Digits UInt256 16 where
  height := 64
  digit := nibble
  eq_of_digit := by
    intro k k' h
    have heq := (forall_nibble_eq_iff (le_refl 64) k k').mp h
    exact BitVec.eq_of_toNat_eq (by simpa using heq)

instance : HasKey SHAMapItem UInt256 := ⟨SHAMapItem.key⟩

theorem lt_of_nibble {k k' : UInt256} {d : ℕ} (hd : d < 64)
    (ha : ∀ e < d, nibble e k = nibble e k') (hlt : nibble d k < nibble d k') : k < k' := by
  have hh := (forall_nibble_eq_iff (show d ≤ 64 by omega) k k').mp ha
  have hs : ∀ x : ℕ, x / 16 ^ (64 - d) = x / 16 ^ (63 - d) / 16 := by
    intro x
    rw [Nat.div_div_eq_div_mul, ← pow_succ, show 63 - d + 1 = 64 - d by omega]
  rw [hs, hs] at hh
  rw [Fin.lt_def, nibble_val hd, nibble_val hd] at hlt
  have hdi : k.toNat / 16 ^ (63 - d) < k'.toNat / 16 ^ (63 - d) := by omega
  by_contra hle
  exact absurd (Nat.div_le_div_right (Nat.le_of_not_lt hle)) (Nat.not_le.mpr hdi)

theorem lexOrder_lt : RadixTree.LexOrder (· < · : UInt256 → UInt256 → Prop) (· < ·) where
  of_digit hd ha hlt := lt_of_nibble hd ha hlt
  asymm h := not_lt_of_gt h
  tri i j := lt_trichotomy i j

theorem lexOrder_gt : RadixTree.LexOrder (· > · : UInt256 → UInt256 → Prop) (· > ·) where
  of_digit hd ha hlt := lt_of_nibble hd (fun e he => (ha e he).symm) hlt
  asymm h := not_lt_of_gt h
  tri i j := lt_trichotomy j i |>.imp id (Or.imp Eq.symm id)

end Sand
