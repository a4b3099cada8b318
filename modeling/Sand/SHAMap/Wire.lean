import Sand.SHAMap.TreeNode

/-!
# Encoding and decoding of nodes

Nodes travel in a wire format and are stored in a prefix format, the one that is hashed.
-/

namespace Sand

open HashPrefix SHAMapInnerNode SHAMapTreeNode

inductive SHANodeFormat where
  | snfPREFIX
  | snfWIRE
  | snfHASH
  deriving DecidableEq

namespace Serializer

def get8 (s : Blob) (offset : ℕ) : Option UInt8 := s[offset]?

def get256 (s : Blob) (offset : ℕ) : Option UInt256 :=
  if offset + 32 > s.length then none else some (UInt256.ofBytes ((s.drop offset).take 32))

def chop (s : Blob) (bytes : ℕ) : Blob :=
  if bytes > s.length then s else s.take (s.length - bytes)

end Serializer

open Serializer

namespace SHAMapInnerNode

def readFull (s : Blob) (seq : ℕ) : SHAMapInnerNode where
  mSeq := seq
  mHashes i := (get256 s (i * 32)).getD 0
  mIsBranch i := (get256 s (i * 32)).getD 0 != 0

/-- The branch stays in use when a later entry is zero. -/
def readEntry (s : Blob) (n : SHAMapInnerNode) (i : ℕ) : Except String SHAMapInnerNode :=
  match get8 s (32 + i * 33) with
  | none => .error "short CI node"
  | some pos =>
    if h : pos.toNat < 16 then
      let branch : Fin 16 := ⟨pos.toNat, h⟩
      let hash := (get256 s (i * 33)).getD (n.mHashes branch)
      .ok { n with
        mHashes := Function.update n.mHashes branch hash
        mIsBranch := if hash ≠ 0 then Function.update n.mIsBranch branch true else n.mIsBranch }
    else
      .error "invalid CI node"

def readCompressed (s : Blob) (seq : ℕ) : Except String SHAMapInnerNode :=
  (List.range (s.length / 33)).foldlM (readEntry s) { mSeq := seq }

variable [Sha512Half]

def finish (n : SHAMapInnerNode) (hash : UInt256) (hashValid : Bool) : SHAMapInnerNode :=
  if hashValid then { n with mHash := hash } else n.updateHash

def addRaw (n : SHAMapInnerNode) (format : SHANodeFormat) : Blob :=
  match format with
  | .snfHASH => n.mHash.toBytes
  | .snfPREFIX => hashedBytes n.mHashes
  | .snfWIRE =>
    if n.getBranchCount < 12 then
      ((List.finRange 16).flatMap fun i =>
        if n.isEmptyBranch i then [] else (n.mHashes i).toBytes ++ [UInt8.ofNat i]) ++ [3]
    else
      ((List.finRange 16).flatMap fun i => (n.mHashes i).toBytes) ++ [2]

end SHAMapInnerNode

namespace SHAMapTreeNode

variable [Sha512Half]

/-- It takes its hash from the caller, or computes it. -/
def read (item : SHAMapItem) (type : TNType) (seq : ℕ) (hash : UInt256) (hashValid : Bool) :
    SHAMapTreeNode :=
  if hashValid then ⟨seq, hash, type, item⟩ else make item type seq

def addRaw (n : SHAMapTreeNode) (format : SHANodeFormat) : Blob :=
  match format with
  | .snfHASH => n.mHash.toBytes
  | .snfPREFIX => hashedBytes n.mType n.mItem
  | .snfWIRE =>
    match n.mType with
    | .tnACCOUNT_STATE => n.mItem.data ++ n.mItem.key.toBytes ++ [1]
    | .tnTRANSACTION_NM => n.mItem.data ++ [0]
    | .tnTRANSACTION_MD => n.mItem.data ++ n.mItem.key.toBytes ++ [4]

end SHAMapTreeNode

namespace SHAMapAbstractNode

variable [Sha512Half]

def addRaw (n : SHAMapAbstractNode) (format : SHANodeFormat) : Blob :=
  match n with
  | .inner n => n.addRaw format
  | .leaf n => n.addRaw format

/-- A leaf whose key is the end of its encoding. -/
def readKeyed (s : Blob) (type : TNType) (seq : ℕ) (hash : UInt256) (hashValid zeroKey : Bool)
    (short invalid : String) : Except String (Option SHAMapAbstractNode) :=
  if s.length < 32 then .error short
  else
    let u := (get256 s (s.length - 32)).getD 0
    if u = 0 ∧ ¬zeroKey then .error invalid
    else .ok (some (.leaf (read ⟨u, chop s 32⟩ type seq hash hashValid)))

variable (rawNode : Blob)

def makeWire (seq : ℕ) (hash : UInt256) (hashValid : Bool) :
    Except String (Option SHAMapAbstractNode) :=
  match rawNode.getLast? with
  | none => .ok none
  | some type =>
    let s := rawNode.dropLast
    if type = 0 then
      let item := ⟨sha512Half (transactionID ++ s), s⟩
      .ok (some (.leaf (read item .tnTRANSACTION_NM seq hash hashValid)))
    else if type = 1 then
      readKeyed s .tnACCOUNT_STATE seq hash hashValid false "short AS node" "invalid AS node"
    else if type = 2 then
      if s.length ≠ 512 then .error "invalid FI node"
      else .ok (some (.inner ((readFull s seq).finish hash hashValid)))
    else if type = 3 then
      (readCompressed s seq).map fun n => some (.inner (n.finish hash hashValid))
    else if type = 4 then
      readKeyed s .tnTRANSACTION_MD seq hash hashValid false "short TM node" "invalid TM node"
    else
      .ok none

def makePrefix (seq : ℕ) (hash : UInt256) (hashValid : Bool) :
    Except String (Option SHAMapAbstractNode) :=
  if rawNode.length < 4 then .error "invalid P node"
  else
    let pre := rawNode.take 4
    let s := rawNode.drop 4
    if pre = transactionID then
      let item := ⟨sha512Half rawNode, s⟩
      .ok (some (.leaf (read item .tnTRANSACTION_NM seq hash hashValid)))
    else if pre = leafNode then
      readKeyed s .tnACCOUNT_STATE seq hash hashValid false "short PLN node" "invalid PLN node"
    else if pre = innerNode then
      if s.length ≠ 512 then .error "invalid PIN node"
      else .ok (some (.inner ((readFull s seq).finish hash hashValid)))
    else if pre = txNode then
      readKeyed s .tnTRANSACTION_MD seq hash hashValid true "short TXN node" ""
    else
      .error "invalid node prefix"

def make (seq : ℕ) (format : SHANodeFormat) (hash : UInt256) (hashValid : Bool) :
    Except String (Option SHAMapAbstractNode) :=
  match format with
  | .snfWIRE => makeWire rawNode seq hash hashValid
  | .snfPREFIX => makePrefix rawNode seq hash hashValid
  | .snfHASH => .error "Unknown format"

end SHAMapAbstractNode

end Sand
