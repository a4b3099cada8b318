import Sand.Protocol.SField
import Sand.Protocol.Tx

/-!
# Serialized objects

Objects of named fields, arrays of named objects and the values in between.
-/

namespace Sand

/-- The value of a field that holds no object. -/
inductive STValue where
  | notPresent
  | uint8 (value : UInt8)
  | uint16 (value : UInt16)
  | uint32 (value : UInt32)
  | uint64 (value : UInt64)
  | hash128 (value : BitVec 128)
  | hash160 (value : BitVec 160)
  | hash256 (value : UInt256)
  | amount (value : STAmount)
  | vl (value : Blob)
  | account (value : Blob)
  | pathSet (value : List (List STPathElement))
  | vector256 (value : List UInt256)
  deriving DecidableEq

mutual

inductive STVar where
  | value (fName : SField) (value : STValue)
  | object (value : STObject)
  | array (fName : SField) (value : List STObject)

/-- In order, with the template set. -/
inductive STObject where
  | mk (fName : SField) (mType : Option SOTemplate) (fields : List STVar)

end

namespace STObject

def fName : STObject → SField
  | mk fName _ _ => fName

def mType : STObject → Option SOTemplate
  | mk _ mType _ => mType

def fields : STObject → List STVar
  | mk _ _ fields => fields

end STObject

namespace STVar

def fName : STVar → SField
  | value fName _ => fName
  | object o => o.fName
  | array fName _ => fName

/-- It holds of plain values and passes on to objects. -/
theorem induct {P : STVar → Prop} {Q : STObject → Prop} (val : ∀ f v, P (.value f v))
    (obj : ∀ o, Q o → P (.object o)) (array : ∀ f os, (∀ o ∈ os, Q o) → P (.array f os))
    (mk : ∀ f t fields, (∀ v ∈ fields, P v) → Q (.mk f t fields)) : (∀ v, P v) ∧ ∀ o, Q o := by
  have ho : ∀ o os, Q o → (∀ o' ∈ os, Q o') → ∀ o' ∈ o :: os, Q o' :=
    fun _ _ hh ht => List.forall_mem_cons.mpr ⟨hh, ht⟩
  have hfs : ∀ v vs, P v → (∀ v' ∈ vs, P v') → ∀ v' ∈ v :: vs, P v' :=
    fun _ _ hh ht => List.forall_mem_cons.mpr ⟨hh, ht⟩
  constructor
  · exact @STVar.rec P Q (fun os => ∀ o ∈ os, Q o) (fun vs => ∀ v ∈ vs, P v)
      val obj array mk nofun ho nofun hfs
  · exact @STObject.rec P Q (fun os => ∀ o ∈ os, Q o) (fun vs => ∀ v ∈ vs, P v)
      val obj array mk nofun ho nofun hfs

/-- The value's type, none if not there. -/
def getSType : STVar → Option SerializedTypeID
  | value _ .notPresent => none
  | value _ (.uint8 _) => some .uint8
  | value _ (.uint16 _) => some .uint16
  | value _ (.uint32 _) => some .uint32
  | value _ (.uint64 _) => some .uint64
  | value _ (.hash128 _) => some .hash128
  | value _ (.hash160 _) => some .hash160
  | value _ (.hash256 _) => some .hash256
  | value _ (.amount _) => some .amount
  | value _ (.vl _) => some .vl
  | value _ (.account _) => some .account
  | value _ (.pathSet _) => some .pathSet
  | value _ (.vector256 _) => some .vector256
  | object _ => some .object
  | array _ _ => some .array

/-- The field is there and has a binary form. -/
def isIncluded (v : STVar) : Bool :=
  v.getSType.isSome && v.fName.isBinary

def isDefault : STVar → Bool
  | value _ .notPresent => true
  | value _ (.uint8 n) => n == 0
  | value _ (.uint16 n) => n == 0
  | value _ (.uint32 n) => n == 0
  | value _ (.uint64 n) => n == 0
  | value _ (.hash128 x) => x == 0
  | value _ (.hash160 x) => x == 0
  | value _ (.hash256 x) => x == 0
  | value _ (.amount a) => a.mantissa == 0 && a.native
  | value _ (.vl bytes) => bytes.isEmpty
  | value _ (.account bytes) => bytes.isEmpty
  | value _ (.pathSet paths) => paths.isEmpty
  | value _ (.vector256 hashes) => hashes.isEmpty
  | object o => o.fields.isEmpty
  | array _ os => os.isEmpty

end STVar

namespace STObject

/-- Whether they fit, and the fields in its order. -/
def setType : SOTemplate → List STVar → Bool × List STVar
  | [], rest => (rest.all fun v => v.fName.isDiscardable, [])
  | (f, flags) :: elements, rest =>
    match rest.find? fun v => v.fName == f with
    | some v =>
      let (valid, taken) := setType elements (rest.eraseP fun v => v.fName == f)
      (valid && !(flags == .default && v.isDefault), v :: taken)
    | none =>
      let (valid, taken) := setType elements rest
      (valid && flags != .required, .value f .notPresent :: taken)

/-- Sets the template of the field it stands in, if any. -/
def setTypeFromSField (f : SField) (fields : List STVar) : Option STObject :=
  match InnerObjectFormats.findSOTemplateBySField f with
  | none => some (mk f none fields)
  | some type =>
    match setType type fields with
    | (true, taken) => some (mk f (some type) taken)
    | (false, _) => none

end STObject

/-! ## Comparison -/

/-- The hash, compared as well, is a function of the identifiers. -/
def STPathElement.same (a b : STPathElement) : Bool :=
  a.nodeType &&& typeAccount == b.nodeType &&& typeAccount && a.account == b.account &&
    a.currency == b.currency && a.issuer == b.issuer

/-- An account is compared as a blob. -/
def STValue.isEquivalent : STValue → STValue → Bool
  | notPresent, notPresent => true
  | uint8 a, uint8 b => a == b
  | uint16 a, uint16 b => a == b
  | uint32 a, uint32 b => a == b
  | uint64 a, uint64 b => a == b
  | hash128 a, hash128 b => a == b
  | hash160 a, hash160 b => a == b
  | hash256 a, hash256 b => a == b
  | amount a, amount b => b.same a
  | vl a, vl b => a == b
  | vl a, account b => a == b
  | account a, vl b => a == b
  | account a, account b => a == b
  | pathSet a, pathSet b => a.isEqv b fun p q => p.isEqv q STPathElement.same
  | vector256 a, vector256 b => a == b
  | _, _ => false

namespace STObject

variable (equiv : STVar → STVar → Bool)

def getSortedFields (o : STObject) : List STVar :=
  (o.fields.filter STVar.isIncluded).insertionSort fun a b => a.fName.fieldCode ≤ b.fName.fieldCode

def equivalentFields (a b : List STVar) : Bool :=
  a.isEqv b fun x y => x.getSType == y.getSType && equiv x y

/-- `isEquivalent` for a comparison of the fields. -/
def isEquivalentBy (a b : STObject) : Bool :=
  if a.mType.isSome && b.mType == a.mType then
    equivalentFields equiv a.fields b.fields
  else
    equivalentFields equiv a.getSortedFields b.getSortedFields

/-- Fields are looked up by name, and the numbers agree. -/
def equalBy (a b : STObject) : Bool :=
  (a.fields.filter STVar.isIncluded).all (fun t1 =>
      match b.fields.find? fun t2 => t1.fName == t2.fName with
      | some t2 => equiv t2 t1
      | none => false) &&
    (b.fields.filter STVar.isIncluded).length == (a.fields.filter STVar.isIncluded).length

end STObject

/-- `isEquivalent` down to a depth. -/
def STVar.isEquivalentAt : ℕ → STVar → STVar → Bool
  | _, value _ a, value _ b => a.isEquivalent b
  | n + 1, object a, object b => a.isEquivalentBy (isEquivalentAt n) b
  | n + 1, array _ a, array _ b => a.isEqv b (STObject.equalBy (isEquivalentAt n))
  | _, _, _ => false

mutual

def STVar.depth : STVar → ℕ
  | .value _ _ => 0
  | .object o => o.depth + 1
  | .array _ os => STObject.maxDepth os + 1

def STObject.depth : STObject → ℕ
  | .mk _ _ fields => STVar.maxDepth fields

def STVar.maxDepth : List STVar → ℕ
  | [] => 0
  | v :: vs => max v.depth (STVar.maxDepth vs)

def STObject.maxDepth : List STObject → ℕ
  | [] => 0
  | o :: os => max o.depth (STObject.maxDepth os)

end

def STVar.isEquivalent (a b : STVar) : Bool :=
  isEquivalentAt a.depth a b

namespace STObject

def isEquivalent (a b : STObject) : Bool :=
  a.isEquivalentBy STVar.isEquivalent b

/-- `operator==`. -/
def equal (a b : STObject) : Bool :=
  a.equalBy STVar.isEquivalent b

end STObject

end Sand
