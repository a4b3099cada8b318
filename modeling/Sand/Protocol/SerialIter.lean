import Sand.Library.ByteReader
import Sand.Protocol.Serializer

/-!
# Deserialization

The reader of serialized objects.
-/

namespace Sand

open STAmount ByteReader STObject STPathElement SerializedTypeID STPathSet

/-- A reader that throws the text of the exception. -/
abbrev SerialIter (α : Type) := ByteReader String α

namespace SerialIter

def getN (n : ℕ) (what : String) : SerialIter ℕ :=
  BigEndian.value <$> take n ("invalid SerialIter " ++ what)

def get8 : SerialIter ℕ := getN 1 "get8"
def get16 : SerialIter ℕ := getN 2 "get16"
def get32 : SerialIter ℕ := getN 4 "get32"
def get64 : SerialIter ℕ := getN 8 "get64"

def getBitString (bits : ℕ) : SerialIter (BitVec bits) :=
  BitVec.ofNat bits <$> getN (bits / 8) "getBitString"

/-- A type or name too large for half a byte. -/
def getUncommon (half : ℕ) (what : String) : SerialIter ℕ :=
  if half = 0 then do
    let n ← get8
    if n < 16 then throw ("gFID: uncommon " ++ what ++ " out of range " ++ toString n)
    else return n
  else
    return half

def getFieldID : SerialIter (ℕ × ℕ) := do
  let first ← get8
  let type ← getUncommon (first / 16) "type"
  let name ← getUncommon (first % 16) "name"
  return (type, name)

def getVLDataLength : SerialIter ℕ := do
  let b₁ ← get8
  if b₁ ≤ 192 then
    return b₁
  else if b₁ ≤ 240 then do
    let b2 ← get8
    return 193 + (b₁ - 193) * 256 + b2
  else if b₁ ≤ 254 then do
    let b2 ← get8
    let b3 ← get8
    return 12481 + (b₁ - 241) * 65536 + b2 * 256 + b3
  else
    throw "b1>254"

def getVL : SerialIter Blob := do
  let length ← getVLDataLength
  take length "invalid SerialIter getRaw"

end SerialIter

open SerialIter

/-- `canonicalize` at the end of reading. -/
def STAmount.canonicalized (issue : Issue) (mantissa : ℕ) (exponent : Int) (negative : Bool) :
    SerialIter STAmount :=
  match canonicalize issue (.ofNat mantissa) exponent negative with
  | .ok a => return a
  | .error _ => throw "value overflow"

def STAmount.readNative (word : ℕ) : SerialIter STAmount :=
  if word / 2 ^ 62 % 2 = 1 then
    return ⟨xrpIssue, .ofNat (word % 2 ^ 62), 0, false⟩
  else if word = 0 then
    throw "negative zero is not canonical"
  else
    return ⟨xrpIssue, .ofNat word, 0, true⟩

def STAmount.ofWord (issue : Issue) (word : ℕ) : SerialIter STAmount :=
  let offset := word / 2 ^ 54
  let value := word % 2 ^ 54
  if value = 0 then
    if offset ≠ 512 then throw "invalid currency value"
    else canonicalized issue 0 0 false
  else
    let exponent : Int := (offset % 256 : ℕ) - 97
    if value < cMinValue ∨ cMaxValue < value ∨ exponent < cMinOffset ∨ cMaxOffset < exponent then
      throw "invalid currency value"
    else
      canonicalized issue value exponent (offset / 256 % 2 == 0)

def STAmount.readIssued (word : ℕ) : SerialIter STAmount := do
  let currency ← getBitString 160
  if isXRP currency then throw "invalid native currency"
  else do
    let account ← getBitString 160
    if isXRP account then throw "invalid native account"
    else ofWord ⟨currency, account⟩ word

/-- `STAmount (SerialIter&)`. -/
def STAmount.read : SerialIter STAmount := do
  let word ← get64
  if word / 2 ^ 63 = 0 then readNative word else readIssued word

/-- `STPathElement (account, currency, issuer, forceCurrency)`. -/
def STPathElement.make (account : AccountID) (currency : Currency) (issuer : AccountID)
    (forceCurrency : Bool) : STPathElement where
  nodeType :=
    (if isXRP account then 0 else typeAccount) |||
    (if forceCurrency || !isXRP currency then typeCurrency else 0) |||
    (if isXRP issuer then 0 else typeIssuer)
  account := account
  currency := currency
  issuer := issuer

def STPathElement.readID (iType bit : BitVec 8) : SerialIter (BitVec 160) :=
  if iType &&& bit ≠ 0 then getBitString 160 else return 0

def STPathElement.read (iType : BitVec 8) : SerialIter STPathElement := do
  let account ← readID iType typeAccount
  let currency ← readID iType typeCurrency
  let issuer ← readID iType typeIssuer
  return make account currency issuer (iType &&& typeCurrency != 0)

/-- One round of `STPathSet`'s constructor. -/
def STPathSet.readStep (next : List STPathElement → SerialIter (List (List STPathElement)))
    (path : List STPathElement) : SerialIter (List (List STPathElement)) := do
  let iType ← get8
  if iType = 0x00 then
    if path.isEmpty then throw "empty path" else return [path]
  else if iType = 0xFF then
    if path.isEmpty then throw "empty path" else do
      let paths ← next []
      return path :: paths
  else if BitVec.ofNat 8 iType &&& ~~~typeAll ≠ 0 then
    throw "bad path element"
  else do
    let element ← read (.ofNat 8 iType)
    next (path ++ [element])

def STPathSet.readRounds : ℕ → List STPathElement → SerialIter (List (List STPathElement))
  | 0, _ => throw ""
  | rounds + 1, path => readStep (readRounds rounds) path

def STPathSet.read (path : List STPathElement) : SerialIter (List (List STPathElement)) :=
  unbounded fun rounds => readRounds rounds path

/-- Bytes that make up no whole hash are dropped. -/
def STVector256.ofBytes (data : Blob) : List UInt256 :=
  (List.range (data.length / 32)).map fun i =>
    BitVec.ofNat 256 (BigEndian.value ((data.drop (32 * i)).take 32))

def STValue.read : SerializedTypeID → SerialIter STValue
  | .uint8 => (.uint8 <| .ofNat ·) <$> get8
  | .uint16 => (.uint16 <| .ofNat ·) <$> get16
  | .uint32 => (.uint32 <| .ofNat ·) <$> get32
  | .uint64 => (.uint64 <| .ofNat ·) <$> get64
  | .hash128 => .hash128 <$> getBitString 128
  | .hash160 => .hash160 <$> getBitString 160
  | .hash256 => .hash256 <$> getBitString 256
  | .amount => .amount <$> STAmount.read
  | .vl => .vl <$> getVL
  | .account => .account <$> getVL
  | .pathSet => .pathSet <$> STPathSet.read []
  | .vector256 => (.vector256 <| STVector256.ofBytes ·) <$> getVL
  | .object => throw "Unknown object type"
  | .array => throw "Unknown object type"
  | .transaction => throw "Unknown object type"

variable (fields : SerialIter (List STVar))

/-- With readers for nested fields and objects. -/
def STVar.readWith (objects : SerialIter (List STObject))
    (f : SField) : SerialIter STVar :=
  match f.fieldType with
  | .object => do
    match setTypeFromSField f (← fields) with
    | some o => return .object o
    | none => throw "field deserialization error"
  | .array => .array f <$> objects
  | type => .value f <$> STValue.read type

/-- One round of `STObject::set`. -/
def STObject.setStep (readVar : SField → SerialIter STVar) (next : SerialIter (List STVar)) :
    SerialIter (List STVar) :=
  unlessEmpty [] do
    let (type, field) ← getFieldID
    if type = object.code ∧ field = 1 then
      return []
    else if type = array.code ∧ field = 1 then
      throw "Illegal terminator in object"
    else
      match SField.getField type field with
      | none => throw "Unknown field"
      | some f => do
        let v ← readVar f
        let vs ← next
        return v :: vs

/-- One round of the constructor of `STArray`. -/
def STArray.readStep (next : SerialIter (List STObject)) :
    SerialIter (List STObject) :=
  unlessEmpty [] do
    let (type, field) ← getFieldID
    if type = array.code ∧ field = 1 then
      return []
    else if type = object.code ∧ field = 1 then
      throw "Illegal terminator in array"
    else
      match SField.getField type field with
      | none => throw "Unknown field"
      | some f =>
        if f.fieldType ≠ .object then throw "Non-object in array"
        else do
          match setTypeFromSField f (← fields) with
          | none => throw "Malformed object in array"
          | some o => do
            let os ← next
            return o :: os

mutual

/-- `STObject::set` down to a number of rounds. -/
def STObject.setRounds : ℕ → SerialIter (List STVar)
  | 0 => throw ""
  | rounds + 1 =>
    STObject.setStep (STVar.readWith (STObject.setRounds rounds) (STArray.readRounds rounds))
      (STObject.setRounds rounds)

def STArray.readRounds : ℕ → SerialIter (List STObject)
  | 0 => throw ""
  | rounds + 1 => STArray.readStep (STObject.setRounds rounds) (STArray.readRounds rounds)

end

/-- Reads up to an end marker or the end of the input. -/
def STObject.set : SerialIter (List STVar) :=
  unbounded STObject.setRounds

/-- `STArray (SerialIter&)`. -/
def STArray.read : SerialIter (List STObject) :=
  unbounded STArray.readRounds

/-- `STVar (SerialIter&, SField const&)`. -/
def STVar.read (f : SField) : SerialIter STVar :=
  STVar.readWith set STArray.read f

end Sand
