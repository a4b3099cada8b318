import Sand.Library.BigEndian
import Sand.Library.OrderedMap
import Sand.Protocol.STObject

/-!
# Serialization

Fields in the order of their codes, with identifiers in front and end markers behind.
-/

namespace Sand

open List OrderedMap BigEndian STVar

namespace Serializer

def addFieldID (type name : ℕ) : Blob :=
  if type < 16 then
    if name < 16 then [.ofNat (type * 16 + name)] else [.ofNat (type * 16), .ofNat name]
  else if name < 16 then
    [.ofNat name, .ofNat type]
  else
    [0, .ofNat type, .ofNat name]

def endOfObject : Blob := addFieldID SerializedTypeID.object.code 1

def endOfArray : Blob := addFieldID SerializedTypeID.array.code 1

def addEncoded (length : ℕ) : Except String Blob :=
  if length ≤ 192 then
    .ok [.ofNat length]
  else if length ≤ 12480 then
    .ok [.ofNat (193 + (length - 193) / 256), .ofNat (length - 193)]
  else if length ≤ 918744 then
    .ok [.ofNat (241 + (length - 12481) / 65536), .ofNat ((length - 12481) / 256),
      .ofNat (length - 12481)]
  else
    .error "lenlen"

def addVL (bytes : Blob) : Except String Blob :=
  (addEncoded bytes.length).map (· ++ bytes)

def add160 (x : BitVec 160) : Blob := bytes 20 x.toNat

/-- One part after the other, up to a throw. -/
def addAll : List (Except String Blob) → Except String Blob
  | [] => .ok []
  | part :: parts => do
    let bytes ← part
    let rest ← addAll parts
    return bytes ++ rest

end Serializer

open Serializer

namespace STAmount

def cNotNative : ℕ := 2 ^ 63

def cPosNative : ℕ := 2 ^ 62

/-- `add`. -/
def addBytes (a : STAmount) : Blob :=
  if a.native then
    bytes 8 (if a.negative then a.mantissa.toNat else a.mantissa.toNat ||| cPosNative)
  else
    let word :=
      if a.isZero then cNotNative
      else if a.negative then
        a.mantissa.toNat ||| ((a.exponent + 512 + 97) % 1024).toNat * 2 ^ 54
      else
        a.mantissa.toNat ||| ((a.exponent + 512 + 256 + 97) % 1024).toNat * 2 ^ 54
    bytes 8 word ++ add160 a.issue.currency ++ add160 a.issue.account

end STAmount

def STPathElement.add (e : STPathElement) : Blob :=
  [.ofNat e.nodeType.toNat] ++ (if e.nodeType &&& typeAccount ≠ 0 then add160 e.account else []) ++
    (if e.nodeType &&& typeCurrency ≠ 0 then add160 e.currency else []) ++
    (if e.nodeType &&& typeIssuer ≠ 0 then add160 e.issuer else [])

namespace STPathSet

def typeNone : UInt8 := 0x00

def typeBoundary : UInt8 := 0xFF

def add (paths : List (List STPathElement)) : Blob :=
  [typeBoundary].intercalate (paths.map fun path => path.flatMap STPathElement.add) ++ [typeNone]

end STPathSet

def STValue.add : STValue → Except String Blob
  | notPresent => .ok []
  | uint8 n => .ok (bytes 1 n.toNat)
  | uint16 n => .ok (bytes 2 n.toNat)
  | uint32 n => .ok (bytes 4 n.toNat)
  | uint64 n => .ok (bytes 8 n.toNat)
  | hash128 x => .ok (bytes 16 x.toNat)
  | hash160 x => .ok (bytes 20 x.toNat)
  | hash256 x => .ok (bytes 32 x.toNat)
  | amount a => .ok a.addBytes
  | vl bytes => addVL bytes
  | account bytes => addVL bytes
  | pathSet paths => .ok (STPathSet.add paths)
  | vector256 hashes => addVL (hashes.flatMap fun x => bytes 32 x.toNat)

def SField.addID (f : SField) : Blob :=
  addFieldID f.fieldType.code f.fieldValue

def STVar.endMarker : STVar → Blob
  | value _ _ => []
  | object _ => endOfObject
  | array _ _ => endOfArray

mutual

def STVar.add : STVar → Except String Blob
  | .value _ v => v.add
  | .object o => o.add
  | .array _ os => STArray.add os

def STObject.add : STObject → Except String Blob
  | .mk _ _ fields =>
    addAll ((OrderedMap.ofList (STObject.encodeFields fields)).entries.map Prod.snd)

/-- The bytes of every written field, after its code. -/
def STObject.encodeFields : List STVar → List (ℕ × Except String Blob)
  | [] => []
  | v :: vs =>
    if v.isIncluded then
      (v.fName.fieldCode, v.add.map fun bytes => v.fName.addID ++ bytes ++ v.endMarker) ::
        STObject.encodeFields vs
    else
      STObject.encodeFields vs

def STArray.add : List STObject → Except String Blob
  | [] => .ok []
  | o :: os => do
    let bytes ← o.add
    let rest ← STArray.add os
    return o.fName.addID ++ bytes ++ endOfObject ++ rest

end

def STVar.encode (v : STVar) : Except String Blob :=
  v.add.map fun bytes => v.fName.addID ++ bytes ++ v.endMarker

namespace STObject

variable (fields : List STVar)

def writtenFields : List STVar :=
  (OrderedMap.ofList ((fields.filter isIncluded).map fun v =>
    (v.fName.fieldCode, v))).entries.map Prod.snd

theorem encodeFields_eq : encodeFields fields =
      (fields.filter isIncluded).map fun v => (v.fName.fieldCode, v.encode) := by
  induction fields with
  | nil => rfl
  | cons v vs ih =>
    rw [encodeFields, ih, filter_cons]
    split
    · rfl
    · rfl

theorem add_eq (o : STObject) : o.add = addAll ((writtenFields o.fields).map encode) := by
  obtain ⟨f, type, fields⟩ := o
  have hma : ((fields.filter isIncluded).map fun v => (v.fName.fieldCode, v.encode)) =
      (((fields.filter isIncluded).map fun v => (v.fName.fieldCode, v)).map
        fun entry => (entry.1, entry.2.encode)) := by
    rw [map_map]
    rfl
  rw [add, encodeFields_eq, hma, entries_ofList_map, map_map, writtenFields, map_map]
  rfl

theorem perm_writtenFields {fs : List STVar}
    (hc : ((fs.filter isIncluded).map fun v => v.fName.fieldCode).Nodup) :
    (writtenFields fs).Perm (fs.filter isIncluded) := by
  have hks : (((fs.filter isIncluded).map fun v => (v.fName.fieldCode, v)).map
      Prod.fst).Nodup := by
    rw [map_map]
    exact hc
  have hp := (perm_ofList hks).map Prod.snd
  exact hp.trans (by simp [Function.comp_def])

theorem sorted_writtenFields :
    (writtenFields fields).Pairwise fun a b => a.fName.fieldCode < b.fName.fieldCode := by
  have hc : ∀ entry ∈ (OrderedMap.ofList ((fields.filter isIncluded).map fun v =>
      (v.fName.fieldCode, v))).entries, entry.1 = entry.2.fName.fieldCode := by
    intro ⟨k, v⟩ he
    have hf := find_eq_some_iff.mpr he
    rw [find_ofList] at hf
    obtain ⟨entry, hfn, rfl⟩ := Option.map_eq_some_iff.mp hf
    obtain ⟨v', -, rfl⟩ := mem_map.mp (mem_of_find?_eq_some hfn)
    have hk : v'.fName.fieldCode = k := by simpa using List.find?_some hfn
    exact hk.symm
  refine pairwise_map.mpr ((OrderedMap.ofList _).sorted.imp_of_mem ?_)
  intro a b ha hb hlt
  rwa [← hc a ha, ← hc b hb]

theorem writtenFields_eq_of_sorted {fs vs : List STVar} (hp : (fs.filter isIncluded).Perm vs)
    (hs : vs.Pairwise fun a b => a.fName.fieldCode < b.fName.fieldCode) :
    writtenFields fs = vs := by
  have hc : ((fs.filter isIncluded).map fun v => v.fName.fieldCode).Nodup :=
    (hp.map _).nodup_iff.mpr (pairwise_map.mpr (hs.imp fun h => h.ne))
  refine ((perm_writtenFields hc).trans hp).eq_of_pairwise (fun a b _ _ hab hba => ?_)
    (sorted_writtenFields fs) hs
  exact absurd hba hab.asymm

end STObject

theorem STVar.endMarker_eq_of_getSType {v w : STVar} (h : v.getSType = w.getSType) :
    v.endMarker = w.endMarker := by
  have hm (v : STVar) : v.endMarker =
      if v.getSType = some .object then endOfObject
      else if v.getSType = some .array then endOfArray
      else [] := by
    cases v with
    | value f v => cases v <;> rfl
    | object o | array f os => rfl
  rw [hm, hm, h]

end Sand
