import Sand.Protocol.Types

/-!
# Fields and templates

A serialized field has a type and a value, its number among the fields of that type.
-/

namespace Sand

/-- A transaction's type has no binary encoding. -/
inductive SerializedTypeID where
  | uint16
  | uint32
  | uint64
  | hash128
  | hash256
  | amount
  | vl
  | account
  | object
  | array
  | uint8
  | hash160
  | pathSet
  | vector256
  | transaction
  deriving DecidableEq

namespace SerializedTypeID

def code : SerializedTypeID → ℕ
  | uint16 => 1
  | uint32 => 2
  | uint64 => 3
  | hash128 => 4
  | hash256 => 5
  | amount => 6
  | vl => 7
  | account => 8
  | object => 14
  | array => 15
  | uint8 => 16
  | hash160 => 17
  | pathSet => 18
  | vector256 => 19
  | transaction => 10001

/-- The types that fields can be made up for. -/
def ofCode : ℕ → Option SerializedTypeID
  | 1 => some uint16
  | 2 => some uint32
  | 3 => some uint64
  | 4 => some hash128
  | 5 => some hash256
  | 6 => some amount
  | 7 => some vl
  | 8 => some account
  | 14 => some object
  | 15 => some array
  | 16 => some uint8
  | 17 => some hash160
  | 18 => some pathSet
  | 19 => some vector256
  | _ => none

variable {type : SerializedTypeID}

theorem ofCode_code (h : type ≠ .transaction) : ofCode type.code = some type := by
  cases type <;> first | rfl | contradiction

theorem code_of_ofCode {n : ℕ} (h : ofCode n = some type) : type.code = n := by
  unfold ofCode at h
  split at h <;> cases h <;> rfl

theorem code_pos (type : SerializedTypeID) : 0 < type.code := by
  cases type <;> decide

theorem code_lt (h : type ≠ .transaction) : type.code < 20 := by
  cases type <;> first | decide | contradiction

theorem code_injective : Function.Injective code := by
  intro type type' h
  cases type <;> cases type' <;> first | rfl | cases h

end SerializedTypeID

structure SField where
  fieldType : SerializedTypeID
  fieldValue : ℕ
  deriving DecidableEq

namespace SField

def fieldCode (f : SField) : ℕ :=
  f.fieldType.code * 65536 + f.fieldValue

def isBinary (f : SField) : Bool :=
  decide (f.fieldValue < 256)

def isDiscardable (f : SField) : Bool :=
  decide (256 < f.fieldValue)

/-- A known field, or one made up. -/
def getField (type field : ℕ) : Option SField :=
  if 255 < field then none else (SerializedTypeID.ofCode type).map (⟨·, field⟩)

/-- It has an encoding, and is no end marker. -/
structure IsEncodable (f : SField) : Prop where
  type_ne : f.fieldType ≠ .transaction
  pos : 0 < f.fieldValue
  lt : f.fieldValue < 256
  not_marker : ¬ ((f.fieldType = .object ∨ f.fieldType = .array) ∧ f.fieldValue = 1)

variable {f : SField}

theorem getField_code (h : f.IsEncodable) : getField f.fieldType.code f.fieldValue = some f := by
  have hv : ¬ 255 < f.fieldValue := by
    have := h.lt
    omega
  rw [getField, if_neg hv, SerializedTypeID.ofCode_code h.type_ne]
  rfl

theorem IsEncodable.isBinary (h : f.IsEncodable) : f.isBinary := decide_eq_true h.lt

theorem fieldCode_injOn {g : SField} (hf : f.isBinary) (hg : g.isBinary)
    (h : f.fieldCode = g.fieldCode) : f = g := by
  have hf := of_decide_eq_true hf
  have hg := of_decide_eq_true hg
  obtain ⟨type, value⟩ := f
  obtain ⟨type', value'⟩ := g
  unfold fieldCode at h
  dsimp only at h hf hg
  have hc : type.code = type'.code := by omega
  have hv : value = value' := by omega
  rw [SerializedTypeID.code_injective hc, hv]

end SField

/-! ## The known fields of transactions -/

def sfTransaction : SField := ⟨.transaction, 257⟩
def sfDividendType : SField := ⟨.uint8, 182⟩
def sfTransactionType : SField := ⟨.uint16, 2⟩
def sfSignerWeight : SField := ⟨.uint16, 3⟩
def sfFlags : SField := ⟨.uint32, 2⟩
def sfSourceTag : SField := ⟨.uint32, 3⟩
def sfSequence : SField := ⟨.uint32, 4⟩
def sfLedgerSequence : SField := ⟨.uint32, 6⟩
def sfExpiration : SField := ⟨.uint32, 10⟩
def sfTransferRate : SField := ⟨.uint32, 11⟩
def sfWalletSize : SField := ⟨.uint32, 12⟩
def sfDestinationTag : SField := ⟨.uint32, 14⟩
def sfQualityIn : SField := ⟨.uint32, 20⟩
def sfQualityOut : SField := ⟨.uint32, 21⟩
def sfOfferSequence : SField := ⟨.uint32, 25⟩
def sfLastLedgerSequence : SField := ⟨.uint32, 27⟩
def sfOperationLimit : SField := ⟨.uint32, 29⟩
def sfReferenceFeeUnits : SField := ⟨.uint32, 30⟩
def sfReserveBase : SField := ⟨.uint32, 31⟩
def sfReserveIncrement : SField := ⟨.uint32, 32⟩
def sfSetFlag : SField := ⟨.uint32, 33⟩
def sfClearFlag : SField := ⟨.uint32, 34⟩
def sfSignerQuorum : SField := ⟨.uint32, 35⟩
def sfDividendLedger : SField := ⟨.uint32, 181⟩
def sfBaseFee : SField := ⟨.uint64, 5⟩
def sfDividendCoins : SField := ⟨.uint64, 181⟩
def sfEmailHash : SField := ⟨.hash128, 1⟩
def sfPreviousTxnID : SField := ⟨.hash256, 5⟩
def sfWalletLocator : SField := ⟨.hash256, 7⟩
def sfAccountTxnID : SField := ⟨.hash256, 9⟩
def sfInvoiceID : SField := ⟨.hash256, 17⟩
def sfAmendment : SField := ⟨.hash256, 19⟩
def sfTicketID : SField := ⟨.hash256, 20⟩
def sfAmount : SField := ⟨.amount, 1⟩
def sfLimitAmount : SField := ⟨.amount, 3⟩
def sfTakerPays : SField := ⟨.amount, 4⟩
def sfTakerGets : SField := ⟨.amount, 5⟩
def sfFee : SField := ⟨.amount, 8⟩
def sfSendMax : SField := ⟨.amount, 9⟩
def sfDeliverMin : SField := ⟨.amount, 10⟩
def sfMessageKey : SField := ⟨.vl, 2⟩
def sfSigningPubKey : SField := ⟨.vl, 3⟩
def sfTxnSignature : SField := ⟨.vl, 4⟩
def sfDomain : SField := ⟨.vl, 7⟩
def sfMultiSignature : SField := ⟨.vl, 16⟩
def sfAccount : SField := ⟨.account, 1⟩
def sfDestination : SField := ⟨.account, 3⟩
def sfTarget : SField := ⟨.account, 7⟩
def sfRegularKey : SField := ⟨.account, 8⟩
def sfSignerEntry : SField := ⟨.object, 11⟩
def sfSigningAccount : SField := ⟨.object, 16⟩
def sfSigningFor : SField := ⟨.object, 17⟩
def sfSigningAccounts : SField := ⟨.array, 2⟩
def sfMultiSigners : SField := ⟨.array, 3⟩
def sfSignerEntries : SField := ⟨.array, 4⟩
def sfMemos : SField := ⟨.array, 9⟩
def sfPaths : SField := ⟨.pathSet, 1⟩

/-! ## Templates -/

inductive SOEFlags where
  | required
  | optional
  | default
  deriving DecidableEq

/-- In order; no two templates are the same. -/
abbrev SOTemplate := List (SField × SOEFlags)

namespace InnerObjectFormats

def signerEntry : SOTemplate :=
  [(sfAccount, .required), (sfSignerWeight, .required)]

def signingFor : SOTemplate :=
  [(sfAccount, .required), (sfSigningAccounts, .required)]

def signingAccount : SOTemplate :=
  [(sfAccount, .required), (sfSigningPubKey, .required), (sfMultiSignature, .required)]

def findSOTemplateBySField (f : SField) : Option SOTemplate :=
  if f = sfSignerEntry then some signerEntry
  else if f = sfSigningFor then some signingFor
  else if f = sfSigningAccount then some signingAccount
  else none

end InnerObjectFormats

namespace TxFormats

def commonFields : SOTemplate :=
  [(sfTransactionType, .required), (sfFlags, .optional), (sfSourceTag, .optional),
    (sfAccount, .required), (sfSequence, .required), (sfPreviousTxnID, .optional),
    (sfLastLedgerSequence, .optional), (sfAccountTxnID, .optional), (sfFee, .required),
    (sfOperationLimit, .optional), (sfMemos, .optional), (sfSigningPubKey, .required),
    (sfTxnSignature, .optional), (sfMultiSigners, .optional)]

def ownFields : ℕ → Option SOTemplate
  | 0 => some [(sfDestination, .required), (sfAmount, .required), (sfSendMax, .optional),
      (sfPaths, .default), (sfInvoiceID, .optional), (sfDestinationTag, .optional),
      (sfDeliverMin, .optional)]
  | 3 => some [(sfEmailHash, .optional), (sfWalletLocator, .optional),
      (sfWalletSize, .optional), (sfMessageKey, .optional), (sfDomain, .optional),
      (sfTransferRate, .optional), (sfSetFlag, .optional), (sfClearFlag, .optional)]
  | 5 => some [(sfRegularKey, .optional)]
  | 7 => some [(sfTakerPays, .required), (sfTakerGets, .required), (sfExpiration, .optional),
      (sfOfferSequence, .optional)]
  | 8 => some [(sfOfferSequence, .required)]
  | 10 => some [(sfTarget, .optional), (sfExpiration, .optional)]
  | 11 => some [(sfTicketID, .required)]
  | 12 => some [(sfSignerQuorum, .required), (sfSignerEntries, .optional)]
  | 20 => some [(sfLimitAmount, .optional), (sfQualityIn, .optional), (sfQualityOut, .optional)]
  | 100 => some [(sfLedgerSequence, .optional), (sfAmendment, .required)]
  | 101 => some [(sfLedgerSequence, .optional), (sfBaseFee, .required),
      (sfReferenceFeeUnits, .required), (sfReserveBase, .required),
      (sfReserveIncrement, .required)]
  | 181 => some [(sfDividendType, .required), (sfDividendLedger, .required),
      (sfDestination, .optional), (sfDividendCoins, .required)]
  | _ => none

def findByType (type : UInt16) : Option SOTemplate :=
  (ownFields type.toNat).map (commonFields ++ ·)

end TxFormats

end Sand
