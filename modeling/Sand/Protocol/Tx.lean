import Sand.Ledger.Entry

/-!
# Transactions

The fields that the transactors read, and the signature check.
-/

namespace Sand

/-- The type word tells which fields were given. -/
structure STPathElement where
  nodeType : BitVec 8
  account : AccountID
  currency : Currency
  issuer : AccountID
  deriving DecidableEq

def typeAccount : BitVec 8 := 0x01
def typeCurrency : BitVec 8 := 0x10
def typeIssuer : BitVec 8 := 0x20
def typeAll : BitVec 8 := 0x31

structure SigningAccount where
  account : AccountID
  signingPubKey : Blob
  multiSignature : Blob
  deriving DecidableEq

structure SigningFor where
  account : AccountID
  signingAccounts : List SigningAccount
  deriving DecidableEq

structure AccountSetTx where
  emailHash : Option (BitVec 128) := none
  walletLocator : Option UInt256 := none
  messageKey : Option Blob := none
  domain : Option Blob := none
  transferRate : Option UInt32 := none
  setFlag : UInt32 := 0
  clearFlag : UInt32 := 0
  deriving DecidableEq

structure TrustSetTx where
  limitAmount : STAmount := STAmount.zeroDrops
  qualityIn : Option UInt32 := none
  qualityOut : Option UInt32 := none
  deriving DecidableEq

structure OfferCreateTx where
  takerPays : STAmount
  takerGets : STAmount
  expiration : Option UInt32 := none
  offerSequence : Option UInt32 := none
  deriving DecidableEq

structure PaymentTx where
  destination : AccountID
  amount : STAmount
  sendMax : Option STAmount := none
  paths : Option (List (List STPathElement)) := none
  destinationTag : Option UInt32 := none
  deliverMin : Option STAmount := none
  deriving DecidableEq

structure TicketCreateTx where
  target : Option AccountID := none
  expiration : Option UInt32 := none
  deriving DecidableEq

structure DividendTx where
  dividendType : Option UInt8
  dividendLedger : Option UInt32
  dividendCoins : Option UInt64
  destination : Option AccountID := none
  deriving DecidableEq

structure SignerListSetTx where
  signerQuorum : UInt32
  signerEntries : Option (List SignerEntry) := none
  deriving DecidableEq

/-- The fields that belong to the transaction type. -/
inductive TxBody where
  | accountSet (fields : AccountSetTx)
  | trustSet (fields : TrustSetTx)
  | offerCreate (fields : OfferCreateTx)
  | offerCancel (offerSequence : UInt32)
  | regularKeySet (regularKey : Option AccountID)
  | payment (fields : PaymentTx)
  | ticketCreate (fields : TicketCreateTx)
  | ticketCancel (ticketID : Key)
  | signerListSet (fields : SignerListSetTx)
  | dividend (fields : DividendTx)
  | amendment (amendment : UInt256)
  | fee (settings : FeeSettings)
  /-- A type that has no transactor. -/
  | other
  deriving DecidableEq

structure STTx where
  body : TxBody
  account : AccountID
  sequence : UInt32
  fee : STAmount
  flags : Flags := 0
  signingPubKey : Blob := []
  txnSignature : Option Blob := none
  multiSigners : Option (List SigningFor) := none
  previousTxnID : Option UInt256 := none
  lastLedgerSequence : Option UInt32 := none
  accountTxnID : Option UInt256 := none
  transactionID : UInt256
  /-- The signature is known to be good or bad. -/
  sigState : Option Bool := none
  deriving DecidableEq

/-- The application around the transactors. -/
structure Env where
  /-- The account a public key controls. -/
  calcAccountID : Blob → AccountID
  /-- In strictly canonical form if asked. -/
  accountPublicVerify : (key data signature : Blob) → (strict : Bool) → Bool
  signingData : STTx → Blob
  multiSigningData : STTx → AccountID → AccountID → Blob
  transactionFeeBase : UInt64
  localTxnLoadFee : UInt32
  remoteTxnLoadFee : UInt32
  clusterTxnLoadFee : UInt32
  /-- From the `dividend_account` section, or empty. -/
  dividendPublicKey : String
  parseBase58 : String → Option AccountID

namespace STTx

def maxMultiSigners : Nat := 8

def getSignature (tx : STTx) : Blob := tx.txnSignature.getD []

def fullyCanonical (tx : STTx) : Bool := tx.flags.has tfFullyCanonicalSig

def checkSingleSign (env : Env) (tx : STTx) : Bool :=
  tx.multiSigners.isNone &&
    env.accountPublicVerify tx.signingPubKey (env.signingData tx) tx.getSignature tx.fullyCanonical

/-- One entry's accounts, in order, without duplicates. -/
def checkSigningAccounts (env : Env) (tx : STTx) (signingFor : AccountID) (direct : Bool) :
    List SigningAccount → AccountID → List AccountID → Option (List AccountID)
  | [], _, seen => some seen
  | signer :: rest, last, seen =>
    if signingFor = signer.account ∨ ¬ last < signer.account ∨ (direct ∧ signer.account ∈ seen) then
      none
    else if env.accountPublicVerify signer.signingPubKey
        (env.multiSigningData tx signingFor signer.account) signer.multiSignature
        tx.fullyCanonical then
      checkSigningAccounts env tx signingFor direct rest signer.account
        (if direct then signer.account :: seen else seen)
    else
      none

def checkSigningFors (env : Env) (tx : STTx) :
    List SigningFor → AccountID → List AccountID → Bool
  | [], _, _ => true
  | signingFor :: rest, last, seen =>
    let direct := decide (signingFor.account = tx.account)
    let count := signingFor.signingAccounts.length
    if ¬ last < signingFor.account ∨ (¬ direct ∧ signingFor.account ∈ seen) ∨
        count < 1 ∨ maxMultiSigners < count then
      false
    else
      match checkSigningAccounts env tx signingFor.account direct signingFor.signingAccounts 0
          (if direct then seen else signingFor.account :: seen) with
      | none => false
      | some seen => checkSigningFors env tx rest signingFor.account seen

def checkMultiSign (env : Env) (tx : STTx) : Bool :=
  match tx.multiSigners with
  | none => false
  | some multiSigners =>
    decide (1 ≤ multiSigners.length) && decide (multiSigners.length ≤ maxMultiSigners) &&
      checkSigningFors env tx multiSigners 0 []

def checkSign (env : Env) (tx : STTx) (allowMultiSign : Bool) : Bool :=
  if allowMultiSign && tx.signingPubKey.isEmpty then checkMultiSign env tx
  else checkSingleSign env tx

end STTx

end Sand
