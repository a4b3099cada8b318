import Sand.Tx.Context

/-!
# Applying a transaction

A transactor checks and charges the source account, applies the body and writes the view.
-/

namespace Sand

open PreCheckM Evolution CheckM

namespace Transactor

/-! ## Signatures -/

variable (env : Env) (tx : STTx)

def preCheckAccount : PreCheckM TER := do
  setMembers (fun s => { s with account := tx.account }) fun _ => rfl
  return if tx.account = 0 then .temBAD_SRC_ACCOUNT else .tesSUCCESS

/-- Known to be bad, or not known good and not verified. -/
def refusesSignature (flags : Flags) (known : Option Bool) : Bool :=
  known == some false ||
    (!flags.has tapNO_CHECK_SIGN && !tx.checkSign env (flags.has tapENABLE_TESTING))

def preCheckSigningKey : PreCheckM TER := do
  setMembers (fun s => { s with signingPubKey := tx.signingPubKey }) fun _ => rfl
  let known := (← members).sigState
  if known = some true then
    return .tesSUCCESS
  if refusesSignature env tx (← context).flags known then
    setMembers (fun s => { s with sigState := some false }) fun _ => rfl
    return .temINVALID
  setMembers (fun s => { s with sigState := some true }) fun _ => rfl
  return .tesSUCCESS

/-- The checks that those of the types end in. -/
def preCheck : PreCheckM TER := do
  let result ← preCheckAccount tx
  if result ≠ .tesSUCCESS then
    return result
  preCheckSigningKey env tx

/-- The master key, unless disabled, or the regular one. -/
def checkSingleSign : CheckM TER := do
  let s ← members
  let sle ← CheckM.peek (.account s.account)
  let signer := env.calcAccountID s.signingPubKey
  if signer = s.account then
    setMembers (fun s => { s with sigMaster := true }) fun _ => rfl
    match sle with
    | none => throw .crash
    | some root => return if root.isFlag lsfDisableMaster then .tefMASTER_DISABLED else .tesSUCCESS
  else if s.hasAuthKey then
    match sle with
    | none => throw .crash
    | some root =>
      return if signer = root.regularKey.getD 0 then .tesSUCCESS else .tefBAD_AUTH
  else
    return .tefBAD_AUTH_MASTER

/-! ## Multi-signing -/

/-- Why an account does not accept the signing key. -/
def signerRefusal (v : View) (signer : SigningAccount) : Option TER :=
  let signingAcctIDFromPubKey := env.calcAccountID signer.signingPubKey
  match v.get (.account signer.account) with
  | none =>
    -- an account that is not in the ledger may sign with its own key
    if signingAcctIDFromPubKey = signer.account then none else some .tefBAD_SIGNATURE
  | some root =>
    if signingAcctIDFromPubKey = signer.account then
      if root.isFlag lsfDisableMaster then some .tefMASTER_DISABLED else none
    else if root.regularKey = some signingAcctIDFromPubKey then none
    else some .tefBAD_SIGNATURE

/-- From the one of `id` on, if it has a weight. -/
def seekSigner (id : AccountID) (entries : List SignerEntry) :
    Option (SignerEntry × List SignerEntry) :=
  match entries.dropWhile fun entry => decide (entry.account < id) with
  | [] => none
  | entry :: rest =>
    if entry.account ≠ id ∨ entry.weight = 0 then none else some (entry, entry :: rest)

/-- Their weight, if all are valid. -/
def checkSigningAccounts (v : View) :
    List SignerEntry → List SigningAccount → UInt32 → Except TER UInt32
  | _, [], weightSum => .ok weightSum
  | entries, signer :: rest, weightSum =>
    match seekSigner signer.account entries with
    | none => .error .tefBAD_SIGNATURE
    | some (entry, entries) =>
      match signerRefusal env v signer with
      | some ter => .error ter
      | none => checkSigningAccounts v entries rest (weightSum + entry.weight.toUInt32)

def getSignerList (v : View) (id : AccountID) : Except TER SignerList :=
  match v.get (.signers id) with
  | none => .error .tefNOT_MULTI_SIGNING
  | some list => .ok list

/-- Direct ones and those who sign for a signer. -/
def multiSignWeight (v : View) (account : AccountID) (outer : SignerList) :
    List SignerEntry → List SigningFor → UInt32 → Except TER UInt32
  | _, [], weightSum => .ok weightSum
  | entries, signingFor :: rest, weightSum =>
    if signingFor.account = account then do
      let weight ← checkSigningAccounts env v outer.signerEntries signingFor.signingAccounts 0
      multiSignWeight v account outer entries rest (weightSum + weight)
    else
      match seekSigner signingFor.account entries with
      | none => .error .tefBAD_SIGNATURE
      | some (entry, entries) => do
        let inner ← getSignerList v signingFor.account
        let weight ← checkSigningAccounts env v inner.signerEntries signingFor.signingAccounts 0
        if weight < inner.signerQuorum then
          .error .tefBAD_QUORUM
        else
          multiSignWeight v account outer entries rest (weightSum + entry.weight.toUInt32)

def multiSignResult (v : View) (account : AccountID) : TER :=
  match getSignerList v account with
  | .error ter => ter
  | .ok outer =>
    match multiSignWeight env v account outer outer.signerEntries (tx.multiSigners.getD []) 0 with
    | .error ter => ter
    | .ok weightSum => if weightSum < outer.signerQuorum then .tefBAD_QUORUM else .tesSUCCESS

def checkMultiSign : CheckM TER := do
  let s ← members
  return multiSignResult env tx s.view s.account

def checkSign : CheckM TER := do
  let s ← members
  if s.view.context.flags.has tapENABLE_TESTING && s.signingPubKey.isEmpty then
    checkMultiSign env tx
  else
    checkSingleSign env

end Transactor

/-- The virtual functions of a transaction type. -/
structure Processor (E : Evolution) where
  mustHaveValidAccount : Bool := true
  calculateBaseFee : CheckM UInt64
  preCheck : PreCheckM TER
  checkSeq : CheckM TER
  payFee : CheckM TER
  checkSign : CheckM TER
  doApply : TxM E TER

namespace Transactor

/-! ## Fees -/

def lftNormalFee : UInt64 := 256

/-- Loses precision rather than overflowing. -/
def mulDiv (value : UInt64) (mul : UInt32) (div : UInt64) : UInt64 :=
  if (0xFFFFFFFF : UInt64) < value then value / div * mul.toUInt64
  else value * mul.toUInt64 / div

def feeFactor (env : Env) (admin : Bool) : UInt32 :=
  let factor := max env.localTxnLoadFee env.remoteTxnLoadFee
  let remote := max env.remoteTxnLoadFee env.clusterTxnLoadFee
  if admin && decide (remote < factor) && decide (factor < 4 * remote) then remote else factor

/-- A fee in fee units as drops under the current load. -/
def scaleFeeLoad (env : Env) (fee baseFee : UInt64) (referenceFeeUnits : UInt32) (admin : Bool) :
    Except Fault UInt64 :=
  if referenceFeeUnits = 0 then
    .error .crash
  else
    let units := referenceFeeUnits.toUInt64
    let factor := feeFactor env admin
    if (0xFFFFFFFF : UInt64) < fee then
      .ok (mulDiv (fee / units) factor lftNormalFee * baseFee)
    else
      .ok (mulDiv (fee * baseFee) factor lftNormalFee / units)

variable (env : Env) (tx : STTx)

def calculateBaseFee : CheckM UInt64 :=
  pure env.transactionFeeBase

def calculateFee (baseFee : CheckM UInt64) : CheckM Unit := do
  let fee ← baseFee
  let context ← context
  let due ← scaleFeeLoad env fee context.fees.base context.fees.units (context.flags.has tapADMIN)
  setMembers (fun s => { s with feeDue := .ofDrops due }) fun _ => rfl

def payFee : CheckM TER := do
  let paid := tx.fee
  let s ← members
  let isOpen := s.view.context.info.isOpen
  if !paid.isLegalNet then
    return .temBAD_AMOUNT
  if ← (if isOpen then paid.lt s.feeDue else .ok false : Except Fault Bool) then
    return .telINSUF_FEE_P
  if paid.isNegative || !paid.native then
    return .temBAD_FEE
  if paid.isZero then
    return .tesSUCCESS
  let sle ← peek (.account s.account)
  if ← s.sourceBalance.lt paid then
    return if s.sourceBalance.isPositive && !isOpen then .tecINSUFF_FEE else .terINSUF_FEE_B
  let balance ← s.sourceBalance.sub paid
  setMembers (fun s => { s with sourceBalance := balance }) fun _ => rfl
  if sle.isNone then
    throw .crash
  alterRoot s.account (fun root => { root with balance := balance }) (uncharged_setBalance balance)
  return .tesSUCCESS

/-- Why the source does not accept it now. -/
def seqRefusal (context : Context) (root : AccountRoot) : Option TER :=
  if root.sequence < tx.sequence then
    some .terPRE_SEQ
  else if tx.sequence < root.sequence then
    some (if tx.transactionID ∈ context.txs then .tefALREADY else .tefPAST_SEQ)
  else if tx.accountTxnID.any fun id => root.accountTxnID.getD 0 != id then
    some .tefWRONG_PRIOR
  else if tx.lastLedgerSequence.any fun last => decide (last < context.info.seq) then
    some .tefMAX_LEDGER
  else
    none

def useSequence (root : AccountRoot) : AccountRoot :=
  { root with
    sequence := tx.sequence + 1
    accountTxnID := root.accountTxnID.map fun _ => tx.transactionID }

theorem uncharged_useSequence (root : AccountRoot) :
    uncharged (useSequence tx root) = uncharged root :=
  rfl

def checkSeq : CheckM TER := do
  let s ← members
  match ← peek (.account s.account) with
  | none => throw .crash
  | some root =>
    match seqRefusal tx s.view.context root with
    | some ter => return ter
    | none =>
      alterRoot s.account (useSequence tx) (uncharged_useSequence tx)
      return .tesSUCCESS

/-! ## Applying -/

variable {E : Evolution} (P : Processor E)

/-- The checks against the source account, in order. -/
def checks : CheckM TER := do
  let result ← P.checkSeq
  if result ≠ .tesSUCCESS then
    return result
  let result ← P.payFee
  if result ≠ .tesSUCCESS then
    return result
  P.checkSign

def prepare : CheckM (TER × Bool) := do
  if !tx.fee.native || tx.fee.negative || !tx.fee.isLegalNet then
    return (.temBAD_FEE, false)
  let result ← P.preCheck
  if result ≠ .tesSUCCESS then
    return (result, false)
  let sle ← peek (.account (← members).account)
  calculateFee env P.calculateBaseFee
  match sle with
  | none =>
    if P.mustHaveValidAccount then
      return (.terNO_ACCOUNT, false)
    else
      return (← checks P, false)
  | some root =>
    setMembers (fun s => { s with
      priorBalance := root.balance
      sourceBalance := root.balance
      hasAuthKey := root.regularKey.isSome }) fun _ => rfl
    return (← checks P, true)

/-- On a source that was found or not. -/
def enact (found : Bool) : TxM E TER := do
  if found then
    let account := (← (members : TxM E TxState)).account
    (LedgerM.update (.account account) : LedgerM E Unit)
  P.doApply

def apply [Evolution.Sub charge E] : TxM E TER := do
  let (result, found) ← (prepare env tx P : TxM E (TER × Bool))
  if result ≠ .tesSUCCESS then
    return result
  enact P found

def standard (preCheck : PreCheckM TER) (doApply : TxM E TER) : Processor E where
  calculateBaseFee := calculateBaseFee env
  preCheck := preCheck
  checkSeq := checkSeq tx
  payFee := payFee tx
  checkSign := checkSign env tx
  doApply := doApply

def preCheckWith (refusal : Context → Option TER) : PreCheckM TER := do
  match refusal (← context) with
  | some ter => return ter
  | none => preCheck env tx

end Transactor

end Sand
