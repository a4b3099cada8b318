import Sand.Tx.Operate

/-!
# Offers, tickets and signer lists of an account

Transactions that remove an offer or manage tickets and the signer list.
-/

namespace Sand

open LedgerM Evolution PreCheckM Transactor

namespace CancelOffer

variable (env : Env) (tx : STTx) (offerSequence : UInt32)

def refusal (_ : Context) : Option TER :=
  if tx.flags.has (~~~tfUniversal) then some .temINVALID_FLAG
  else if offerSequence = 0 then some .temBAD_SEQUENCE
  else none

def cancel (account : AccountID) : LedgerM transfer TER := do
  let sle ← deref (← read (.account account))
  if sle.sequence - 1 ≤ offerSequence then
    return .temBAD_SEQUENCE
  match ← peek (.offer account offerSequence) with
  | some offer => offerDelete account offerSequence offer
  | none => return .tesSUCCESS

def doApply : TxM ordinary TER := do
  let s ← (members : TxM ordinary TxState)
  (cancel offerSequence s.account : LedgerM ordinary TER)

def processor : Processor ordinary :=
  standard env tx (preCheckWith env tx (refusal tx offerSequence)) (doApply offerSequence)

end CancelOffer

/-- What is not enabled is accepted in testing only. -/
def disabledUnlessTesting (context : Context) : Option TER :=
  if context.flags.has tapENABLE_TESTING then none else some .temDISABLED

namespace CreateTicket

variable (env : Env) (tx : STTx) (fields : TicketCreateTx)

def refusal (context : Context) : Option TER :=
  (disabledUnlessTesting context).or
    (if fields.expiration = some 0 then some .temBAD_EXPIRATION else none)

def create (s : TxState) : LedgerM ownerObjects TER := do
  let account := s.account
  let ctx ← LedgerM.context
  let sle ← deref (← read (.account account))
  if ← s.priorBalance.lt (.ofDrops (ctx.fees.accountReserve (sle.ownerCount + 1))) then
    return .tecINSUFFICIENT_RESERVE
  if fields.expiration.any fun expiration => decide (expiration ≤ ctx.info.parentCloseTime) then
    return .tesSUCCESS
  insert (.ticket account tx.sequence) { ownerNode := 0, expiration := fields.expiration } trivial
  if let some target := fields.target then
    if (← peek (.account target)).isNone then
      return .tecNO_TARGET
    if target ≠ account then
      alter (.ticket account tx.sequence) (fun ticket => { ticket with target := some target })
        fun _ => trivial
  let (result, hint) ← (dirAdd (.owner account) (.ticket account tx.sequence) : LedgerM transfer _)
  if result ≠ .tesSUCCESS then
    return result
  alter (.ticket account tx.sequence) (fun ticket => { ticket with ownerNode := hint })
    fun _ => trivial
  adjustOwnerCount account 1
  return result

def doApply : TxM ordinary TER := do
  let s ← (members : TxM ordinary TxState)
  create tx fields s

def processor : Processor ordinary :=
  standard env tx (preCheckWith env tx (refusal fields)) (doApply tx fields)

end CreateTicket

namespace CancelTicket

variable (env : Env) (tx : STTx) (ticketID : Key) (account owner : AccountID)

/-- Its owner, its target, and anyone once expired. -/
def authorized (ticket : Ticket) (closeTime : UInt32) : Bool :=
  account == owner || ticket.target == some account ||
    ticket.expiration.any fun expiration => decide (expiration ≤ closeTime)

def cancel (sequence : UInt32) : LedgerM ownerObjects TER := do
  match ← peek (.ticket owner sequence) with
  | none => return .tecNO_ENTRY
  | some ticket =>
    if !authorized account owner ticket (← LedgerM.context).info.parentCloseTime then
      return .tecNO_PERMISSION
    let result ← dirDelete false ticket.ownerNode (.owner owner) (.ticket owner sequence) false
      (ticket.ownerNode == 0)
    adjustOwnerCount owner (-1)
    erase (.ticket owner sequence) fun _ => trivial
    return result

def doApply : TxM ordinary TER := do
  let s ← (members : TxM ordinary TxState)
  match ticketID with
  | .ticket owner sequence => (cancel s.account owner sequence : LedgerM ownerObjects TER)
  -- the identifier is not the index of a ticket
  | _ => return .tecNO_ENTRY

def processor : Processor ordinary :=
  standard env tx (preCheckWith env tx disabledUnlessTesting) (doApply ticketID)

end CancelTicket

namespace SetSignerList

def minEntries : Nat := 2
def maxEntries : Nat := 8

variable (env : Env) (tx : STTx) (fields : SignerListSetTx)

def adjacentDuplicate : List SignerEntry → Bool
  | first :: second :: rest =>
    first.account == second.account || adjacentDuplicate (second :: rest)
  | _ => false

def validateQuorumAndSignerEntries (account : AccountID) (quorum : UInt32)
    (signers : List SignerEntry) : Option TER :=
  if signers.length < minEntries ∨ maxEntries < signers.length then
    some .temMALFORMED
  else if adjacentDuplicate signers then
    some .temBAD_SIGNER
  else if signers.any fun signer => signer.account == account then
    some .temBAD_SIGNER
  else if quorum = 0 ∨ (signers.map fun signer => signer.weight.toNat).sum < quorum.toNat then
    some .temBAD_QUORUM
  else
    none

/-- To set the list or to remove it. -/
def operation : Except TER SignerListOp :=
  match fields.signerEntries with
  | some entries =>
    if fields.signerQuorum = 0 then
      .error .temMALFORMED
    else
      let signers := entries.mergeSort fun a b => decide (a.account ≤ b.account)
      match validateQuorumAndSignerEntries tx.account fields.signerQuorum signers with
      | some ter => .error ter
      | none => .ok (.set fields.signerQuorum signers)
  | none => if fields.signerQuorum = 0 then .ok .destroy else .error .temMALFORMED

/-- The result of the account check is not looked at. -/
def preCheckFor (operation : Except TER SignerListOp) : PreCheckM TER := do
  match disabledUnlessTesting (← context) with
  | some ter => return ter
  | none =>
    let _ ← preCheckAccount tx
    match operation with
    | .error ter => return ter
    | .ok op =>
      setMembers (fun s => { s with signerListOp := op }) fun _ => rfl
      preCheckSigningKey env tx

def preCheck : PreCheckM TER := preCheckFor env tx (operation tx fields)

def ownerCountDelta (entryCount : Nat) : Nat := 2 + entryCount

def destroySignerList (account : AccountID) : LedgerM ownerObjects TER := do
  match ← peek (.signers account) with
  | none => return .tesSUCCESS
  | some list =>
    let result ← dirDelete false list.ownerNode (.owner account) (.signers account) false
      (list.ownerNode == 0)
    -- the count is raised here, although the list is removed
    if result = .tesSUCCESS then
      adjustOwnerCount account (ownerCountDelta list.signerEntries.length)
    erase (.signers account) fun _ => trivial
    return result

def replaceSignerList (s : TxState) (quorum : UInt32) (signers : List SignerEntry) :
    LedgerM ownerObjects TER := do
  let account := s.account
  let destroyed ← destroySignerList account
  if destroyed ≠ .tesSUCCESS then
    return destroyed
  let sle ← deref (← peek (.account account))
  let added := ownerCountDelta signers.length
  let newReserve := (← LedgerM.context).fees.accountReserve (sle.ownerCount + .ofNat added)
  if ← s.priorBalance.lt (.ofDrops newReserve) then
    return .tecINSUFFICIENT_RESERVE
  insert (.signers account) ⟨0, quorum, signers⟩ trivial
  let (result, hint) ← (dirAdd (.owner account) (.signers account) : LedgerM transfer _)
  if result ≠ .tesSUCCESS then
    return result
  alter (.signers account) (fun list => { list with ownerNode := hint }) fun _ => trivial
  adjustOwnerCount account added
  return result

def doApply : TxM ordinary TER := do
  let s ← (members : TxM ordinary TxState)
  match s.signerListOp with
  | .set quorum signers => (replaceSignerList s quorum signers : LedgerM ownerObjects TER)
  | .destroy => (destroySignerList s.account : LedgerM ownerObjects TER)
  | .unknown => return .temMALFORMED

def processor : Processor ordinary :=
  standard env tx (preCheck env tx fields) doApply

end SetSignerList

end Sand
