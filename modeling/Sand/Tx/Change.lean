import Sand.Tx.Operate

/-!
# Amendments and fee changes

The pseudo-transactions that validators agree on.
-/

namespace Sand

open LedgerM Evolution PreCheckM

namespace Change

variable (env : Env) (tx : STTx)

theorem view_account (s : TxState) : TxState.view { s with account := tx.account } = s.view := rfl

def preCheck : PreCheckM TER := do
  setMembers (fun s => { s with account := tx.account }) (view_account tx)
  if tx.account ≠ 0 then
    return .temBAD_SRC_ACCOUNT
  else if (← context).info.isOpen then
    return .temINVALID
  else
    return .tesSUCCESS

def checkSeq : CheckM TER :=
  return if tx.sequence ≠ 0 ∨ tx.previousTxnID.isSome then .temBAD_SEQUENCE else .tesSUCCESS

def payFee : CheckM TER :=
  return if tx.fee.same STAmount.zeroDrops then .tesSUCCESS else .temBAD_FEE

def checkSign : CheckM TER :=
  return if tx.account ≠ 0 then .temBAD_SRC_ACCOUNT
    else if !tx.signingPubKey.isEmpty || !tx.getSignature.isEmpty then .temBAD_SIGNATURE
    else .tesSUCCESS

/-- The entry after it, or why it is refused. -/
def amend (amendment : UInt256) (closeTime : UInt32) (entry : Amendments) :
    Except TER Amendments :=
  let gotMajority := tx.flags.has tfGotMajority
  let lostMajority := tx.flags.has tfLostMajority
  let oldMajorities := entry.majorities.getD []
  let found := oldMajorities.any fun majority => majority.1 == amendment
  let kept := oldMajorities.filter fun majority => majority.1 != amendment
  let majorities (list : List (UInt256 × UInt32)) : Option (List (UInt256 × UInt32)) :=
    if list.isEmpty then none else some list
  if amendment ∈ entry.amendments then
    .error .tefALREADY
  else if gotMajority && lostMajority then
    .error .temINVALID_FLAG
  else if found && gotMajority then
    .error .tefALREADY
  else if !found && lostMajority then
    .error .tefALREADY
  else if gotMajority then
    .ok { entry with majorities := majorities (kept ++ [(amendment, closeTime)]) }
  else if lostMajority then
    .ok { entry with majorities := majorities kept }
  else
    .ok { amendments := entry.amendments ++ [amendment], majorities := majorities kept }

def applyAmendment (amendment : UInt256) : LedgerM ordinary TER := do
  if (← peek .amendments).isNone then
    insert .amendments {} trivial
  let entry ← deref (← peek .amendments)
  match amend tx amendment (← LedgerM.context).info.parentCloseTime entry with
  | .error ter => return ter
  | .ok entry =>
    alter .amendments (fun _ => entry) fun _ => trivial
    update .amendments
    return .tesSUCCESS

def applyFee (settings : FeeSettings) : LedgerM ordinary TER := do
  if (← peek .fees).isNone then
    insert .fees {} trivial
  alter .fees (fun _ => settings) fun _ => trivial
  update .fees
  return .tesSUCCESS

def processor (doApply : LedgerM ordinary TER) : Processor ordinary where
  mustHaveValidAccount := false
  calculateBaseFee := Transactor.calculateBaseFee env
  preCheck := preCheck tx
  checkSeq := checkSeq tx
  payFee := payFee tx
  checkSign := checkSign tx
  doApply := doApply

end Change

end Sand
