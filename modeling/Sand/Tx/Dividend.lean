import Sand.Tx.Operate

/-!
# Dividends

Start announces a dividend, Apply pays an account and Done closes it.
-/

namespace Sand

open LedgerM Evolution

namespace DividendMaster

def DivType_Done : UInt8 := 0
def DivType_Start : UInt8 := 1
def DivType_Apply : UInt8 := 2
def DivState_Done : UInt8 := 0
def DivState_Start : UInt8 := 1

end DividendMaster

open DividendMaster

namespace Dividend

variable (env : Env) (tx : STTx) (fields : DividendTx)

def fromDividendAccount : Bool :=
  env.parseBase58 env.dividendPublicKey == some (env.calcAccountID tx.signingPubKey)

def refusal : Option TER :=
  if !tx.fee.native || !tx.fee.isZero then
    some .temBAD_FEE
  else if fields.dividendType.isNone then
    some .temBAD_DIV_TYPE
  else if fields.dividendLedger.isNone then
    some .temINVALID
  else if fields.dividendCoins.isNone then
    some .temINVALID
  else if env.dividendPublicKey.isEmpty then
    some .tefBAD_AUTH
  else if !fromDividendAccount env tx then
    some .temBAD_SIGNATURE
  else if tx.sequence ≠ 0 ∨ tx.previousTxnID.isSome then
    some .temBAD_SEQUENCE
  else
    none

/-- Without setting the account or checking the signature. -/
def preCheck : PreCheckM TER :=
  return (refusal env tx fields).getD .tesSUCCESS

def startCalc : LedgerM unrestricted TER := do
  if (← peek .dividend).isNone then
    insert .dividend {} (unrestricted_rel _ _ _)
  alter .dividend (fun _ =>
      { dividendState := DivState_Start
        dividendLedger := fields.dividendLedger.getD 0
        dividendCoins := fields.dividendCoins.getD 0 })
    fun _ => unrestricted_rel _ _ _
  update .dividend
  return .tesSUCCESS

def doneApply : LedgerM unrestricted TER := do
  match ← peek .dividend with
  | none => return .temMALFORMED
  | some _ =>
    alter .dividend (fun entry => { entry with dividendState := DivState_Done })
      fun _ => unrestricted_rel _ _ _
    update .dividend
    return .tesSUCCESS

def createXRP (drops : UInt64) : LedgerM unrestricted Unit :=
  MonoM.modify (fun v => v.createDrops drops) fun _ =>
    ⟨rfl, rfl, fun h => (by cases h), rfl, rfl, fun _ => unrestricted_rel _ _ _, fun _ _ h => h⟩

@[simp]
theorem run_createXRP (dr : UInt64) (v : View) :
    (createXRP dr).run v = (.ok (), v.createDrops dr) :=
  rfl

/-- An absent index leaves the field alone. -/
def noteDividend (root : AccountRoot) : AccountRoot :=
  { root with dividendLedger := fields.dividendLedger.or root.dividendLedger }

def payee : AccountID := fields.destination.getD 0

def applyTx : LedgerM unrestricted TER := do
  let account := payee fields
  let divCoins := fields.dividendCoins.getD 0
  match ← peek (.account account) with
  | none => return .tefBAD_LEDGER
  | some root =>
    if fields.dividendLedger.getD 0 = root.dividendLedger.getD 0 then
      return .tefFAILURE
    if divCoins ≠ 0 then
      let balance ← root.balance.add (.ofDrops divCoins)
      alter (.account account) (fun root => { root with balance := balance })
        fun _ => unrestricted_rel _ _ _
      createXRP divCoins
    alter (.account account) (noteDividend fields) fun _ => unrestricted_rel _ _ _
    update (.account account)
    return .tesSUCCESS

/-- The type of operation; a missing one means Start. -/
def divOpType : UInt8 := fields.dividendType.getD DivType_Start

def doApply : LedgerM unrestricted TER :=
  if divOpType fields = DivType_Start then
    startCalc fields
  else if divOpType fields = DivType_Apply then
    applyTx fields
  else if divOpType fields = DivType_Done then
    doneApply
  else
    return .temUNKNOWN

def processor : Processor unrestricted where
  mustHaveValidAccount := false
  calculateBaseFee := pure 0
  preCheck := preCheck env tx fields
  checkSeq := pure .tesSUCCESS
  payFee := pure .tesSUCCESS
  checkSign := pure .tesSUCCESS
  doApply := doApply fields

end Dividend

end Sand
