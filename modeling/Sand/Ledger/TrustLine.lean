import Sand.Ledger.Funds

/-!
# Trust lines and sending

Creation and removal of lines, credits along a line, and the sending functions built on
them.
-/

namespace Sand

open LedgerM Evolution

def adjustOwnerCount (id : AccountID) (amount : Int) : LedgerM transfer Unit := do
  let sle ← deref (← peek (.account id))
  let current := sle.ownerCount
  let adjusted := current + UInt32.ofInt amount
  if 0 < amount then
    setOwnerCount id (if adjusted < current then .ofNat (2 ^ 32 - 1) else adjusted)
  else
    setOwnerCount id (if current < adjusted then 0 else adjusted)
  update (.account id)

/-- `setHigh` is the side the line is created for. -/
def trustCreateFlags (setHigh auth noRipple freeze peerNoRipple : Bool) : Flags :=
  (if setHigh then lsfHighReserve else lsfLowReserve) |||
    (if auth then (if setHigh then lsfHighAuth else lsfLowAuth) else 0) |||
    (if noRipple then (if setHigh then lsfHighNoRipple else lsfLowNoRipple) else 0) |||
    (if freeze then (if setHigh then lsfHighFreeze else lsfLowFreeze) else 0) |||
    (if peerNoRipple then (if setHigh then lsfLowNoRipple else lsfHighNoRipple) else 0)

def trustCreateMarks (setHigh auth freeze : Bool) : List Flags :=
  (if auth then [if setHigh then lsfHighAuth else lsfLowAuth] else []) ++
    (if freeze then [if setHigh then lsfHighFreeze else lsfLowFreeze] else [])

theorem mem_trustCreateMarks (setHigh auth noRipple freeze pnr : Bool) (mark : Flags)
    (hm : mark ∈ lineMarks)
    (hh : (trustCreateFlags setHigh auth noRipple freeze pnr).has mark) :
    mark ∈ trustCreateMarks setHigh auth freeze := by
  simp only [lineMarks, List.mem_cons, List.not_mem_nil, or_false] at hm
  rcases hm with rfl | rfl | rfl | rfl
  all_goals
    revert setHigh auth noRipple freeze pnr
    decide

structure TrustCreate where
  srcHigh : Bool
  src : AccountID
  dst : AccountID
  auth : Bool
  noRipple : Bool
  freeze : Bool
  balance : STAmount
  limit : STAmount
  qualityIn : UInt32
  qualityOut : UInt32

namespace TrustCreate

variable (p : TrustCreate)

def low : AccountID := if p.srcHigh then p.dst else p.src
def high : AccountID := if p.srcHigh then p.src else p.dst
def setDst : Bool := p.limit.getIssuer == p.dst
def setHigh : Bool := p.srcHigh ^^ p.setDst
def key : Key := .line p.low p.high p.balance.getCurrency
def marks : List Flags := trustCreateMarks p.setHigh p.auth p.freeze

def line (lowNode highNode : UInt64) (peerNoRipple : Bool) : RippleState :=
  let peerLimit := STAmount.zeroOf ⟨p.balance.getCurrency, if p.setDst then p.src else p.dst⟩
  let quality (value : UInt32) : Option UInt32 := if value = 0 then none else some value
  { flags := trustCreateFlags p.setHigh p.auth p.noRipple p.freeze peerNoRipple
    balance := if p.setHigh then p.balance.neg else p.balance
    lowLimit := if p.setHigh then peerLimit else p.limit
    highLimit := if p.setHigh then p.limit else peerLimit
    lowNode := some lowNode
    highNode := some highNode
    lowQualityIn := if p.setHigh then none else quality p.qualityIn
    lowQualityOut := if p.setHigh then none else quality p.qualityOut
    highQualityIn := if p.setHigh then quality p.qualityIn else none
    highQualityOut := if p.setHigh then quality p.qualityOut else none }

theorem mem_marks_of_marked_line {lowNode highNode : UInt64} {pnr : Bool} {mark : Flags}
    (hm : mark ∈ lineMarks)
    (hmk : marked (some (p.line lowNode highNode pnr)) mark) : mark ∈ p.marks :=
  mem_trustCreateMarks p.setHigh p.auth p.noRipple p.freeze pnr mark hm hmk

end TrustCreate

def trustCreate (marks : SettableMarks) (p : TrustCreate) (sleAccount : AccountID)
    (hma : ∀ mark ∈ p.marks, mark ∈ marks p.low p.high p.balance.getCurrency) :
    LedgerM (transferWith marks) TER := do
  insert (.line p.low p.high p.balance.getCurrency) {} fun mark _ _ hmk => by
    simp [marked, Flags.has] at hmk
  let (lowResult, lowNode) ← dirAdd (.owner p.low) p.key
  if lowResult ≠ .tesSUCCESS then
    return lowResult
  let (highResult, highNode) ← dirAdd (.owner p.high) p.key
  if highResult ≠ .tesSUCCESS then
    return highResult
  let slePeer ← deref (← peek (.account (if p.setHigh then p.low else p.high)))
  alter (.line p.low p.high p.balance.getCurrency)
    (fun _ => p.line lowNode highNode (!slePeer.isFlag lsfDefaultRipple))
    fun _ mark hm hf hmk => absurd (hma mark (p.mem_marks_of_marked_line hm hmk)) hf
  adjustOwnerCount sleAccount 1
  creditHook p.src p.dst p.balance
  return highResult

variable (state : RippleState)

def trustDelete (low high : AccountID) (currency : Currency) :
    LedgerM transfer TER := do
  let k := Key.line low high currency
  let lowResult ← dirDelete false (state.lowNode.getD 0) (.owner low) k false state.lowNode.isNone
  let result ← if lowResult = .tesSUCCESS then
      dirDelete false (state.highNode.getD 0) (.owner high) k false state.highNode.isNone
    else pure lowResult
  eraseLine low high currency
  return result

def offerDelete (owner : AccountID) (sequence : UInt32) (offer : Offer) : LedgerM transfer TER := do
  let k := Key.offer owner sequence
  let ownerResult ← dirDelete false offer.ownerNode (.owner owner) k false false
  let bookResult ← dirDelete false offer.bookNode offer.bookDirectory k true false
  if ownerResult = .tesSUCCESS then
    adjustOwnerCount owner (-1)
  eraseOffer owner sequence
  return if ownerResult = .tesSUCCESS then bookResult else ownerResult

/-! ## Credits -/

/-- The reserve of the sender in `rippleCredit`. Returns whether the line is to be deleted. -/
def clearReserve (sender receiver : AccountID) (currency : Currency)
    (before after : STAmount) : LedgerM transfer Bool := do
  let senderHigh := decide (receiver < sender)
  if before.isPositive && !after.isPositive &&
      state.isFlag (if !senderHigh then lsfLowReserve else lsfHighReserve) then
    let sle ← deref (← read (.account sender))
    if state.isFlag (if !senderHigh then lsfLowNoRipple else lsfHighNoRipple) !=
          sle.isFlag lsfDefaultRipple &&
        !state.isFlag (if !senderHigh then lsfLowFreeze else lsfHighFreeze) &&
        (if !senderHigh then state.lowLimit else state.highLimit).isZero &&
        (if !senderHigh then state.lowQualityIn else state.highQualityIn).getD 0 == 0 &&
        (if !senderHigh then state.lowQualityOut else state.highQualityOut).getD 0 == 0 then
      adjustOwnerCount sender (-1)
      clearLineFlags (lowAccount sender receiver) (highAccount sender receiver) currency
        (if !senderHigh then lsfLowReserve else lsfHighReserve)
      return after.isZero && !state.isFlag (if senderHigh then lsfLowReserve else lsfHighReserve)
    else return false
  else return false

variable (sender receiver : AccountID)

/-- What `rippleCredit` does to a line that is there. -/
def creditLine (amount : STAmount) : LedgerM transfer TER := do
  let low := lowAccount sender receiver
  let high := highAccount sender receiver
  let currency := amount.getCurrency
  let senderHigh := decide (receiver < sender)
  creditHook sender receiver amount
  let before := if senderHigh then state.balance.negate else state.balance
  let after ← before.sub amount
  let delete ← clearReserve state sender receiver currency before after
  setLineBalance low high currency (if senderHigh then after.negate else after)
  if delete then
    trustDelete state (if senderHigh then receiver else sender)
      (if !senderHigh then receiver else sender) currency
  else
    update (.line low high currency)
    return .tesSUCCESS

/-- Direct send without fees, regardless of limits. -/
def rippleCredit (amount : STAmount) : LedgerM transfer TER := do
  match ← peek (.rippleState sender receiver amount.getCurrency) with
  | none =>
    let sleAccount ← deref (← peek (.account receiver))
    trustCreate (fun _ _ _ => [])
      { srcHigh := decide (receiver < sender)
        src := sender
        dst := receiver
        auth := false
        noRipple := !sleAccount.isFlag lsfDefaultRipple
        freeze := false
        balance := amount.setIssuer noAccount
        limit := STAmount.zeroOf ⟨amount.getCurrency, receiver⟩
        qualityIn := 0
        qualityOut := 0 }
      receiver (by simp [TrustCreate.marks, trustCreateMarks])
  | some state => creditLine state sender receiver amount

/-- Through its issuer when neither side is the issuer. -/
def rippleSend (amount : STAmount) :
    LedgerM transfer (TER × STAmount) := do
  let issuer := amount.getIssuer
  if sender = issuer ∨ receiver = issuer ∨ issuer = noAccount then
    -- the result of a direct credit is not looked at
    let _ ← rippleCredit sender receiver amount
    return (.tesSUCCESS, amount)
  else
    let fee ← query fun v => v.rippleTransferFee sender receiver issuer amount
    let actual := (← if fee.isZero then pure amount else amount.add fee).setIssuer issuer
    let result ← rippleCredit issuer receiver amount
    if result = .tesSUCCESS then
      return (← rippleCredit sender issuer actual, actual)
    else
      return (result, actual)

def sendXRP (amount : STAmount) : LedgerM transfer TER := do
  let sleSender ← if sender = 0 then pure none else peek (.account sender)
  let sleReceiver ← if receiver = 0 then pure none else peek (.account receiver)
  if let some root := sleSender then
    if ← root.balance.lt amount then
      return if (← context).info.isOpen then .telFAILED_PROCESSING else .tecFAILED_PROCESSING
    setBalance sender (← root.balance.sub amount)
    update (.account sender)
  if let some root := sleReceiver then
    setBalance receiver (← root.balance.add amount)
    update (.account receiver)
  return .tesSUCCESS

def accountSend (amount : STAmount) : LedgerM transfer TER := do
  if amount.isZero ∨ sender = receiver then
    return .tesSUCCESS
  else if !amount.native then
    return (← rippleSend sender receiver amount).1
  else
    creditHook sender receiver amount
    sendXRP sender receiver amount

/-! ## Issuing and redeeming -/

/-- Checks out the sender's root in any case. Returns whether the line is to be deleted. -/
def updateTrustLine (currency : Currency) (before after : STAmount) : LedgerM transfer Bool := do
  let senderHigh := decide (receiver < sender)
  let reserve := if !senderHigh then lsfLowReserve else lsfHighReserve
  let sle ← peek (.account sender)
  if before.isPositive && !after.isPositive && state.isFlag reserve then
    let noRipple := state.isFlag (if !senderHigh then lsfLowNoRipple else lsfHighNoRipple)
    let freeze := state.isFlag (if !senderHigh then lsfLowFreeze else lsfHighFreeze)
    let limit := if !senderHigh then state.lowLimit else state.highLimit
    let qualityIn := if !senderHigh then state.lowQualityIn else state.highQualityIn
    let qualityOut := if !senderHigh then state.lowQualityOut else state.highQualityOut
    if noRipple != (← deref sle).isFlag lsfDefaultRipple && !freeze && limit.isZero &&
        qualityIn.getD 0 == 0 && qualityOut.getD 0 == 0 then
      adjustOwnerCount sender (-1)
      clearLineFlags (lowAccount sender receiver) (highAccount sender receiver) currency reserve
      if after.isZero && !state.isFlag (if senderHigh then lsfLowReserve else lsfHighReserve) then
        return true
  return false

/-- What `issueIOU` and `redeemIOU` do to a line that is there. -/
def moveAlongLine (amount : STAmount) : LedgerM transfer TER := do
  let k := Key.rippleState sender receiver amount.getCurrency
  let senderHigh := decide (receiver < sender)
  let start_balance := if senderHigh then state.balance.negate else state.balance
  let final_balance ← start_balance.sub amount
  let must_delete ←
    updateTrustLine state sender receiver amount.getCurrency start_balance final_balance
  creditHook sender receiver amount
  setLineBalance (lowAccount sender receiver) (highAccount sender receiver) amount.getCurrency
    (if senderHigh then final_balance.negate else final_balance)
  if must_delete then
    return ← trustDelete state (if senderHigh then receiver else sender)
      (if senderHigh then sender else receiver) amount.getCurrency
  update k
  return .tesSUCCESS

/-- Credits `account` with an amount from its issuer. -/
def issueIOU (account : AccountID) (amount : STAmount) : LedgerM transfer TER := do
  let issuer := amount.getIssuer
  match ← peek (.rippleState issuer account amount.getCurrency) with
  | none =>
    let limit := STAmount.zeroOf ⟨amount.getCurrency, account⟩
    let final_balance := amount.setIssuer noAccount
    let receiverAccount ← deref (← peek (.account account))
    let noRipple := !receiverAccount.isFlag lsfDefaultRipple
    trustCreate (fun _ _ _ => [])
      ⟨decide (account < issuer), issuer, account, false, noRipple, false, final_balance, limit,
        0, 0⟩
      account (by simp [TrustCreate.marks, trustCreateMarks])
  | some state => moveAlongLine state issuer account amount

def redeemIOU (account : AccountID) (amount : STAmount) : LedgerM transfer TER := do
  let issuer := amount.getIssuer
  match ← peek (.rippleState account issuer amount.getCurrency) with
  | none => return .tefINTERNAL
  | some state => moveAlongLine state account issuer amount

def transferXRP (amount : STAmount) : LedgerM transfer TER := do
  let sleSender ← deref (← peek (.account sender))
  let sleReceiver ← peek (.account receiver)
  if ← sleSender.balance.lt amount then
    return if (← context).info.isOpen then .telFAILED_PROCESSING else .tecFAILED_PROCESSING
  setBalance sender (← sleSender.balance.sub amount)
  update (.account sender)
  setBalance receiver (← (← deref sleReceiver).balance.add amount)
  update (.account receiver)
  return .tesSUCCESS

end Sand
