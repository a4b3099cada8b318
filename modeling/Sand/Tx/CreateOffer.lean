import Sand.Tx.OfferStream
import Sand.Tx.Operate

/-!
# Creating offers

A new offer first takes the offers it crosses, directly or over the native currency.
-/

namespace Sand

open Evolution PreCheckM CrossM LedgerM

namespace CreateOffer

def tfOfferCreateMask : Flags :=
  ~~~(tfUniversal ||| tfPassive ||| tfImmediateOrCancel ||| tfFillOrKill ||| tfSell)

variable (env : Env) (tx : STTx) (fields : OfferCreateTx)

def crossType : CrossType :=
  if fields.takerPays.native && !fields.takerGets.native then .iouToXrp
  else if fields.takerGets.native && !fields.takerPays.native then .xrpToIou
  else .iouToIou

def refusal (_ : Context) : Option TER :=
  let pays := fields.takerPays
  let gets := fields.takerGets
  if tx.flags.has tfOfferCreateMask then
    some .temINVALID_FLAG
  else if tx.flags.has tfImmediateOrCancel && tx.flags.has tfFillOrKill then
    some .temINVALID_FLAG
  else if fields.expiration = some 0 then
    some .temBAD_EXPIRATION
  else if fields.offerSequence = some 0 then
    some .temBAD_SEQUENCE
  else if !pays.isLegalNet || !gets.isLegalNet then
    some .temBAD_AMOUNT
  else if pays.native && gets.native then
    some .temBAD_OFFER
  else if !pays.isPositive || !gets.isPositive then
    some .temBAD_OFFER
  else if pays.getCurrency = gets.getCurrency ∧ pays.getIssuer = gets.getIssuer then
    some .temREDUNDANT
  else if pays.getCurrency = badCurrency ∨ gets.getCurrency = badCurrency then
    some .temBAD_CURRENCY
  else if pays.native != isXRP pays.getIssuer || gets.native != isXRP gets.getIssuer then
    some .temBAD_ISSUER
  else
    none

/-- Whether the account may hold what the taker pays. -/
def checkAcceptAsset (v : View) (account : AccountID) (issue : Issue) : TER :=
  let retry := v.context.flags.has tapRETRY
  match v.get (.account issue.account) with
  | none => if retry then .terNO_ACCOUNT else .tecNO_ISSUER
  | some issuer =>
    if !issuer.isFlag lsfRequireAuth then
      .tesSUCCESS
    else
      match v.get (.rippleState account issue.account issue.currency) with
      | none => if retry then .terNO_LINE else .tecNO_LINE
      | some line =>
        if line.isFlag (if issue.account < account then lsfLowAuth else lsfHighAuth) then
          .tesSUCCESS
        else if retry then .terNO_AUTH
        else .tecNO_AUTH

/-! ## Crossing -/

variable (taker : Taker) (when : UInt32)

def dryOffer (offer : TipOffer) : CrossM Bool := do
  if offer.fullyConsumed then
    return true
  else
    return !(← Taker.getFunds offer.owner offer.amounts.output).isPositive

def stepAccountFrom : Nat → OfferStream → CrossM (Option Tip)
  | 0, _ => throw .crash
  | bound + 1, stream => do
    match ← stream.step when with
    | none => return none
    | some tip =>
      if taker.reject tip.offer.quality || tip.offer.owner != taker.account then
        return some tip
      else
        stepAccountFrom bound tip.stream

def stepAccount (stream : OfferStream) : CrossM (Option Tip) := do
  stepAccountFrom taker when (← get).view.streamBound stream

def offerCrossingLimit : Nat := 850

def reachedOfferCrossingLimit (s : Crossing) : Bool :=
  decide (offerCrossingLimit ≤ s.directCrossings + 2 * s.bridgeCrossings)

/-- The result to end with, or nothing to go on. -/
def afterCross (result : TER) (consumed : Bool) : CrossM (Option TER) := do
  if result ≠ .tesSUCCESS then
    return some .tecFAILED_PROCESSING
  else if ← taker.done then
    return some .tesSUCCESS
  else if reachedOfferCrossingLimit (← get) then
    return some .tesSUCCESS
  else if consumed then
    return none
  else
    throw .exception

def takeTip (next : OfferStream → CrossM (Option Tip)) (tip : Tip) :
    CrossM (TER × Bool × Option Tip) := do
  let (result, offer) ← taker.cross tip.offer
  if ← dryOffer offer then
    return (result, true, ← next tip.stream)
  else
    return (result, false, some { tip with offer })

/-- Rounds but the last cross an offer, so the limit bounds them. -/
def directCrossLoop : Nat → Option Tip → CrossM TER
  | 0, _ => return .tesSUCCESS
  | _ + 1, none => return .tesSUCCESS
  | rounds + 1, some tip => do
    if taker.reject tip.offer.quality then
      return .tesSUCCESS
    let (result, consumed, next) ← takeTip taker (stepAccount taker when) tip
    match ← afterCross taker result consumed with
    | some result => return result
    | none => directCrossLoop rounds next

def directCross : CrossM TER := do
  let remaining := (← get).remaining
  let offers ← stepAccount taker when { book := ⟨remaining.input.issue, remaining.output.issue⟩ }
  directCrossLoop taker when offerCrossingLimit offers

structure Bridge where
  leg1 : Tip
  leg2 : Tip

/-- Whether the direct book is better, and the quality. -/
def selectPath : Option Tip → Option Bridge → Except Fault (Option (Bool × Quality))
  | none, none => .ok none
  | some direct, none => .ok (some (true, direct.offer.quality))
  | direct, some bridge => do
    let bridged ← Quality.composed bridge.leg1.offer.quality bridge.leg2.offer.quality
    match direct with
    | none => return some (false, bridged)
    | some direct =>
      let quality := direct.offer.quality
      if bridged.worse quality then return some (true, quality) else return some (false, bridged)

/-- Takes both legs and moves on those used up. -/
def takeBridge (bridge : Bridge) : CrossM (TER × Bool × Option Bridge) := do
  let (result, offer1, offer2) ← taker.crossBridge bridge.leg1.offer bridge.leg2.offer
  let dry1 ← dryOffer offer1
  let leg1 ← if dry1 then bridge.leg1.stream.step when
    else pure (some { bridge.leg1 with offer := offer1 })
  let dry2 ← dryOffer offer2
  match leg1 with
  | none => return (result, true, none)
  | some leg1 =>
    let leg2 ← if dry2 then bridge.leg2.stream.step when
      else pure (some { bridge.leg2 with offer := offer2 })
    return (result, dry1 || dry2, leg2.map fun leg2 => ⟨leg1, leg2⟩)

def bridgedCrossLoop : Nat → Option Tip → Option Bridge → CrossM TER
  | 0, _, _ => return .tesSUCCESS
  | rounds + 1, direct, bridge => do
    match ← selectPath direct bridge with
    | none => return .tesSUCCESS
    | some (useDirect, quality) =>
      if taker.reject quality then
        return .tesSUCCESS
      match if useDirect then direct else none, bridge with
      | some tip, _ =>
        let (result, consumed, next) ← takeTip taker (stepAccount taker when) tip
        match ← afterCross taker result consumed with
        | some result => return result
        | none => bridgedCrossLoop rounds next bridge
      | none, some legs =>
        let (result, consumed, next) ← takeBridge taker when legs
        match ← afterCross taker result consumed with
        | some result => return result
        | none => bridgedCrossLoop rounds direct next
      | none, none => return .tesSUCCESS

/-- The taker's own are passed over only in the direct book. -/
def bridgedCross : CrossM TER := do
  if taker.original.input.native || taker.original.output.native then
    throw .exception
  let remaining := (← get).remaining
  let input := remaining.input.issue
  let output := remaining.output.issue
  let bridge ← match ← OfferStream.step when { book := ⟨input, xrpIssue⟩ } with
    | none => pure none
    | some leg1 => do
      let leg2 ← OfferStream.step when { book := ⟨xrpIssue, output⟩ }
      pure (leg2.map fun leg2 => ⟨leg1, leg2⟩)
  let direct ← stepAccount taker when { book := ⟨input, output⟩ }
  bridgedCrossLoop taker when offerCrossingLimit direct bridge

variable (account : AccountID)

/-- An exception leaves what was done. -/
def cross (offer : Amounts) : CrossM (TER × Amounts) := do
  let context := (← get).view.context
  let taker ← query fun v => .ok (Taker.make v (crossType fields) account offer tx.flags)
  setRemaining offer
  let run : CrossM (TER × Amounts) := do
    let result ← if taker.crossType = .iouToIou then bridgedCross taker context.info.parentCloseTime
      else directCross taker context.info.parentCloseTime
    return (result, ← taker.remainingOffer)
  tryCatch run fun
    | .exception => return (.tecINTERNAL, ← taker.remainingOffer)
    | .crash => throw .crash

/-! ## Placing -/

def getAccountReserve (context : Context) (wrongOwnerCount ownerCount : UInt32) : STAmount :=
  .ofDrops (context.fees.accountReserve
    ((if context.info.parentCloseTime ≤ 493149600 then wrongOwnerCount else ownerCount) + 1))

/-- Into its owner's directory and its book. -/
def placeOffer (rate : UInt64) (pays gets : STAmount) :
    LedgerM ownerObjects TER := do
  let index := Key.offer account tx.sequence
  let (result, ownerNode) ← (dirAdd (.owner account) index : LedgerM ownerObjects (TER × UInt64))
  if result ≠ .tesSUCCESS then
    return result
  (adjustOwnerCount account 1 : LedgerM ownerObjects Unit)
  let directory := DirRoot.book ⟨pays.issue, gets.issue⟩ rate
  let (result, bookNode) ← (dirAdd directory index : LedgerM ownerObjects (TER × UInt64))
  if result ≠ .tesSUCCESS then
    return result
  insert (.offer account tx.sequence)
    { flags := (if tx.flags.has tfPassive then lsfPassive else 0) |||
        (if tx.flags.has tfSell then lsfSell else 0)
      takerPays := pays
      takerGets := gets
      bookDirectory := directory
      bookNode := bookNode
      ownerNode := ownerNode
      expiration := if fields.expiration = some 0 then none else fields.expiration } trivial
  return .tesSUCCESS

/-- Why the offer is not even tried. -/
def unacceptable (v : View) (account : AccountID) (root : AccountRoot) :
    Except Fault (Option TER) := do
  if v.isGlobalFrozen fields.takerPays.getIssuer || v.isGlobalFrozen fields.takerGets.getIssuer then
    return some .tecFROZEN
  else if !(← v.accountFunds account fields.takerGets .zeroIfFrozen).isPositive then
    return some .tecUNFUNDED_OFFER
  else if fields.offerSequence.any fun cancel => decide (root.sequence - 1 ≤ cancel) then
    return some .temBAD_SEQUENCE
  else
    return none

def cancelReplaced : LedgerM transfer TER := do
  match fields.offerSequence with
  | none => return .tesSUCCESS
  | some sequence =>
    match ← peek (.offer account sequence) with
    | none => return .tesSUCCESS
    | some offer => offerDelete account sequence offer

/-- What becomes of the part not crossed. -/
def placeRemaining (s : TxState) (rate : UInt64) (wrongOwnerCount : UInt32) (crossed : Bool)
    (remaining : Amounts) : CrossM (TER × Bool) := do
  if tx.flags.has tfFillOrKill then
    return (.tesSUCCESS, false)
  if tx.flags.has tfImmediateOrCancel then
    return (.tesSUCCESS, true)
  let root ← onView do deref (← peek (.account s.account))
  if ← s.priorBalance.lt (getAccountReserve s.view.context wrongOwnerCount root.ownerCount) then
    -- something crossed, so the reserve for the rest is not asked for
    return (if crossed then .tesSUCCESS else .tecINSUF_RESERVE_OFFER, true)
  return (← placeOffer tx fields s.account rate remaining.output remaining.input, true)

/-- The result, and whether changes are kept. -/
def applyGuts (s : TxState) : CrossM (TER × Bool) := do
  let pays := fields.takerPays
  let gets := fields.takerGets
  if !pays.isLegalNet || !gets.isLegalNet then
    return (.temBAD_AMOUNT, true)
  let root ← onView do deref (← peek (.account s.account))
  let rate := STAmount.getRate gets pays
  if let some ter ← query fun v => unacceptable fields v s.account root then
    return (ter, true)
  let result ← onView (cancelReplaced fields s.account)
  if fields.expiration.any fun time => decide (time ≤ s.view.context.info.parentCloseTime) then
    return (.tesSUCCESS, true)
  if result ≠ .tesSUCCESS then
    return (result, true)
  let accepts := if pays.native then .tesSUCCESS
    else checkAcceptAsset s.view s.account pays.issue
  if accepts ≠ .tesSUCCESS then
    return (accepts, true)
  let (result, remaining) ← cross tx fields s.account ⟨gets, pays⟩
  if result = .tecFAILED_PROCESSING && s.view.context.info.isOpen then
    return (.telFAILED_PROCESSING, true)
  if result ≠ .tesSUCCESS then
    return (result, true)
  if remaining.input.isNegative || remaining.output.isNegative then
    return (.tefINTERNAL, true)
  if remaining.input.isZero || remaining.output.isZero then
    return (.tesSUCCESS, true)
  placeRemaining tx fields s rate root.ownerCount (!Amounts.same ⟨gets, pays⟩ remaining) remaining

end CreateOffer

/-- Two fresh sandboxes, one of which is applied. -/
def LedgerM.inCrossingSandboxes {α : Type} (x : CrossM (α × Bool)) : LedgerM ownerObjects α where
  run v :=
    match x.run { view := v.sandbox, cancel := v.sandbox } with
    | (.error fault, _) => (.error fault, v)
    | (.ok (a, keep), s) =>
      match (if keep then s.view else s.cancel).applyTo v with
      | .error fault => (.error fault, v)
      | .ok v' => (.ok a, v')
  mono v := by
    have hx := x.mono { view := v.sandbox, cancel := v.sandbox }
    rcases hr : x.run { view := v.sandbox, cancel := v.sandbox } with ⟨fault | ⟨a, keep⟩, s⟩
    · exact View.Evolves.refl _ v
    rw [hr] at hx
    have hc : View.Evolves ownerObjects v.sandbox (if keep then s.view else s.cancel) := by
      cases keep
      · exact hx.cancel
      · exact hx.view
    cases hap : (if keep then s.view else s.cancel).applyTo v with
    | error fault => simpa only [hap] using View.Evolves.refl _ v
    | ok v' =>
      simpa only [hap] using View.evolves_applyTo (View.openedOn_sandbox v) hc hap

namespace CreateOffer

variable (env : Env) (tx : STTx) (fields : OfferCreateTx)

def doApply : TxM ordinary TER := do
  let s ← (members : TxM ordinary TxState)
  (inCrossingSandboxes (applyGuts tx fields s) : LedgerM ownerObjects TER)

def processor : Processor ordinary :=
  Transactor.standard env tx
    (Transactor.preCheckWith env tx (refusal tx fields)) (doApply tx fields)

end CreateOffer

end Sand
