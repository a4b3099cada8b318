import Sand.Paths.Cursor
import Sand.Tx.Taker

/-!
# Crossing offers

One sandbox for filling offers, and one that keeps only the removals of dead ones.
-/

namespace Sand

open Evolution View.Evolves LedgerM

structure Crossing where
  view : View
  cancel : View
  /-- What the taker still wants to take. -/
  remaining : Amounts := {}
  xrpFlow : STAmount := STAmount.zeroDrops
  directCrossings : Nat := 0
  bridgeCrossings : Nat := 0

structure Crossing.Evolves (s s' : Crossing) : Prop where
  view : View.Evolves ownerObjects s.view s'.view
  cancel : View.Evolves ownerObjects s.cancel s'.cancel

instance : IsPreorder Crossing Crossing.Evolves where
  refl s := ⟨refl _ s.view, refl _ s.cancel⟩
  trans _ _ _ h h' := ⟨h.view.trans h'.view, h.cancel.trans h'.cancel⟩

abbrev CrossM (α : Type) := MonoM Crossing.Evolves Fault α

instance : MonadLift (LedgerM ownerObjects) CrossM where
  monadLift x := x.zoom Crossing.view (fun s v => { s with view := v })
    fun s _ h => ⟨h, refl _ s.cancel⟩

namespace CrossM

def get : CrossM Crossing := MonoM.gets id

/-- On the view that offers are filled in. -/
def query {α : Type} (f : View → Except Fault α) : CrossM α :=
  (LedgerM.query f : LedgerM ownerObjects α)

/-- Moves value in the view that offers are filled in. -/
def onView {α : Type} (x : LedgerM transfer α) : CrossM α :=
  (x : LedgerM ownerObjects α)

/-- Moves value in the view for a crossing called off. -/
def onCancel {α : Type} (x : LedgerM transfer α) : CrossM α :=
  (x.lift : LedgerM ownerObjects α).zoom Crossing.cancel (fun s v => { s with cancel := v })
    fun s _ h => ⟨refl _ s.view, h⟩

def setRemaining (remaining : Amounts) : CrossM Unit :=
  MonoM.modify (fun s => { s with remaining := remaining }) fun s =>
    ⟨refl _ s.view, refl _ s.cancel⟩

def count (direct bridge : Nat) (xrpFlow : STAmount) : CrossM Unit :=
  MonoM.modify (fun s => { s with
      directCrossings := s.directCrossings + direct
      bridgeCrossings := s.bridgeCrossings + bridge
      xrpFlow := xrpFlow })
    fun s => ⟨refl _ s.view, refl _ s.cancel⟩

end CrossM

open CrossM

/-! ## Streams -/

structure TipOffer where
  owner : AccountID
  sequence : UInt32
  quality : Quality
  amounts : Amounts
  deriving DecidableEq

def TipOffer.fullyConsumed (offer : TipOffer) : Bool := offer.amounts.empty

structure OfferStream where
  book : Book
  /-- The first one with a greater rate. -/
  position : UInt64 := 0
  /-- The entry presented last, to go next. -/
  entry : Option (AccountID × UInt32) := none
  deriving DecidableEq

structure Tip where
  offer : TipOffer
  stream : OfferStream
  deriving DecidableEq

/-- Its directory's rate, the page and the index. -/
def View.bookFirst (v : View) (book : Book) :
    Nat → UInt64 → Except Fault (Option (UInt64 × UInt64 × Key))
  | 0, _ => .ok none
  | directories + 1, position =>
    match v.succ book position with
    | none => .ok none
    | some rate => do
      match ← v.dirNext (.book book rate) 0 0 with
      | .found page _ index => return some (rate, page, index)
      | _ => v.bookFirst book directories rate

def View.listed (v : View) : Nat :=
  (v.flatten.entries.map fun
    | ⟨.dir _ _, node⟩ => node.indexes.length
    | _ => 0).sum

/-- A step takes an index or removes an offer. -/
def View.streamBound (v : View) : Nat := v.listed + v.flatten.keys.length + 1

namespace OfferStream

/-- Removes an index that leads nowhere from its page. -/
def erase (root : DirRoot) (page : UInt64) (index : Key) : LedgerM transfer Unit := do
  match ← peek (.dir root page) with
  | none => return
  | some node =>
    if index ∈ node.indexes then
      alterDir root page fun node => { node with indexes := node.indexes.erase index }
      update (.dir root page)

def deleteOffer (owner : AccountID) (sequence : UInt32) : LedgerM transfer Unit := do
  match ← peek (.offer owner sequence) with
  | some offer =>
    let _ ← offerDelete owner sequence offer
    return
  | none => return

/-- Deletes the last offer and goes to the next. -/
def tipStep (stream : OfferStream) : CrossM (Option (UInt64 × UInt64 × Key)) := do
  if let some (owner, sequence) := stream.entry then
    onView do
      let offer ← deref (← peek (.offer owner sequence))
      let _ ← offerDelete owner sequence offer
  query fun v => v.bookFirst stream.book (v.flatten.keys.length + 1) stream.position

def dead (offer : Offer) (when : UInt32) : Bool :=
  offer.expiration.any (fun time => decide (time ≤ when)) ||
    Amounts.empty ⟨offer.takerPays, offer.takerGets⟩

/-- Goes to the next live offer of the book. -/
def stepFrom (when : UInt32) : Nat → OfferStream → CrossM (Option Tip)
  | 0, _ => throw .crash
  | bound + 1, stream => do
    match ← tipStep stream with
    | none => return none
    | some (rate, page, index) =>
      let next : OfferStream := { book := stream.book, position := rate - 1 }
      let missing : CrossM (Option Tip) := do
        onView (erase (.book stream.book rate) page index)
        onCancel (erase (.book stream.book rate) page index)
        stepFrom when bound next
      match index with
      | .offer owner sequence =>
        match ← onView (peek (.offer owner sequence)) with
        | none => missing
        | some offer =>
          let next := { next with entry := some (owner, sequence) }
          if dead offer when then
            onCancel (deleteOffer owner sequence)
            stepFrom when bound next
          else
            let funds (v : View) := v.accountFunds owner offer.takerGets .zeroIfFrozen
            let ownerFunds ← query funds
            if ownerFunds.isPositive then
              return some ⟨⟨owner, sequence, rate, ⟨offer.takerPays, offer.takerGets⟩⟩, next⟩
            else
              -- an offer is removed for good only if it was unfunded to begin with
              let originalFunds ← onCancel (LedgerM.query funds)
              if originalFunds.same ownerFunds then
                onCancel (deleteOffer owner sequence)
              stepFrom when bound next
      | _ => missing

def step (when : UInt32) (stream : OfferStream) : CrossM (Option Tip) := do
  stepFrom when (← get).view.streamBound stream

end OfferStream

/-! ## Filling offers -/

namespace Taker

variable (taker : Taker)

def getFunds (account : AccountID) (amount : STAmount) : CrossM STAmount :=
  query fun v => v.accountFunds account amount .zeroIfFrozen

/-- It has paid all, got all or has nothing left to pay with. -/
def done : CrossM Bool := do
  let remaining := (← get).remaining
  if !remaining.input.isPositive then
    return true
  else if !taker.sell && !remaining.output.isPositive then
    return true
  else
    return !(← getFunds taker.account remaining.input).isPositive

/-- What is left to place, at the original quality. -/
def remainingOffer : CrossM Amounts := do
  let remaining := (← get).remaining
  if ← taker.done then
    return ⟨remaining.input.zeroed, remaining.output.zeroed⟩
  else if taker.original.same remaining then
    return taker.original
  else
    let rate ← taker.quality.rate
    if taker.sell then
      return ⟨remaining.input, ← remaining.input.divRound rate remaining.output.issue true⟩
    else
      return ⟨← remaining.output.mulRound rate remaining.input.issue true, remaining.output⟩

def consumeOffer (offer : TipOffer) (order : Amounts) : CrossM TipOffer := do
  if order.input.isNegative || order.output.isNegative then
    throw .exception
  if ← offer.amounts.input.lt order.input then
    throw .exception
  if ← offer.amounts.output.lt order.output then
    throw .exception
  let input ← offer.amounts.input.sub order.input
  let output ← offer.amounts.output.sub order.output
  onView do
    setOfferAmounts offer.owner offer.sequence input output
    update (.offer offer.owner offer.sequence)
  return { offer with amounts := ⟨input, output⟩ }

def transferXRP (sender receiver : AccountID) (amount : STAmount) : CrossM TER := do
  if !amount.native then
    throw .exception
  else if sender = receiver ∨ amount.isZero then
    return .tesSUCCESS
  else
    onView (Sand.transferXRP sender receiver amount)

def redeemIOU (account : AccountID) (amount : STAmount) : CrossM TER := do
  if amount.native then
    throw .exception
  else if account = amount.getIssuer ∨ amount.isZero then
    return .tesSUCCESS
  else
    if !(← getFunds account amount).isPositive then
      throw .exception
    let result ← onView (Sand.redeemIOU account amount)
    if (← getFunds account amount).isNegative then
      throw .exception
    return result

def issueIOU (account : AccountID) (amount : STAmount) : CrossM TER := do
  if amount.native then
    throw .exception
  else if account = amount.getIssuer ∨ amount.isZero then
    return .tesSUCCESS
  else
    onView (Sand.issueIOU account amount)

def andThen (first second : CrossM TER) : CrossM TER := do
  let result ← first
  if result = .tesSUCCESS then second else return result

def sendIOU (sender : AccountID) (spent : STAmount) (receiver : AccountID) (amount : STAmount) :
    CrossM TER :=
  andThen (redeemIOU sender spent) (issueIOU receiver amount)

def fill (flow : Flow) (offer : TipOffer) : CrossM (TER × TipOffer) := do
  let offer ← consumeOffer offer flow.order
  let pay := if taker.crossType = .xrpToIou then
      transferXRP taker.account offer.owner flow.order.input
    else
      sendIOU taker.account flow.issuers.input offer.owner flow.order.input
  let receive := if taker.crossType = .iouToXrp then
      transferXRP offer.owner taker.account flow.order.output
    else
      sendIOU offer.owner flow.issuers.output taker.account flow.order.output
  let result ← andThen pay receive
  if result = .tesSUCCESS then
    count 1 0 (← get).xrpFlow
  return (result, offer)

def fillBridge (flow1 : Flow) (leg1 : TipOffer) (flow2 : Flow) (leg2 : TipOffer) :
    CrossM (TER × TipOffer × TipOffer) := do
  let leg1 ← consumeOffer leg1 flow1.order
  let leg2 ← consumeOffer leg2 flow2.order
  let pay := if leg1.owner = taker.account then pure .tesSUCCESS
    else sendIOU taker.account flow1.issuers.input leg1.owner flow1.order.input
  let bridge := transferXRP leg1.owner leg2.owner flow1.order.output
  let receive := if leg2.owner = taker.account then pure .tesSUCCESS
    else sendIOU leg2.owner flow2.issuers.output taker.account flow2.order.output
  let result ← andThen pay (andThen bridge receive)
  if result = .tesSUCCESS then
    count 0 1 (← (← get).xrpFlow.add flow1.order.output)
  return (result, leg1, leg2)

/-- Takes off what has flowed. -/
def lowerRemaining (input output : STAmount) : CrossM Unit := do
  let remaining := (← get).remaining
  let output ← remaining.output.sub output
  setRemaining { remaining with output }
  let input ← remaining.input.sub input
  setRemaining ⟨input, output⟩

def doCross (offer : TipOffer) : CrossM Flow := do
  let ownerFunds ← getFunds offer.owner offer.amounts.output
  let takerFunds ← getFunds taker.account offer.amounts.input
  let flow ← taker.directFlow (← get).remaining offer.quality offer.amounts offer.owner
    ownerFunds takerFunds
  lowerRemaining flow.order.input flow.order.output
  return flow

def doCrossBridge (leg1 leg2 : TipOffer) : CrossM (Flow × Flow) := do
  let remaining := (← get).remaining
  -- where the taker owns a leg, the offer itself is the limit
  let leg1In ← getFunds taker.account leg1.amounts.input
  let leg1In ← if taker.account = leg1.owner then leg1In.max leg1.amounts.input else pure leg1In
  let leg2Out ← getFunds leg2.owner leg2.amounts.output
  let leg2Out ← if taker.account = leg2.owner then leg2Out.max leg2.amounts.output else pure leg2Out
  let xrpFunds ← getFunds leg1.owner leg1.amounts.output
  let xrpFunds ← if leg1.owner = leg2.owner then leg1.amounts.output.max leg2.amounts.input
    else pure xrpFunds
  let rate1 := taker.inRate leg1.owner taker.account
  let rate2 := taker.outRate leg2.owner taker.account
  let flow1 ← taker.flowIouToXrp remaining leg1.quality leg1.amounts xrpFunds leg1In rate1
  if !flow1.sanityCheck then
    throw .exception
  let flow2 ← taker.flowXrpToIou remaining leg2.quality leg2.amounts leg2Out xrpFunds rate2
  if !flow2.sanityCheck then
    throw .exception
  let (flow1, flow2) ← balanceLegs leg1.quality leg2.quality rate1 rate2 flow1 flow2
  lowerRemaining flow1.order.input flow2.order.output
  return (flow1, flow2)

def cross (offer : TipOffer) : CrossM (TER × TipOffer) := do
  if offer.amounts.input.native && offer.amounts.output.native then
    return (.tefINTERNAL, offer)
  else
    taker.fill (← taker.doCross offer) offer

def crossBridge (leg1 leg2 : TipOffer) : CrossM (TER × TipOffer × TipOffer) := do
  if leg1.amounts.input.native || leg2.amounts.output.native then
    return (.tefINTERNAL, leg1, leg2)
  else
    let (flow1, flow2) ← taker.doCrossBridge leg1 leg2
    taker.fillBridge flow1 leg1 flow2 leg2

end Taker

end Sand
