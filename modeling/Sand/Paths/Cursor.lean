import Sand.Paths.PathState

/-!
# Delivering through order books

Computing one increment of a path works on a sandbox of its own.
-/

namespace Sand

open Evolution LedgerM View.Evolves MonoM STAmount

/-- What computing an increment of a path works on. -/
structure Calc where
  view : View
  path : PathState
  /-- The sources that earlier passes have used. -/
  mumSource : AccountIssueToNodeIndex := []
  /-- Offers found to be unfunded, expired or broken. -/
  permanentlyUnfunded : List Key := []

def Calc.Evolves (s s' : Calc) : Prop := View.Evolves transfer s.view s'.view

instance : IsPreorder Calc Calc.Evolves where
  refl s := refl _ s.view
  trans _ _ _ h h' := trans h h'

abbrev CalcM (α : Type) := MonoM Calc.Evolves Fault α

instance : MonadLift (LedgerM transfer) CalcM where
  monadLift x := x.zoom Calc.view (fun s v => { s with view := v }) fun _ _ h => h

namespace CalcM

def get : CalcM Calc := gets id

def query {α : Type} (f : View → Except Fault α) : CalcM α :=
  (LedgerM.query f : LedgerM transfer α)

def setPath (f : PathState → PathState) : CalcM Unit :=
  modify (fun s => { s with path := f s.path }) fun s => refl _ s.view

variable (i : Nat)

def node : CalcM Node :=
  gets fun s => s.path.nodes.getD i {}

def setNode (f : Node → Node) : CalcM Unit :=
  setPath fun path => { path with nodes := path.nodes.modify i f }

def markUnfunded (index : Key) : CalcM Unit :=
  modify (fun s => { s with permanentlyUnfunded :=
      if index ∈ s.permanentlyUnfunded then s.permanentlyUnfunded
      else s.permanentlyUnfunded ++ [index] })
    fun s => refl _ s.view

def previousIndex : CalcM Nat :=
  gets fun s => if i = 0 then s.path.nodes.length - 1 else i - 1

def nextIndex : CalcM Nat :=
  gets fun s => min (i + 1) (s.path.nodes.length - 1)

end CalcM

/-! ## Walking a book -/

def View.succ (v : View) (book : Book) (rate : UInt64) : Option UInt64 :=
  (v.flatten.keys.filterMap fun
    | .dir (.book book' rate') 0 => if book' = book ∧ rate < rate' then some rate' else none
    | _ => none).min?

inductive Advance where
  | noAdvance
  | newQuality
  | endAdvance
  deriving DecidableEq

namespace NodeDirectory

variable (dir : NodeDirectory)

def restart (multiQuality : Bool) : NodeDirectory :=
  if multiQuality then { dir with current := none } else { dir with restartNeeded := true }

def rootPage (v : View) (book : Book) (rate : UInt64) : Option UInt64 :=
  (v.get (.dir (.book book rate) 0)).map fun _ => 0

def initBook (v : View) (book : Book) : Bool × NodeDirectory :=
  if dir.current.isSome then
    (false, dir)
  else
    let entry := rootPage v book 0
    (entry.isSome, ⟨some 0, entry.isNone, false, entry⟩)

/-- To the next quality, or back to the current one's start. -/
def advance (v : View) (book : Book) : Advance × NodeDirectory :=
  if !(dir.advanceNeeded || dir.restartNeeded) then
    (.noAdvance, dir)
  else
    match if dir.advanceNeeded then dir.current.bind (v.succ book) else dir.current with
    | none => (.endAdvance, ⟨none, false, false, dir.ledgerEntry⟩)
    | some rate => (.newQuality, ⟨some rate, false, false, rootPage v book rate⟩)

end NodeDirectory

namespace PathCursor

open CalcM

def NODE_ADVANCE_MAX_LOOPS : Nat := 100
def CALC_NODE_DELIVER_MAX_LOOPS : Nat := 40

def usedElsewhere (found : Option Nat) (i : Nat) (node : Node) : Bool :=
  found.any (· != i) && node.offerOwnerAccount != node.issue.account

def newOffer (reverse : Bool) (i : Nat) (owner : AccountID) (sequence : UInt32) (offer : Offer) :
    CalcM (Option TER) := do
  let index := Key.offer owner sequence
  setNode i fun node =>
    { node with
      offerOwnerAccount := owner
      saTakerPays := offer.takerPays
      saTakerGets := offer.takerGets }
  let s ← get
  let node ← node i
  if offer.expiration.any fun time => decide (time ≤ s.view.context.info.parentCloseTime) then
    markUnfunded index
    return none
  if !offer.takerPays.isPositive || !offer.takerGets.isPositive then
    if reverse then
      markUnfunded index
      return none
    else
      -- the reverse pass should have found it
      return if index ∈ s.permanentlyUnfunded then none else some .tefEXCEPTION
  if usedElsewhere (s.path.forward.find owner node.issue) i node then
    return none
  let foundReverse := s.path.reverse.find owner node.issue
  if usedElsewhere foundReverse i node then
    return none
  let foundPast := s.mumSource.find owner node.issue
  let funds ← query fun v => v.accountFunds owner offer.takerGets .zeroIfFrozen
  setNode i fun node => { node with saOfferFunds := funds }
  if !funds.isPositive then
    if reverse && foundReverse.isNone && foundPast.isNone then
      markUnfunded index
    return none
  if reverse && foundPast.isNone && foundReverse.isNone then
    setPath fun path => { path with reverse := path.reverse.insert owner node.issue i }
  setNode i fun node => { node with bFundsDirty := false, bEntryAdvance := false }
  return none

def nextEntry (multi reverse : Bool) (i : Nat) (book : Book) : CalcM (Option TER) := do
  let dir := (← node i).directory
  let entry := (← node i).uEntry
  match dir.current, dir.ledgerEntry with
  | some rate, some page =>
    match ← query fun v => v.dirNext (.book book rate) page entry with
    | .found page entry index =>
      setNode i fun node =>
        { node with
          directory := { node.directory with ledgerEntry := some page }
          uEntry := entry
          offerIndex := some index }
      match index with
      | .offer owner sequence =>
        match ← (peek (.offer owner sequence) : LedgerM transfer _) with
        | some offer => newOffer reverse i owner sequence offer
        | none =>
          setNode i fun node => { node with bEntryAdvance := true }
          return none
      | _ =>
        setNode i fun node => { node with bEntryAdvance := true }
        return none
    | step =>
      setNode i fun node =>
        match step with
        | .exhausted page entry =>
          { node with
            directory := { node.directory with ledgerEntry := some page }
            uEntry := entry
            offerIndex := none }
        | .corrupt page =>
          { node with
            directory := { node.directory with ledgerEntry := some page }
            uEntry := 0 }
        | .found _ _ _ => node
      if multi then
        setNode i fun node =>
          { node with directory := { node.directory with advanceNeeded := true } }
        return none
      else if !reverse then
        return some .telFAILED_PROCESSING
      else
        setNode i fun node => { node with bEntryAdvance := false, offerIndex := none }
        return none
  | _, _ => throw .crash

def refreshFunds (i : Nat) : CalcM Unit := do
  let current ← node i
  match current.offerIndex with
  | some (.offer owner sequence) =>
    let offer ← (deref (← (peek (.offer owner sequence) : LedgerM transfer _)) :
      LedgerM transfer Offer)
    let funds ← query fun v =>
      v.accountFunds current.offerOwnerAccount offer.takerGets .zeroIfFrozen
    setNode i fun node =>
      { node with
        saTakerPays := offer.takerPays
        saTakerGets := offer.takerGets
        saOfferFunds := funds
        bFundsDirty := false }
  | _ => throw .crash

def advanceRound (multi reverse : Bool) (i : Nat) : CalcM (Option TER) := do
  let previous ← node (← previousIndex i)
  let current ← node i
  let book : Book := ⟨previous.issue, current.issue⟩
  let v := (← get).view
  let (found, dir) := current.directory.initBook v book
  let (advance, dir) := dir.advance v book
  setNode i fun node => { node with directory := dir }
  if advance = .endAdvance then
    if reverse then
      setNode i fun node => { node with offerIndex := none }
      return some .tesSUCCESS
    else
      return some .telFAILED_PROCESSING
  if found || advance = .newQuality then
    let rate ← amountFromQuality (dir.current.getD 0)
    setNode i fun node => { node with saOfrRate := rate, uEntry := 0, bEntryAdvance := true }
  let current ← node i
  if current.bEntryAdvance then
    nextEntry multi reverse i book
  else
    if current.bFundsDirty then
      refreshFunds i
    return none

/-- Advances to a usable offer, unless the current one is used again. -/
def advanceLoop (multi reverse : Bool) (i : Nat) : Nat → CalcM TER
  | 0 => return .tefEXCEPTION
  | loops + 1 => do
    match ← advanceRound multi reverse i with
    | some ter => return ter
    | none =>
      let current ← node i
      if current.bEntryAdvance || current.directory.advanceNeeded then
        advanceLoop multi reverse i loops
      else
        return .tesSUCCESS

variable (multiQuality : Bool)

def advanceNode (amount : STAmount) (reverse : Bool) (i : Nat) : CalcM TER :=
  advanceLoop (multiQuality || amount.isZero) reverse i NODE_ADVANCE_MAX_LOOPS

/-! ## Reverse pass -/

/-- The directories of a book used to be restarted for each increment only. -/
def enableDirRestartFix (parentCloseTime : UInt32) : Bool := decide (493149600 < parentCloseTime)

/-- It ended the walk, was passed over, or delivered. -/
inductive Taken (α : Type) where
  | stop (ter : TER)
  | skip
  | delivered (amounts : α)

def adjustOffer (node : Node) (takerPays takerGets : STAmount) : CalcM Unit := do
  match node.offerIndex with
  | some (.offer owner sequence) =>
    (setOfferAmounts owner sequence takerPays takerGets : LedgerM transfer Unit)
    (update (.offer owner sequence) : LedgerM transfer Unit)
  | _ => throw .crash

def exceedsRate (i : Nat) (feeRate : STAmount) : CalcM Bool := do
  let rateMax := (← node i).saRateMax
  if multiQuality then
    return false
  else if rateMax.isZero then
    setNode i fun node => { node with saRateMax := feeRate }
    return false
  else if ← rateMax.lt feeRate then
    return true
  else
    if ← feeRate.lt rateMax then
      setNode i fun node => { node with saRateMax := feeRate }
    return false

/-- Asks the current offer for what is still wanted. -/
def reverseOffer (i : Nat) (outAccount : AccountID)
    (inner : AccountID → STAmount → CalcM (TER × STAmount)) (saOutReq saOutAct : STAmount) :
    CalcM (Taken STAmount) := do
  let current ← node i
  let previous ← node (← previousIndex i)
  let owner := current.offerOwnerAccount
  let saOutFeeRate := if owner = current.issue.account ∨ outAccount = current.issue.account
    then saOne else current.transferRate
  if ← exceedsRate multiQuality i saOutFeeRate then
    return .stop .tesSUCCESS
  let saOutPassReq ← (← current.saOfferFunds.min current.saTakerGets).min (← saOutReq.sub saOutAct)
  -- the fee goes to the issuer and is paid by the owner of the offer
  let saOutPlusFees ← saOutPassReq.mulRound saOutFeeRate saOutPassReq.issue false
  let saOutPassAct ← if ← current.saOfferFunds.lt saOutPlusFees then do
      saOutPassReq.min
        (← current.saOfferFunds.divRound saOutFeeRate current.saOfferFunds.issue true)
    else pure saOutPassReq
  let outputFee ← saOutPassAct.mulRound current.saOfrRate current.saTakerPays.issue true
  let saInPassReq ← current.saTakerPays.min outputFee
  if saInPassReq.isZero then
    setNode i fun node => { node with bEntryAdvance := true }
    return .skip
  let (result, saInPassAct) ← if !isXRP previous.account then pure (TER.tesSUCCESS, saInPassReq)
    else inner owner saInPassReq
  if result ≠ .tesSUCCESS then
    return .stop result
  let saOutPassAct ← if ← saInPassAct.lt saInPassReq then do
      let limited ← saOutPassReq.min
        (← saInPassAct.divRound current.saOfrRate current.saTakerGets.issue true)
      let outputFees ← limited.mulRound saOutFeeRate limited.issue true
      let _ ← current.saOfferFunds.min outputFees
      pure limited
    else pure saOutPassAct
  setNode i fun node => { node with bFundsDirty := true }
  let result ← (accountSend owner current.issue.account saOutPassAct : LedgerM transfer TER)
  if result ≠ .tesSUCCESS then
    return .stop result
  let takerGets ← current.saTakerGets.sub saOutPassAct
  let takerPays ← current.saTakerPays.sub saInPassAct
  if takerPays.isNegative || takerGets.isNegative then
    return .stop .telFAILED_PROCESSING
  adjustOffer current takerPays takerGets
  if saOutPassAct.same current.saTakerGets then
    setNode i fun node => { node with bEntryAdvance := true }
  let saOutAct ← saOutAct.add saOutPassAct
  let delivered ← (← node (← previousIndex i)).saRevDeliver.add saInPassAct
  setNode (← previousIndex i) fun node => { node with saRevDeliver := delivered }
  return .delivered saOutAct

/-- Unable to meet any of the request, the path is dry. -/
def reverseResult (ter : TER) (saOutAct : STAmount) : TER × STAmount :=
  (if ter = .tesSUCCESS ∧ saOutAct.isZero then .tecPATH_DRY else ter, saOutAct)

def reverseLoop (multiQuality : Bool) (i : Nat) (outAccount : AccountID)
    (inner : AccountID → STAmount → CalcM (TER × STAmount)) (saOutReq : STAmount) :
    Nat → STAmount → CalcM (TER × STAmount)
  | 0, saOutAct => do
    if ← saOutAct.lt saOutReq then return (.telFAILED_PROCESSING, saOutAct)
    else return reverseResult .tesSUCCESS saOutAct
  | loops + 1, saOutAct => do
    if !(← saOutAct.lt saOutReq) then
      return reverseResult .tesSUCCESS saOutAct
    let result ← advanceNode multiQuality saOutAct true i
    if result ≠ .tesSUCCESS ∨ (← node i).offerIndex.isNone then
      return reverseResult result saOutAct
    match ← reverseOffer multiQuality i outAccount inner saOutReq saOutAct with
    | .stop ter => return reverseResult ter saOutAct
    | .skip => reverseLoop multiQuality i outAccount inner saOutReq loops saOutAct
    | .delivered saOutAct =>
      reverseLoop multiQuality i outAccount inner saOutReq loops saOutAct

def deliverNodeReverseImpl (multiQuality : Bool) :
    Nat → AccountID → STAmount → CalcM (TER × STAmount)
  | 0, _, _ => throw .crash
  | i + 1, outAccount, saOutReq => do
    if !enableDirRestartFix (← get).view.context.info.parentCloseTime then
      setNode (i + 1) fun node => { node with directory := node.directory.restart multiQuality }
    reverseLoop multiQuality (i + 1) outAccount (deliverNodeReverseImpl multiQuality i) saOutReq
      CALC_NODE_DELIVER_MAX_LOOPS saOutReq.zeroed

def restartBooks (multiQuality : Bool) : Nat → CalcM Unit
  | 0 => return ()
  | i + 1 => do
    if !(← node (i + 1)).isAccount then
      setNode (i + 1) fun node => { node with directory := node.directory.restart multiQuality }
      restartBooks multiQuality i

def deliverNodeReverse (i : Nat) (outAccount : AccountID)
    (saOutReq : STAmount) : CalcM (TER × STAmount) := do
  if enableDirRestartFix (← get).view.context.info.parentCloseTime then
    restartBooks multiQuality i
  deliverNodeReverseImpl multiQuality i outAccount saOutReq

/-! ## Forward pass -/

/-- What the current offer can take in and give out. -/
structure ForwardOffer where
  saInFeeRate : STAmount
  saOutFunded : STAmount
  saInFunded : STAmount
  saInSum : STAmount
  saInPassAct : STAmount
  saOutPassMax : STAmount
  saInPassFeesMax : STAmount

def forwardAmounts (current previous : Node) (inAccount : AccountID)
    (saInReq saInAct saInFees : STAmount) : Except Fault ForwardOffer := do
  let noFee := isXRP previous.issue.currency || inAccount == previous.issue.account ||
    current.offerOwnerAccount == previous.issue.account
  let saInFeeRate := if noFee then saOne else previous.transferRate
  let saOutFunded ← current.saOfferFunds.min current.saTakerGets
  let saOutPassFunded ← saOutFunded.min (← current.saRevDeliver.sub current.saFwdDeliver)
  let saInFunded ← saOutPassFunded.mulRound current.saOfrRate current.saTakerPays.issue true
  let saInTotal ← saInFunded.mulRound saInFeeRate saInFunded.issue true
  let remaining ← (← saInReq.sub saInAct).sub saInFees
  let saInRemaining := if remaining.isNegative then remaining.zeroed else remaining
  let saInSum ← saInTotal.min saInRemaining
  let saInPassAct ← current.saTakerPays.min (← saInSum.divRound saInFeeRate saInSum.issue true)
  let outPass ← saInPassAct.divRound current.saOfrRate current.saTakerGets.issue true
  let saOutPassMax ← saOutPassFunded.min outPass
  let saInPassFeesMax ← saInSum.sub saInPassAct
  return ⟨saInFeeRate, saOutFunded, saInFunded, saInSum, saInPassAct, saOutPassMax, saInPassFeesMax⟩

/-- What an offer took in, gave out and was charged. -/
structure ForwardTaken where
  saInPassAct : STAmount
  saInPassFees : STAmount
  saOutPassAct : STAmount

/-- To the next account or through the next order book. -/
def forwardOutput (current next : Node) (amounts : ForwardOffer)
    (inner : AccountID → STAmount → CalcM (TER × STAmount × STAmount)) (saInReq : STAmount) :
    CalcM (TER × ForwardTaken) := do
  let owner := current.offerOwnerAccount
  if !isXRP next.account then
    let result ← (accountSend owner next.account amounts.saOutPassMax : LedgerM transfer TER)
    return (result, ⟨amounts.saInPassAct, amounts.saInPassFeesMax, amounts.saOutPassMax⟩)
  else
    let (result, saOutPassAct, saOutPassFees) ← inner owner amounts.saOutPassMax
    if result ≠ .tesSUCCESS then
      return (result, ⟨amounts.saInPassAct, amounts.saInPassFeesMax, saOutPassAct⟩)
    let (saInPassAct, saInPassFees) ← if saOutPassAct.same amounts.saOutPassMax then
        pure (amounts.saInPassAct, amounts.saInPassFeesMax)
      else do
        let saInPassAct ← current.saTakerPays.min
          (← saOutPassAct.mulRound current.saOfrRate saInReq.issue true)
        let inPassFees ← saInPassAct.mulRound amounts.saInFeeRate saInPassAct.issue true
        pure (saInPassAct, ← amounts.saInPassFeesMax.min inPassFees)
    -- the issuer gets the fees; the result of this send is not looked at
    let id := if isXRP current.issue.currency then xrpAccount else current.issue.account
    let _ ← (accountSend owner id (← saOutPassAct.add saOutPassFees) : LedgerM transfer TER)
    return (.tesSUCCESS, ⟨saInPassAct, saInPassFees, saOutPassAct⟩)

def forwardOffer (i : Nat) (inAccount : AccountID)
    (inner : AccountID → STAmount → CalcM (TER × STAmount × STAmount))
    (saInReq saInAct saInFees : STAmount) : CalcM (Taken (STAmount × STAmount)) := do
  let current ← node i
  let previous ← node (← previousIndex i)
  let next ← node (← nextIndex i)
  let owner := current.offerOwnerAccount
  let amounts ← forwardAmounts current previous inAccount saInReq saInAct saInFees
  let unfunded : CalcM Unit := do
    setPath fun path => { path with
      unfundedOffers := path.unfundedOffers ++ current.offerIndex.toList }
    setNode i fun node => { node with bEntryAdvance := true }
  if current.saTakerPays.isZero || !amounts.saInSum.isPositive || amounts.saInFunded.isZero then
    unfunded
    return .skip
  let (result, taken) ← forwardOutput current next amounts inner saInReq
  if result ≠ .tesSUCCESS then
    return .stop result
  setNode i fun node => { node with bFundsDirty := true }
  -- nobody is made to credit themselves
  if isXRP previous.issue.currency || inAccount != owner then
    let id := if isXRP previous.issue.currency then xrpAccount else inAccount
    let result ← (accountSend id owner taken.saInPassAct : LedgerM transfer TER)
    if result ≠ .tesSUCCESS then
      return .stop result
  let takerGets ← current.saTakerGets.sub taken.saOutPassAct
  let takerPays ← current.saTakerPays.sub taken.saInPassAct
  if takerPays.isNegative || takerGets.isNegative then
    return .stop .telFAILED_PROCESSING
  adjustOffer current takerPays takerGets
  if taken.saOutPassAct.same amounts.saOutFunded || takerGets.isZero then
    unfunded
  let saInAct ← saInAct.add taken.saInPassAct
  let saInFees ← saInFees.add taken.saInPassFees
  let delivered ← (← node i).saFwdDeliver.add taken.saOutPassAct
  let saFwdDeliver ← (← node i).saRevDeliver.min delivered
  setNode i fun node => { node with saFwdDeliver := saFwdDeliver }
  return .delivered (saInAct, saInFees)

def forwardLoop (multiQuality : Bool) (i : Nat) (inAccount : AccountID)
    (inner : AccountID → STAmount → CalcM (TER × STAmount × STAmount)) (saInReq : STAmount) :
    Nat → STAmount → STAmount → CalcM (TER × STAmount × STAmount)
  | 0, saInAct, saInFees => do
    if ← (← saInAct.add saInFees).lt saInReq then
      return (.telFAILED_PROCESSING, saInAct, saInFees)
    else
      return (.tesSUCCESS, saInAct, saInFees)
  | loops + 1, saInAct, saInFees => do
    if !(← (← saInAct.add saInFees).lt saInReq) then
      return (.tesSUCCESS, saInAct, saInFees)
    -- the result of advancing is not looked at
    let _ ← advanceNode multiQuality saInAct false i
    if (← node i).offerIndex.isNone then
      return (.telFAILED_PROCESSING, saInAct, saInFees)
    match ← forwardOffer i inAccount inner saInReq saInAct saInFees with
    | .stop ter => return (ter, saInAct, saInFees)
    | .skip => forwardLoop multiQuality i inAccount inner saInReq loops saInAct saInFees
    | .delivered (saInAct, saInFees) =>
      forwardLoop multiQuality i inAccount inner saInReq loops saInAct saInFees

def deliverNodeForward (multiQuality : Bool) :
    Nat → Nat → AccountID → STAmount → CalcM (TER × STAmount × STAmount)
  | 0, _, _, _ => throw .crash
  | books + 1, i, inAccount, saInReq => do
    setNode i fun node => { node with directory := node.directory.restart multiQuality }
    let next ← nextIndex i
    forwardLoop multiQuality i inAccount (deliverNodeForward multiQuality books next) saInReq
      CALC_NODE_DELIVER_MAX_LOOPS saInReq.zeroed saInReq.zeroed

end PathCursor

end Sand
