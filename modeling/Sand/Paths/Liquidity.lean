import Sand.Paths.Cursor

/-!
# Liquidity of a path

The reverse pass narrows what can be asked for, the forward pass moves what that leaves.
-/

namespace Sand

open Evolution STAmount

def STAmount.uRateOne : UInt64 := getRate (.ofDrops 1) (.ofDrops 1)

namespace PathCursor

open CalcM

/-- What has been achieved between two nodes, and the rate not to worsen, zero while
there is none. -/
structure Flow where
  saPrvAct : STAmount
  saCurAct : STAmount
  uRateMax : UInt64

/-- A negative request is unlimited. -/
def rippleLiquidity (qualityIn qualityOut : UInt32) (saPrvReq saCurReq : STAmount) (flow : Flow) :
    Except Fault Flow := do
  let unlimited := saPrvReq.isNegative
  let saPrv ← if unlimited then pure saPrvReq else saPrvReq.sub flow.saPrvAct
  let saCur ← saCurReq.sub flow.saCurAct
  if saPrv.isZero || saCur.isZero then
    return flow
  if qualityOut ≤ qualityIn then
    -- no fee
    if flow.uRateMax = 0 ∨ uRateOne ≤ flow.uRateMax then
      let saTransfer ← if unlimited then pure saCur else saPrv.min saCur
      return ⟨← flow.saPrvAct.add saTransfer, ← flow.saCurAct.add saTransfer,
        if flow.uRateMax = 0 then uRateOne else flow.uRateMax⟩
    else
      return flow
  else
    let rateOut := ofDrops qualityOut.toUInt64
    let rateIn := ofDrops qualityIn.toUInt64
    let uRate := getRate rateOut rateIn
    if flow.uRateMax = 0 ∨ uRate ≤ flow.uRateMax then
      let uRateMax := if flow.uRateMax = 0 then uRate else flow.uRateMax
      let issue := saCur.issue
      let saCurIn ← (← saCur.mulRound rateOut issue true).divRound rateIn issue true
      if ← if unlimited then pure true else saCurIn.le saPrv then
        let saCurAct ← flow.saCurAct.add saCur
        return ⟨← flow.saPrvAct.add saCurIn, saCurAct, uRateMax⟩
      else
        let saCurOut ← (← saPrv.mulRound rateIn issue true).divRound rateOut issue true
        return ⟨saPrvReq, ← flow.saCurAct.add saCurOut, uRateMax⟩
    else
      return flow

/-! ## Accounts, in reverse -/

/-- What the lines around an account node allow. -/
structure ReverseLimits where
  qualityIn : UInt32
  qualityOut : UInt32
  transferRate : UInt32
  saPrvOwed : STAmount
  saPrvLimit : STAmount

def reverseLimits (v : View) (i last : Nat) (current previous next : Node) : ReverseLimits :=
  let currency := current.issue.currency
  let previousIsAccount := i == 0 || previous.isAccount
  let nextIsAccount := i == last || next.isAccount
  let previousAccount := if previousIsAccount then previous.account else current.account
  let nextAccount := if nextIsAccount then next.account else current.account
  let lined := previousIsAccount && i != 0
  { qualityIn := if i ≠ 0 then v.quality_in current.account previousAccount currency
      else qualityOne
    qualityOut := if i ≠ last then v.quality_out current.account nextAccount currency
      else qualityOne
    transferRate := v.rippleTransferRate current.account
    saPrvOwed := if lined then v.creditBalance current.account previousAccount currency
      else .zeroOf current.issue
    saPrvLimit := if lined then v.creditLimit current.account previousAccount currency
      else .zeroOf current.issue }

variable (limits : ReverseLimits)

/-- What can be redeemed: the IOUs held. -/
def ReverseLimits.saPrvRedeemReq : STAmount :=
  if limits.saPrvOwed.isPositive then limits.saPrvOwed else limits.saPrvOwed.zeroed

/-- What can be issued: the limit less what is owed. -/
def ReverseLimits.saPrvIssueReq : Except Fault STAmount :=
  if limits.saPrvOwed.isNegative then limits.saPrvLimit.add limits.saPrvOwed
  else .ok limits.saPrvLimit

/-- Unlimited, in the issue of the previous node. -/
def saPrvDeliverReq (previous : Node) : Except Fault STAmount :=
  canonicalize previous.saRevDeliver.issue 1 0 true

/-- What is asked of the previous node, and whether it can flow. -/
structure ReverseAsk where
  saRevRedeem : STAmount
  saRevIssue : STAmount
  saRevDeliver : STAmount
  ter : TER

def dryUnless (flows : Bool) : TER := if flows then .tesSUCCESS else .tecPATH_DRY

variable (path : PathState)

def reverseFinalFromAccount (limits : ReverseLimits) (previous : Node) :
    Except Fault ReverseAsk := do
  let saPrvRedeemReq := limits.saPrvRedeemReq
  let saPrvIssueReq ← limits.saPrvIssueReq
  let saCurWantedReq ← (← path.outReq.sub path.outAct).min
    (← limits.saPrvLimit.add limits.saPrvOwed)
  let (saRevRedeem, saCurWantedAct, uRateMax) ← if saPrvRedeemReq.isZero then
      pure (saPrvRedeemReq.zeroed, saCurWantedReq.zeroed, 0)
    else do
      let redeemed ← saPrvRedeemReq.min saCurWantedReq
      pure (redeemed, redeemed, uRateOne)
  let flow : Flow := ⟨saPrvIssueReq.zeroed, saCurWantedAct, uRateMax⟩
  let flow ← if !saCurWantedReq.same saCurWantedAct && !saPrvIssueReq.isZero then
      rippleLiquidity limits.qualityIn qualityOne saPrvIssueReq saCurWantedReq flow
    else pure flow
  return ⟨saRevRedeem, flow.saPrvAct, previous.saRevDeliver, dryUnless (!flow.saCurAct.isZero)⟩

def reverseThroughAccount (current previous : Node) :
    Except Fault ReverseAsk := do
  let saPrvRedeemReq := limits.saPrvRedeemReq
  let saPrvIssueReq ← limits.saPrvIssueReq
  -- redeem to redeem
  let redeem : Flow := ⟨saPrvRedeemReq.zeroed, current.saRevRedeem.zeroed, 0⟩
  let redeem ← if !current.saRevRedeem.isZero && !saPrvRedeemReq.isZero then
      rippleLiquidity qualityOne limits.qualityOut saPrvRedeemReq current.saRevRedeem redeem
    else pure redeem
  let saRevRedeem := redeem.saPrvAct
  -- issue to redeem
  let issue : Flow := ⟨saPrvIssueReq.zeroed, redeem.saCurAct, redeem.uRateMax⟩
  let issue ← if !current.saRevRedeem.same redeem.saCurAct && saRevRedeem.same saPrvRedeemReq then
      rippleLiquidity limits.qualityIn limits.qualityOut saPrvIssueReq current.saRevRedeem issue
    else pure issue
  let saRevIssue := issue.saPrvAct
  let saCurRedeemAct := issue.saCurAct
  -- redeem to issue
  let redeem : Flow := ⟨saRevRedeem, current.saRevIssue.zeroed, issue.uRateMax⟩
  let redeem ← if !current.saRevIssue.isZero && saCurRedeemAct.same current.saRevRedeem &&
      !saRevRedeem.same saPrvRedeemReq then
      rippleLiquidity qualityOne limits.transferRate saPrvRedeemReq current.saRevIssue redeem
    else pure redeem
  -- issue to issue
  let issue : Flow := ⟨saRevIssue, redeem.saCurAct, redeem.uRateMax⟩
  let issue ← if !current.saRevIssue.same redeem.saCurAct &&
      saCurRedeemAct.same current.saRevRedeem && saPrvRedeemReq.same redeem.saPrvAct &&
      !saPrvIssueReq.isZero then
      rippleLiquidity limits.qualityIn qualityOne saPrvIssueReq current.saRevIssue issue
    else pure issue
  return ⟨redeem.saPrvAct, issue.saPrvAct, previous.saRevDeliver,
    dryUnless (!(saCurRedeemAct.isZero && issue.saCurAct.isZero))⟩

def reverseAccountToOffer (current previous : Node) :
    Except Fault ReverseAsk := do
  let saPrvRedeemReq := limits.saPrvRedeemReq
  let saPrvIssueReq ← limits.saPrvIssueReq
  let redeem : Flow := ⟨saPrvRedeemReq.zeroed, current.saRevDeliver.zeroed, 0⟩
  let redeem ← if limits.saPrvOwed.isPositive && !current.saRevDeliver.isZero then
      rippleLiquidity qualityOne limits.transferRate saPrvRedeemReq current.saRevDeliver redeem
    else pure redeem
  let issue : Flow := ⟨saPrvIssueReq.zeroed, redeem.saCurAct, redeem.uRateMax⟩
  let issue ← if saPrvRedeemReq.same redeem.saPrvAct &&
      !current.saRevDeliver.same redeem.saCurAct then
      rippleLiquidity limits.qualityIn qualityOne saPrvIssueReq current.saRevDeliver issue
    else pure issue
  return ⟨redeem.saPrvAct, issue.saPrvAct, previous.saRevDeliver,
    dryUnless (!issue.saCurAct.isZero)⟩

def reverseFinalFromOffer (limits : ReverseLimits) (previous : Node) :
    Except Fault ReverseAsk := do
  let saPrvDeliverReq ← saPrvDeliverReq previous
  let saCurWantedReq ← path.outReq.sub path.outAct
  if !saCurWantedReq.isPositive then
    return ⟨previous.saRevRedeem, previous.saRevIssue, previous.saRevDeliver, .tefEXCEPTION⟩
  let flow ← rippleLiquidity limits.qualityIn qualityOne saPrvDeliverReq saCurWantedReq
    ⟨previous.saRevDeliver, saCurWantedReq.zeroed, 0⟩
  return ⟨previous.saRevRedeem, previous.saRevIssue, flow.saPrvAct,
    dryUnless (!flow.saCurAct.isZero)⟩

def reverseOfferToAccount (current previous : Node) :
    Except Fault ReverseAsk := do
  let saPrvDeliverReq ← saPrvDeliverReq previous
  let redeem : Flow := ⟨previous.saRevDeliver, current.saRevRedeem.zeroed, 0⟩
  let redeem ← if !current.saRevRedeem.isZero then
      rippleLiquidity qualityOne limits.qualityOut saPrvDeliverReq current.saRevRedeem redeem
    else pure redeem
  let issue : Flow := ⟨redeem.saPrvAct, current.saRevIssue.zeroed, redeem.uRateMax⟩
  let issue ← if current.saRevRedeem.same redeem.saCurAct && !current.saRevIssue.isZero then
      rippleLiquidity qualityOne limits.transferRate saPrvDeliverReq current.saRevIssue issue
    else pure issue
  return ⟨previous.saRevRedeem, previous.saRevIssue, issue.saPrvAct,
    dryUnless (!issue.saPrvAct.isZero)⟩

def reverseOfferToOffer (current previous : Node) :
    Except Fault ReverseAsk := do
  let saPrvDeliverReq ← saPrvDeliverReq previous
  let flow ← rippleLiquidity qualityOne limits.transferRate saPrvDeliverReq current.saRevDeliver
    ⟨previous.saRevDeliver, current.saRevDeliver.zeroed, 0⟩
  return ⟨previous.saRevRedeem, previous.saRevIssue, flow.saPrvAct,
    dryUnless (!flow.saCurAct.isZero)⟩

def reverseLiquidityForAccount (i : Nat) : CalcM TER := do
  let s ← get
  let last := s.path.nodes.length - 1
  let prev ← previousIndex i
  let current ← node i
  let previous ← node prev
  let next ← node (← nextIndex i)
  let limits := reverseLimits s.view i last current previous next
  if i = 0 then
    return .tesSUCCESS
  let nextIsAccount := i == last || next.isAccount
  let ask ← if previous.isAccount then
      if nextIsAccount then
        if i = last then reverseFinalFromAccount s.path limits previous
        else reverseThroughAccount limits current previous
      else reverseAccountToOffer limits current previous
    else if nextIsAccount then
      if i = last then reverseFinalFromOffer s.path limits previous
      else reverseOfferToAccount limits current previous
    else reverseOfferToOffer limits current previous
  setNode prev fun node =>
    { node with
      saRevRedeem := ask.saRevRedeem
      saRevIssue := ask.saRevIssue
      saRevDeliver := ask.saRevDeliver }
  return ask.ter

def reverseLiquidity (multiQuality : Bool) (i : Nat) : CalcM TER := do
  let current ← node i
  let rate ← query fun v => amountFromRate (v.rippleTransferRate current.issue.account).toUInt64
  setNode i fun node => { node with transferRate := rate }
  if current.isAccount then
    reverseLiquidityForAccount i
  else
    let next ← node (← nextIndex i)
    -- only the last of several books in a row starts delivering
    if isXRP next.account then
      return .tesSUCCESS
    else
      return (← deliverNodeReverse multiQuality i next.account current.saRevDeliver).1

/-! ## Accounts, forward -/

/-- What an account passes on, and whether anything. -/
structure ForwardPass where
  saFwdRedeem : STAmount
  saFwdIssue : STAmount
  saFwdDeliver : STAmount
  flows : Bool

def forwardThroughAccount (qualityIn qualityOut transferRate : UInt32) (current previous : Node) :
    Except Fault ForwardPass := do
  -- redeem to redeem
  let redeem : Flow := ⟨previous.saFwdRedeem.zeroed, current.saRevRedeem.zeroed, 0⟩
  let redeem ← if !previous.saFwdRedeem.isZero && !current.saRevRedeem.isZero then
      rippleLiquidity qualityOne qualityOut previous.saFwdRedeem current.saRevRedeem redeem
    else pure redeem
  -- issue to redeem
  let issue : Flow := ⟨previous.saFwdIssue.zeroed, redeem.saCurAct, redeem.uRateMax⟩
  let issue ← if !previous.saFwdIssue.same issue.saPrvAct &&
      !current.saRevRedeem.same issue.saCurAct then
      rippleLiquidity qualityIn qualityOut previous.saFwdIssue current.saRevRedeem issue
    else pure issue
  let saFwdRedeem := issue.saCurAct
  let redeemed := current.saRevRedeem.same saFwdRedeem && !current.saRevIssue.isZero
  -- redeem to issue
  let redeem : Flow := ⟨redeem.saPrvAct, current.saRevIssue.zeroed, issue.uRateMax⟩
  let redeem ← if !previous.saFwdRedeem.same redeem.saPrvAct && redeemed then
      rippleLiquidity qualityOne transferRate previous.saFwdRedeem current.saRevIssue redeem
    else pure redeem
  -- issue to issue
  let issue : Flow := ⟨issue.saPrvAct, redeem.saCurAct, redeem.uRateMax⟩
  let issue ← if !previous.saFwdIssue.same issue.saPrvAct && redeemed then
      rippleLiquidity qualityIn qualityOne previous.saFwdIssue current.saRevIssue issue
    else pure issue
  let saProvide ← saFwdRedeem.add issue.saCurAct
  return ⟨saFwdRedeem, issue.saCurAct, current.saFwdDeliver, !saProvide.isZero⟩

def forwardAccountToOffer (qualityIn transferRate : UInt32) (current previous : Node) :
    Except Fault ForwardPass := do
  let redeem : Flow := ⟨previous.saFwdRedeem.zeroed, current.saRevDeliver.zeroed, 0⟩
  let redeem ← if !previous.saFwdRedeem.isZero then
      rippleLiquidity qualityOne transferRate previous.saFwdRedeem current.saRevDeliver redeem
    else pure redeem
  let issue : Flow := ⟨previous.saFwdIssue.zeroed, redeem.saCurAct, redeem.uRateMax⟩
  let issue ← if previous.saFwdRedeem.same redeem.saPrvAct && !previous.saFwdIssue.isZero then
      rippleLiquidity qualityIn qualityOne previous.saFwdIssue current.saRevDeliver issue
    else pure issue
  return ⟨current.saFwdRedeem, current.saFwdIssue, issue.saCurAct, !issue.saCurAct.isZero⟩

def forwardOfferToAccount (qualityOut transferRate : UInt32) (current previous : Node) :
    Except Fault ForwardPass := do
  let redeem : Flow := ⟨previous.saFwdDeliver.zeroed, current.saRevRedeem.zeroed, 0⟩
  let redeem ← if !previous.saFwdDeliver.isZero && !current.saRevRedeem.isZero then
      rippleLiquidity qualityOne qualityOut previous.saFwdDeliver current.saRevRedeem redeem
    else pure redeem
  let issue : Flow := ⟨redeem.saPrvAct, current.saRevIssue.zeroed, redeem.uRateMax⟩
  let issue ← if !previous.saFwdDeliver.same redeem.saPrvAct &&
      current.saRevRedeem.same redeem.saCurAct && !current.saRevIssue.isZero then
      rippleLiquidity qualityOne transferRate previous.saFwdDeliver current.saRevIssue issue
    else pure issue
  let saProvide ← redeem.saCurAct.add issue.saCurAct
  return ⟨redeem.saCurAct, issue.saCurAct, current.saFwdDeliver, !saProvide.isZero⟩

def forwardOfferToOffer (transferRate : UInt32) (current previous : Node) :
    Except Fault ForwardPass := do
  let flow : Flow := ⟨previous.saFwdDeliver.zeroed, current.saRevDeliver.zeroed, 0⟩
  let flow ← if !previous.saFwdDeliver.isZero && !current.saRevDeliver.isZero then
      rippleLiquidity qualityOne transferRate previous.saFwdDeliver current.saRevDeliver flow
    else pure flow
  return ⟨current.saFwdRedeem, current.saFwdIssue, flow.saCurAct, !flow.saCurAct.isZero⟩

/-- ^ --> ACCOUNT --> account: what the sender starts with, up to the maximum to
spend. -/
def forwardFirstToAccount (current : Node) :
    Except Fault (ForwardPass × STAmount) := do
  let limited := !path.inReq.isNegative
  let saFwdRedeem ← if limited then current.saRevRedeem.min (← path.inReq.sub path.inAct)
    else pure current.saRevRedeem
  let saFwdIssue ← if !current.saRevIssue.isZero && limited then do
      current.saRevIssue.min (← (← path.inReq.sub path.inAct).sub saFwdRedeem)
    else pure current.saRevIssue
  return (⟨saFwdRedeem, saFwdIssue, current.saFwdDeliver, true⟩, ← saFwdRedeem.add saFwdIssue)

/-- ^ --> ACCOUNT --> offer: up to the maximum to spend and what the account holds. -/
def forwardFirstToOffer (v : View) (path : PathState) (current : Node) :
    Except Fault ForwardPass := do
  let saFwdDeliver ← if path.inReq.isNegative then pure current.saRevDeliver
    else do
      let deliver ← current.saRevDeliver.min (← path.inReq.sub path.inAct)
      if isXRP current.issue.currency then
        deliver.min (← v.accountHolds current.account xrpCurrency xrpAccount .ignoreFreeze)
      else pure deliver
  return ⟨current.saFwdRedeem, current.saFwdIssue, saFwdDeliver, !saFwdDeliver.isZero⟩

def setForward (i : Nat) (pass : ForwardPass) : CalcM Unit :=
  setNode i fun node =>
    { node with
      saFwdRedeem := pass.saFwdRedeem
      saFwdIssue := pass.saFwdIssue
      saFwdDeliver := pass.saFwdDeliver }

/-- Moves all that the previous account passes on. -/
def takeInbound (previousAccount : AccountID) (current previous : Node) (flows : Bool) :
    CalcM TER := do
  if flows then
    let amount ← previous.saFwdRedeem.add previous.saFwdIssue
    (rippleCredit previousAccount current.account amount : LedgerM transfer TER)
  else
    return .tecPATH_DRY

def forwardFinalFromAccount (qualityIn : UInt32) (previousAccount : AccountID)
    (current previous : Node) : CalcM TER := do
  let saIssueCrd ← if qualityOne ≤ qualityIn then pure previous.saFwdIssue
    else do
      previous.saFwdIssue.mulRound (← amountFromRate qualityIn.toUInt64)
        previous.saFwdIssue.issue true
  let outPass ← previous.saFwdRedeem.add saIssueCrd
  setPath fun path => { path with outPass := outPass }
  takeInbound previousAccount current previous (!outPass.isZero)

def forwardLiquidityForAccount (i : Nat) : CalcM TER := do
  let s ← get
  let v := s.view
  let last := s.path.nodes.length - 1
  let current ← node i
  let previous ← node (← previousIndex i)
  let next ← node (← nextIndex i)
  let currency := current.issue.currency
  let previousAccount := if previous.isAccount then previous.account else current.account
  let nextAccount := if next.isAccount then next.account else current.account
  let qualityIn := if i ≠ 0 then v.quality_in current.account previousAccount currency
    else qualityOne
  let qualityOut := if i = last then v.quality_out current.account nextAccount currency
    else qualityOne
  let transferRate := v.rippleTransferRate current.account
  if previous.isAccount && next.isAccount then
    if i = 0 then
      let (pass, inPass) ← forwardFirstToAccount s.path current
      setForward i pass
      setPath fun path => { path with inPass := inPass }
      return .tesSUCCESS
    else if i = last then
      forwardFinalFromAccount qualityIn previousAccount current previous
    else
      let pass ← forwardThroughAccount qualityIn qualityOut transferRate current previous
      setForward i pass
      takeInbound previousAccount current previous pass.flows
  else if previous.isAccount then
    if i ≠ 0 then
      let pass ← forwardAccountToOffer qualityIn transferRate current previous
      setForward i pass
      takeInbound previousAccount current previous pass.flows
    else
      let pass ← forwardFirstToOffer v s.path current
      setForward i pass
      setPath fun path => { path with inPass := pass.saFwdDeliver }
      if !pass.flows then
        return .tecPATH_DRY
      else if !isXRP currency then
        return .tesSUCCESS
      else
        (accountSend current.account xrpAccount pass.saFwdDeliver : LedgerM transfer TER)
  else if next.isAccount then
    if i = last then
      setPath fun path => { path with outPass := previous.saFwdDeliver }
      return .tesSUCCESS
    else
      let pass ← forwardOfferToAccount qualityOut transferRate current previous
      setForward i pass
      return dryUnless pass.flows
  else
    let pass ← forwardOfferToOffer transferRate current previous
    setForward i pass
    return dryUnless pass.flows

def forwardLiquidity (multiQuality : Bool) (i : Nat) : CalcM TER := do
  let current ← node i
  let previous ← node (← previousIndex i)
  if current.isAccount then
    forwardLiquidityForAccount i
  else if previous.account = 0 then
    return .tesSUCCESS
  else
    let books := (← get).path.nodes.length
    return (← deliverNodeForward multiQuality books i previous.account previous.saFwdDeliver).1

/-! ## An increment -/

def reversePass (multiQuality : Bool) : Nat → CalcM TER
  | 0 => return .tesSUCCESS
  | i + 1 => do
    let result ← reverseLiquidity multiQuality i
    if result ≠ .tesSUCCESS then return result
    else reversePass multiQuality i

def forwardPass (multiQuality : Bool) : Nat → Nat → CalcM TER
  | _, 0 => return if (← get).path.isDry then .tecPATH_DRY else .tesSUCCESS
  | i, count + 1 => do
    let result ← forwardLiquidity multiQuality i
    if result ≠ .tesSUCCESS then return result
    else forwardPass multiQuality (i + 1) count

end PathCursor

end Sand
