import Sand.Ledger.TrustLine
import Sand.Protocol.Tx

/-!
# Payment paths

A path is expanded into accounts and order books and checked against the ledger.
-/

namespace Sand

open RippleState

/-! ## Credit lines -/

namespace View

variable (v : View) (account issuer : AccountID)

def creditLimit (currency : Currency) : STAmount :=
  match v.get (.rippleState account issuer currency) with
  | none => .zeroOf ⟨currency, account⟩
  | some state => (if account < issuer then state.lowLimit else state.highLimit).setIssuer account

def creditBalance (currency : Currency) : STAmount :=
  match v.get (.rippleState account issuer currency) with
  | none => .zeroOf ⟨currency, account⟩
  | some state =>
    (if account < issuer then state.balance.negate else state.balance).setIssuer account

variable (destination source : AccountID)

/-- What `destination` set on its line with `source`. -/
def rippleQuality (currency : Currency)
    (low high : RippleState → Option UInt32) : UInt32 :=
  if destination = source then
    qualityOne
  else
    match v.get (.rippleState destination source currency) with
    | none => qualityOne
    | some state =>
      let quality := ((if destination < source then low else high) state).getD qualityOne
      if quality = 0 then 1 else quality

def quality_in (currency : Currency) : UInt32 :=
  v.rippleQuality destination source currency lowQualityIn highQualityIn

def quality_out (currency : Currency) : UInt32 :=
  v.rippleQuality destination source currency lowQualityOut highQualityOut

end View

/-! ## Nodes -/

/-- The directory's rate, zero at the start, and its page. -/
structure NodeDirectory where
  current : Option UInt64 := none
  advanceNeeded : Bool := false
  restartNeeded : Bool := false
  ledgerEntry : Option UInt64 := none
  deriving DecidableEq

structure Node where
  uFlags : BitVec 8 := 0
  account : AccountID := 0
  issue : Issue := xrpIssue
  transferRate : STAmount := .zeroDrops
  -- computed by the reverse pass
  saRevRedeem : STAmount := .zeroDrops
  saRevIssue : STAmount := .zeroDrops
  saRevDeliver : STAmount := .zeroDrops
  -- computed by the forward pass
  saFwdRedeem : STAmount := .zeroDrops
  saFwdIssue : STAmount := .zeroDrops
  saFwdDeliver : STAmount := .zeroDrops
  -- for order books
  saRateMax : STAmount := .zeroDrops
  directory : NodeDirectory := {}
  saOfrRate : STAmount := .zeroDrops
  bEntryAdvance : Bool := false
  uEntry : Nat := 0
  offerIndex : Option Key := none
  offerOwnerAccount : AccountID := 0
  bFundsDirty : Bool := false
  saOfferFunds : STAmount := .zeroDrops
  saTakerPays : STAmount := .zeroDrops
  saTakerGets : STAmount := .zeroDrops
  deriving DecidableEq

namespace Node

def isAccount (node : Node) : Bool := node.uFlags &&& typeAccount != 0

def clear (node : Node) : Node :=
  { node with
    saRevRedeem := node.saRevRedeem.zeroed
    saRevIssue := node.saRevIssue.zeroed
    saRevDeliver := node.saRevDeliver.zeroed
    saFwdDeliver := node.saFwdDeliver.zeroed }

end Node

/-- Where a funding source was first mentioned. -/
abbrev AccountIssueToNodeIndex := List ((AccountID × Issue) × Nat)

namespace AccountIssueToNodeIndex

variable (map : AccountIssueToNodeIndex)

def find (account : AccountID) (issue : Issue) : Option Nat :=
  (List.find? (fun entry => entry.1.1 == account && entry.1.2.same issue) map).map Prod.snd

def insert (account : AccountID) (issue : Issue) (index : Nat) :
    AccountIssueToNodeIndex :=
  if (map.find account issue).isSome then map else map ++ [((account, issue), index)]

end AccountIssueToNodeIndex

structure PathState where
  nodes : List Node := []
  index : Nat := 0
  /-- Zero when no liquidity is left. -/
  quality : UInt64 := 0
  inReq : STAmount
  inAct : STAmount := .zeroDrops
  inPass : STAmount := .zeroDrops
  outReq : STAmount
  outAct : STAmount := .zeroDrops
  outPass : STAmount := .zeroDrops
  status : TER := .tesSUCCESS
  unfundedOffers : List Key := []
  forward : AccountIssueToNodeIndex := []
  reverse : AccountIssueToNodeIndex := []
  deriving DecidableEq

namespace PathState

def isDry (path : PathState) : Bool := path.inPass.isZero || path.outPass.isZero

def reset (path : PathState) (input output : STAmount) : PathState :=
  { path with
    inPass := path.inReq.zeroed
    outPass := path.outReq.zeroed
    unfundedOffers := []
    reverse := []
    nodes := path.nodes.map Node.clear
    inAct := input
    outAct := output }

def lessPriority (lhs rhs : PathState) : Except Fault Bool :=
  if lhs.quality ≠ rhs.quality then .ok (decide (rhs.quality < lhs.quality))
  else if !lhs.outPass.same rhs.outPass then lhs.outPass.lt rhs.outPass
  else .ok (decide (rhs.index < lhs.index))

end PathState

/-! ## Expanding a path -/

namespace PathState

variable (v : View)

def checkHop (back : Node) (account : AccountID) (currency : Currency) : Except Fault TER :=
  match v.get (.rippleState back.account account back.issue.currency) with
  | none => .ok .terNO_LINE
  | some state =>
    match v.get (.account back.account) with
    | none => .ok .terNO_ACCOUNT
    | some sleBck =>
      let authFlag := if account < back.account then lsfHighAuth else lsfLowAuth
      if sleBck.isFlag lsfRequireAuth && !state.isFlag authFlag && state.balance.isZero then
        .ok .terNO_AUTH
      else do
        let owed := v.creditBalance account back.account currency
        let limit := v.creditLimit account back.account currency
        if owed.isPositive then
          return .tesSUCCESS
        else if ← limit.le owed.neg then
          return .tecPATH_DRY
        else
          return .tesSUCCESS

/-- The node of an element, before implied nodes. -/
def baseNode (back : Node) (iType : BitVec 8) (account : AccountID) (currency : Currency)
    (issuer : AccountID) : Node :=
  let hasAccount := iType &&& typeAccount != 0
  let hasIssuer := iType &&& typeIssuer != 0
  let nodeCurrency := if iType &&& typeCurrency != 0 then currency else back.issue.currency
  if hasAccount then
    let issue : Issue :=
      ⟨nodeCurrency, if hasIssuer then issuer else if isXRP nodeCurrency then xrpAccount else account⟩
    { uFlags := iType
      account := account
      issue := issue
      saRevRedeem := .zeroOf ⟨nodeCurrency, account⟩
      saRevIssue := .zeroOf ⟨nodeCurrency, account⟩
      saRevDeliver := .zeroOf issue
      saFwdDeliver := .zeroOf issue }
  else
    let issue : Issue :=
      ⟨nodeCurrency,
        if hasIssuer then issuer
        else if isXRP nodeCurrency then xrpAccount
        else if isXRP back.issue.account then back.account
        else back.issue.account⟩
    { uFlags := iType
      issue := issue
      saRateMax := .saZero
      saRevDeliver := .zeroOf issue
      saFwdDeliver := .zeroOf issue }

def badElement (node : Node) (iType : BitVec 8) (issuer : AccountID) : Bool :=
  let hasIssuer := iType &&& typeIssuer != 0
  iType &&& ~~~typeAll != 0 || (hasIssuer && isXRP node.issue.currency) ||
    (hasIssuer && issuer == 0) ||
    iType &&& typeAll == 0

mutual

/-- The last node delivers `currency` of `issuer` to `account`. -/
def pushImpliedNodes : Nat → List Node → AccountID → Currency → AccountID →
    Except Fault (TER × List Node)
  | 0, _, _, _, _ => .error .crash
  | depth + 1, nodes, account, currency, issuer => do
    let back := nodes.getLast?.getD {}
    let (result, nodes) ←
      if back.issue.currency = currency then
        pure (TER.tesSUCCESS, nodes)
      else
        -- a change of currency goes through an order book
        pushNode depth nodes (if isXRP currency then typeCurrency else typeCurrency ||| typeIssuer)
          xrpAccount currency issuer
    let back := nodes.getLast?.getD {}
    if result = .tesSUCCESS ∧ !isXRP currency ∧ back.account ≠ issuer ∧ account ≠ issuer then
      pushNode depth nodes typeAll issuer currency issuer
    else
      return (result, nodes)

/-- After the nodes it implies, fewer than `depth` deep. -/
def pushNode : Nat → List Node → BitVec 8 → AccountID → Currency → AccountID →
    Except Fault (TER × List Node)
  | 0, _, _, _, _, _ => .error .crash
  | depth + 1, nodes, iType, account, currency, issuer => do
    let back := nodes.getLast?.getD {}
    let node := baseNode back iType account currency issuer
    if badElement node iType issuer then
      return (.temBAD_PATH, nodes)
    else if node.isAccount then
      let (result, implied) ←
        if nodes.isEmpty then pure (TER.tesSUCCESS, nodes)
        else if account = 0 then pure (TER.temBAD_PATH, nodes)
        else
          let issuer := if isXRP node.issue.currency then xrpAccount else account
          pushImpliedNodes depth nodes account node.issue.currency issuer
      if result ≠ .tesSUCCESS then
        return (result, implied)
      let result ← match implied.getLast? with
        | some back =>
          if back.isAccount then checkHop v back account node.issue.currency
          else pure .tesSUCCESS
        | none => pure .tesSUCCESS
      return (result, if result = .tesSUCCESS then implied ++ [node] else implied)
    else if !node.issue.isConsistent then
      return (.temBAD_PATH, nodes)
    else if back.issue.same node.issue then
      return (.temBAD_PATH, nodes)
    else
      let (result, implied) ← pushImpliedNodes depth nodes xrpAccount back.issue.currency
        back.issue.account
      return (result, if result = .tesSUCCESS then implied ++ [node] else implied)

end

def pushNext (state : TER × List Node) (iType : BitVec 8) (account : AccountID)
    (currency : Currency) (issuer : AccountID) : Except Fault (TER × List Node) :=
  if state.1 = .tesSUCCESS then pushNode v 16 state.2 iType account currency issuer
  else .ok state

def accountType (currency : Currency) : BitVec 8 :=
  if isXRP currency then typeAccount ||| typeCurrency
  else typeAccount ||| typeCurrency ||| typeIssuer

/-- The first mention of each source, unless there are two. -/
def loopCheck : List Node → Nat → AccountIssueToNodeIndex → Option AccountIssueToNodeIndex
  | [], _, forward => some forward
  | node :: rest, index, forward =>
    if (forward.find node.account node.issue).isSome then none
    else loopCheck rest (index + 1) (forward.insert node.account node.issue index)

variable (path : PathState)

/-- The issuer of the amount to spend comes first. -/
def senderImplied (source : List STPathElement) (receiver sender : AccountID) :
    Bool :=
  let maxCurrency := path.inReq.getCurrency
  let maxIssuer := path.inReq.getIssuer
  let outCurrency := path.outReq.getCurrency
  let outIssuer := path.outReq.getIssuer
  let nextCurrency := (source.head?.map STPathElement.currency).getD outCurrency
  let nextAccount := (source.head?.map STPathElement.account).getD
    (if isXRP outCurrency then xrpAccount
     else if outIssuer = receiver then receiver else outIssuer)
  maxIssuer != (if isXRP maxCurrency then xrpAccount else sender) &&
    (nextCurrency == 0 || maxCurrency != nextCurrency || maxIssuer != nextAccount)

def expandPath (source : List STPathElement) (receiver sender : AccountID) :
    Except Fault PathState := do
  let maxCurrency := path.inReq.getCurrency
  let maxIssuer := path.inReq.getIssuer
  let outCurrency := path.outReq.getCurrency
  let outIssuer := path.outReq.getIssuer
  let senderIssuer := if isXRP maxCurrency then xrpAccount else sender
  let status : TER :=
    if (isXRP maxCurrency && !isXRP maxIssuer) || (isXRP outCurrency && !isXRP outIssuer) then
      .temBAD_PATH else .tesSUCCESS
  let state ← pushNext v (status, []) (accountType maxCurrency) sender maxCurrency senderIssuer
  let state ← if senderImplied path source receiver sender then
      pushNext v state (accountType maxCurrency) maxIssuer maxCurrency maxIssuer
    else pure state
  let state ← source.foldlM (fun state element =>
    pushNext v state element.nodeType element.account element.currency element.issuer) state
  let back := state.2.getLast?.getD {}
  let state ← if !isXRP outCurrency && outIssuer != receiver &&
      (back.issue.currency != outCurrency || back.account != outIssuer) then
      pushNext v state (accountType outCurrency) outIssuer outCurrency outIssuer
    else pure state
  let state ← pushNext v state (accountType outCurrency) receiver outCurrency receiver
  let path := { path with quality := 1, nodes := state.2, status := state.1 }
  if state.1 ≠ .tesSUCCESS then
    return path
  match loopCheck path.nodes 0 [] with
  | none => return { path with status := .temBAD_PATH_LOOP }
  | some forward => return { path with forward := forward }

/-! ## Checks on an expanded path -/

/-- Every account rippled out of, or book issuer, is not frozen. -/
def frozenNode : List Node → Bool
  | node :: next :: rest =>
    (node.uFlags &&& typeIssuer != 0 && v.accountFlag node.issue.account lsfGlobalFreeze) ||
    (node.isAccount && node.account != next.account &&
      (v.accountFlag next.account lsfGlobalFreeze ||
        (v.get (.rippleState node.account next.account node.issue.currency)).any fun state =>
          state.isFlag (if node.account < next.account then lsfHighFreeze else lsfLowFreeze))) ||
    frozenNode (next :: rest)
  | _ => false

/-- A path without intermediaries cannot be frozen. -/
def checkFreeze : TER :=
  if path.nodes.length ≠ 2 ∧ frozenNode v path.nodes then .terNO_LINE else path.status

variable (status : TER)

/-- The second account forbids to ripple on. -/
def noRippleStatus (first second third : AccountID) (currency : Currency) : TER :=
  match v.get (.rippleState first second currency), v.get (.rippleState second third currency) with
  | some sleIn, some sleOut =>
    if sleIn.isFlag (if first < second then lsfHighNoRipple else lsfLowNoRipple) &&
        sleOut.isFlag (if third < second then lsfHighNoRipple else lsfLowNoRipple) then
      .terNO_RIPPLE
    else status
  | _, _ => .terNO_LINE

/-- The no-ripple settings between two accounts. -/
def innerNoRipple (status : TER) : List Node → TER
  | first :: second :: third :: rest =>
    if first.isAccount && second.isAccount && third.isAccount then
      if first.issue.currency ≠ second.issue.currency ∨
          third.issue.currency ≠ second.issue.currency then
        .temBAD_PATH
      else
        let status := noRippleStatus v status first.account second.account third.account
          second.issue.currency
        if status ≠ .tesSUCCESS then status
        else innerNoRipple status (second :: third :: rest)
    else
      innerNoRipple status (second :: third :: rest)
  | _ => status

def endNoRipple (outer : AccountID) (first second : Node) : TER :=
  if first.isAccount && second.isAccount && first.account != outer then
    if first.issue.currency ≠ second.issue.currency then .terNO_LINE
    else noRippleStatus v status outer first.account second.account first.issue.currency
  else status

def lastNoRipple (outer : AccountID) (beforeLast last : Node) : TER :=
  if beforeLast.isAccount && last.isAccount && outer != last.account then
    if beforeLast.issue.currency ≠ last.issue.currency then .terNO_LINE
    else noRippleStatus v status beforeLast.account last.account outer beforeLast.issue.currency
  else status

def checkNoRipple (dst src : AccountID) : TER :=
  match path.nodes with
  | [] => path.status
  | [node] =>
    if node.isAccount && node.account != src && node.account != dst then
      if path.inReq.getCurrency ≠ path.outReq.getCurrency then .terNO_LINE
      else noRippleStatus v path.status src node.account dst node.issue.currency
    else path.status
  | first :: second :: rest =>
    let status := endNoRipple v path.status src first second
    if status ≠ .tesSUCCESS then
      status
    else
      let last := (second :: rest).getLast (by simp)
      let beforeLast := ((first :: second :: rest).dropLast).getLast (by simp)
      let status := lastNoRipple v status dst beforeLast last
      if status ≠ .tesSUCCESS then status
      else innerNoRipple v status path.nodes

end PathState

end Sand
