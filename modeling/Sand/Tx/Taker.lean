import Sand.Tx.Context

/-!
# Takers

The active party of an offer crossing.
-/

namespace Sand

open STAmount

/-- What goes in and what comes out of an offer. -/
structure Amounts where
  input : STAmount := zeroDrops
  output : STAmount := zeroDrops
  deriving DecidableEq

namespace Amounts

def empty (amounts : Amounts) : Bool :=
  !amounts.input.isPositive || !amounts.output.isPositive

def same (lhs rhs : Amounts) : Bool :=
  lhs.input.same rhs.input && lhs.output.same rhs.output

end Amounts

/-- The lower, the better for the taker. -/
abbrev Quality := UInt64

namespace Quality

def ofAmounts (amounts : Amounts) : Quality :=
  getRate amounts.output amounts.input

def rate (quality : Quality) : Except Fault STAmount :=
  amountFromQuality quality

/-- `lhs < rhs`: the taker gets a worse deal. -/
def worse (lhs rhs : Quality) : Bool := decide (rhs < lhs)

/-- The quality of two hops taken one after the other. -/
def composed (lhs rhs : Quality) : Except Fault Quality := do
  let lhsRate ← rate lhs
  let product ← lhsRate.mulRound (← rate rhs) lhsRate.issue true
  return .ofNat ((product.exponent + 100).toNat * 2 ^ 56) ||| product.mantissa

end Quality

inductive CrossType where
  | xrpToIou
  | iouToXrp
  | iouToIou
  deriving DecidableEq

abbrev Rate := UInt32

namespace Rate

def divide (rate : Rate) (amount : STAmount) : Except Fault STAmount :=
  if rate = qualityOne then .ok amount
  else do amount.divide (← amountFromRate rate.toUInt64) amount.issue

def multiply (rate : Rate) (amount : STAmount) : Except Fault STAmount :=
  if rate = qualityOne then .ok amount
  else do amount.multiply (← amountFromRate rate.toUInt64) amount.issue

end Rate

/-- What is traded, and what payers spend with fees. -/
structure Flow where
  order : Amounts := {}
  issuers : Amounts := {}
  deriving DecidableEq

def Flow.sanityCheck (flow : Flow) : Bool :=
  !(flow.order.input.native && flow.order.output.native) &&
    !flow.order.input.isNegative && !flow.order.output.isNegative &&
    !flow.issuers.input.isNegative && !flow.issuers.output.isNegative

/-- What stays fixed of a taker during a crossing. -/
structure Taker where
  crossType : CrossType
  account : AccountID
  quality : Quality
  /-- Offers of a worse quality are rejected. -/
  threshold : Quality
  sell : Bool
  original : Amounts
  rateIn : Rate
  rateOut : Rate

namespace Taker

def calculateRate (v : View) (issuer account : AccountID) : Rate :=
  if isXRP issuer || account == issuer then qualityOne else v.rippleTransferRate issuer

/-- A passive one does not take its own quality. -/
def make (v : View) (crossType : CrossType) (account : AccountID) (offer : Amounts)
    (flags : Flags) : Taker :=
  let quality := Quality.ofAmounts offer
  { crossType
    account
    quality
    threshold := if flags.has tfPassive then quality - 1 else quality
    sell := flags.has tfSell
    original := offer
    rateIn := calculateRate v offer.input.getIssuer account
    rateOut := calculateRate v offer.output.getIssuer account }

variable (taker : Taker)

def reject (quality : Quality) : Bool := quality.worse taker.threshold

/-- Nothing within an account, or with the issuer. -/
def effectiveRate (rate : Rate) (issue : Issue) (sender receiver : AccountID) : Rate :=
  if sender ≠ receiver ∧ sender ≠ issue.account ∧ receiver ≠ issue.account then rate
  else qualityOne

variable (sender receiver : AccountID)

def inRate : Rate :=
  effectiveRate taker.rateIn taker.original.input.issue sender receiver

def outRate : Rate :=
  effectiveRate taker.rateOut taker.original.output.issue sender receiver

/-! ## Flows -/

def qualDiv (amount : STAmount) (quality : Quality) (output : STAmount) : Except Fault STAmount := do
  (← amount.divide (← quality.rate) output.issue).min output

def qualMul (amount : STAmount) (quality : Quality) (output : STAmount) : Except Fault STAmount := do
  (← amount.multiply (← quality.rate) output.issue).min output

variable (remaining : Amounts) (quality : Quality)

/-- And the input with it, at the quality. -/
def limitOutput (order : Amounts) (output : STAmount) : Except Fault Amounts := do
  return ⟨← qualMul output quality order.input, output⟩

/-- And the output with it, at the quality. -/
def limitInput (order : Amounts) (input : STAmount) : Except Fault Amounts := do
  return ⟨input, ← qualDiv input quality order.output⟩

variable (offer : Amounts)

def flowXrpToIou (ownerFunds takerFunds : STAmount) (rateOut : Rate) :
    Except Fault Flow := do
  let mut f : Flow := { order := offer, issuers := { output := ← rateOut.multiply offer.output } }
  -- the owner's balance
  if ← ownerFunds.lt f.issuers.output then
    let order ← limitOutput quality f.order (← rateOut.divide ownerFunds)
    f := { order, issuers := { f.issuers with output := ownerFunds } }
  -- what the taker wants
  if ← if taker.sell then pure false else remaining.output.lt f.order.output then
    let order ← limitOutput quality f.order remaining.output
    f := { order, issuers := { f.issuers with output := ← rateOut.multiply order.output } }
  -- what the taker has
  if ← takerFunds.lt f.order.input then
    let order ← limitInput quality f.order takerFunds
    f := { order, issuers := { f.issuers with output := ← rateOut.multiply order.output } }
  -- what the taker offers, unless this is the second leg of a bridge
  if ← if taker.crossType = .xrpToIou then remaining.input.lt f.order.input else pure false then
    let order ← limitInput quality f.order remaining.input
    f := { order, issuers := { f.issuers with output := ← rateOut.multiply order.output } }
  return f

def flowIouToXrp (ownerFunds takerFunds : STAmount) (rateIn : Rate) :
    Except Fault Flow := do
  let mut f : Flow := { order := offer, issuers := { input := ← rateIn.multiply offer.input } }
  if ← ownerFunds.lt f.order.output then
    let order ← limitOutput quality f.order ownerFunds
    f := { order, issuers := { f.issuers with input := ← rateIn.multiply order.input } }
  -- what the taker wants, unless this is the first leg of a bridge
  if ← if !taker.sell && taker.crossType = .iouToXrp then
      remaining.output.lt f.order.output else pure false then
    let order ← limitOutput quality f.order remaining.output
    f := { order, issuers := { f.issuers with input := ← rateIn.multiply order.input } }
  if ← remaining.input.lt f.order.input then
    let order ← limitInput quality f.order remaining.input
    f := { order, issuers := { f.issuers with input := ← rateIn.multiply order.input } }
  if ← takerFunds.lt f.issuers.input then
    let order ← limitInput quality f.order (← rateIn.divide takerFunds)
    f := { order, issuers := { f.issuers with input := takerFunds } }
  return f

def withRates (rateIn rateOut : Rate) (order : Amounts) : Except Fault Flow := do
  return { order, issuers := ⟨← rateIn.multiply order.input, ← rateOut.multiply order.output⟩ }

def flowIouToIou (ownerFunds takerFunds : STAmount) (rateIn rateOut : Rate) :
    Except Fault Flow := do
  let mut f ← withRates rateIn rateOut offer
  if ← ownerFunds.lt f.issuers.output then
    let order ← limitOutput quality f.order (← rateOut.divide ownerFunds)
    f := { order, issuers := ⟨← rateIn.multiply order.input, ownerFunds⟩ }
  if ← if taker.sell then pure false else remaining.output.lt f.order.output then
    f ← withRates rateIn rateOut (← limitOutput quality f.order remaining.output)
  if ← remaining.input.lt f.order.input then
    f ← withRates rateIn rateOut (← limitInput quality f.order remaining.input)
  if ← takerFunds.lt f.issuers.input then
    let order ← limitInput quality f.order (← rateIn.divide takerFunds)
    f := { order, issuers := ⟨takerFunds, ← rateOut.multiply order.output⟩ }
  return f

def directFlow (owner : AccountID) (ownerFunds takerFunds : STAmount) :
    Except Fault Flow := do
  let inRate := taker.inRate owner taker.account
  let outRate := taker.outRate owner taker.account
  let flow ← match taker.crossType with
    | .xrpToIou => taker.flowXrpToIou remaining quality offer ownerFunds takerFunds outRate
    | .iouToXrp => taker.flowIouToXrp remaining quality offer ownerFunds takerFunds inRate
    | .iouToIou => taker.flowIouToIou remaining quality offer ownerFunds takerFunds inRate outRate
  if flow.sanityCheck then return flow else throw .exception

/-- Drops that leave the first leg enter the second. -/
def balanceLegs (quality1 quality2 : Quality) (rate1 rate2 : Rate) (flow1 flow2 : Flow) :
    Except Fault (Flow × Flow) := do
  let mut f1 := flow1
  let mut f2 := flow2
  if ← flow1.order.output.lt flow2.order.input then
    let order ← limitInput quality2 flow2.order flow1.order.output
    f2 := { order, issuers := { flow2.issuers with output := ← rate2.multiply order.output } }
  else if ← flow2.order.input.lt flow1.order.output then
    let order ← limitOutput quality1 flow1.order flow2.order.input
    f1 := { order, issuers := { flow1.issuers with input := ← rate1.multiply order.input } }
  if f1.order.output.same f2.order.input then return (f1, f2) else throw .exception

end Taker

end Sand
