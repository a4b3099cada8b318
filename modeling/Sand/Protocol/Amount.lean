import Sand.Protocol.Types

/-!
# Amounts

A native amount is a signed number of drops, any other a sign, a mantissa and an exponent.
-/

namespace Sand

structure STAmount where
  issue : Issue
  mantissa : UInt64
  exponent : Int
  negative : Bool
  deriving DecidableEq

namespace STAmount

def cMinOffset : Int := -96
def cMaxOffset : Int := 80
def cMinValue : Nat := 1000000000000000
def cMaxValue : Nat := 9999999999999999
def cMaxNative : Nat := 9000000000000000000
def cMaxNativeN : Nat := 100000000000000000

def tenTo14 : Nat := 100000000000000
def tenTo17 : Nat := 100000000000000000

variable (amount : STAmount)

def getCurrency : Currency := amount.issue.currency

def getIssuer : AccountID := amount.issue.account

def native : Bool := isXRP amount.issue.currency

def signum : Int :=
  if amount.mantissa = 0 then 0 else if amount.negative then -1 else 1

/-- `amount == zero`. -/
def isZero : Bool := amount.signum == 0

/-- `amount > zero`. -/
def isPositive : Bool := decide (0 < amount.signum)

/-- `amount < zero`. -/
def isNegative : Bool := decide (amount.signum < 0)

/-! ## Construction -/

/-- Brings a mantissa below `cMinValue` into range. -/
def scaleUp : Nat → Nat → Int → Nat × Int
  | 0, value, offset => (value, offset)
  | fuel + 1, value, offset =>
    if value < cMinValue ∧ cMinOffset < offset then
      scaleUp fuel (value * 10) (offset - 1)
    else
      (value, offset)

/-- Brings a mantissa above `cMaxValue` into range. -/
def scaleDown : Nat → Nat → Int → Except Fault (Nat × Int)
  | 0, value, offset => .ok (value, offset)
  | fuel + 1, value, offset =>
    if cMaxValue < value then
      if cMaxOffset ≤ offset then
        .error .exception
      else
        scaleDown fuel (value / 10) (offset + 1)
    else
      .ok (value, offset)

def zeroOf (issue : Issue) : STAmount :=
  ⟨issue, 0, if isXRP issue.currency then 0 else -100, false⟩

/-- `canonicalize` of freshly set fields. -/
def canonicalize (issue : Issue) (mantissa : UInt64) (exponent : Int) (negative : Bool) :
    Except Fault STAmount :=
  if isXRP issue.currency then
    if mantissa = 0 then
      .ok ⟨issue, 0, 0, false⟩
    else
      let value :=
        if exponent < 0 then mantissa.toNat / 10 ^ exponent.natAbs
        else mantissa.toNat * 10 ^ exponent.natAbs % 2 ^ 64
      if cMaxNativeN < value then
        .error .exception
      else
        -- a value scaled down to nothing keeps its sign
        .ok ⟨issue, .ofNat value, 0, negative⟩
  else if mantissa = 0 then
    .ok ⟨issue, 0, -100, false⟩
  else
    let (grown, offset) := scaleUp 20 mantissa.toNat exponent
    match scaleDown 20 grown offset with
    | .error fault => .error fault
    | .ok (value, offset) =>
      if offset < cMinOffset ∨ value < cMinValue then
        .ok ⟨issue, 0, -100, false⟩
      else if cMaxOffset < offset then
        .error .exception
      else
        .ok ⟨issue, .ofNat value, offset, negative⟩

/-- `STAmount (std::uint64_t mantissa)`: native and not canonicalised. -/
def ofDrops (mantissa : UInt64) : STAmount :=
  ⟨xrpIssue, mantissa, 0, false⟩

def zeroDrops : STAmount := ofDrops 0

/-- `STAmount (SField const&, std::int64_t mantissa)`: native and not
canonicalised. -/
def ofSNValue (value : Int64) : STAmount :=
  if value < 0 then ⟨xrpIssue, (-value).toUInt64, 0, true⟩
  else ⟨xrpIssue, value.toUInt64, 0, false⟩

def saZero : STAmount := zeroOf noIssue

def saOne : STAmount := ⟨noIssue, 1000000000000000, -15, false⟩

def zeroed : STAmount := zeroOf amount.issue

def negate : STAmount :=
  if amount.isZero then amount else { amount with negative := !amount.negative }

def setIssuer (issuer : AccountID) : STAmount :=
  { amount with issue := ⟨amount.issue.currency, issuer⟩ }

def isLegalNet : Bool :=
  !amount.native || decide (amount.mantissa.toNat ≤ cMaxNativeN)

/-! ## Comparison and addition -/

variable (lhs rhs : STAmount)

def areComparable : Bool :=
  lhs.native == rhs.native && lhs.getCurrency == rhs.getCurrency

/-- `operator==`. -/
def same : Bool :=
  areComparable lhs rhs && lhs.negative == rhs.negative &&
    lhs.exponent == rhs.exponent && lhs.mantissa == rhs.mantissa

def ltCore : Bool :=
  if lhs.negative != rhs.negative then lhs.negative
  else if lhs.mantissa = 0 then
    if rhs.negative then false else rhs.mantissa != 0
  else if rhs.mantissa = 0 then false
  else if rhs.exponent < lhs.exponent then lhs.negative
  else if lhs.exponent < rhs.exponent then !lhs.negative
  else if rhs.mantissa < lhs.mantissa then lhs.negative
  else if lhs.mantissa < rhs.mantissa then !lhs.negative
  else false

/-- `operator<`. -/
def lt : Except Fault Bool :=
  if areComparable lhs rhs then .ok (ltCore lhs rhs) else .error .exception

/-- `operator<=`. -/
def le : Except Fault Bool :=
  (lt rhs lhs).map (!·)

/-- The second argument only if strictly smaller. -/
def min : Except Fault STAmount :=
  (lt rhs lhs).map fun smaller => if smaller then rhs else lhs

/-- The second argument only if strictly greater. -/
def max : Except Fault STAmount :=
  (lt lhs rhs).map fun smaller => if smaller then rhs else lhs

def getSNValue : Except Fault Int64 :=
  if amount.native then
    .ok (if amount.negative then -amount.mantissa.toInt64 else amount.mantissa.toInt64)
  else
    .error .exception

/-- The signed mantissa at a coarser exponent. -/
def alignedMantissa (exponent : Int) : Int :=
  let value := amount.mantissa.toInt64.toInt
  (if amount.negative then -value else value).tdiv (10 ^ (exponent - amount.exponent).toNat)

/-- Addition of non-zero comparable issued amounts. -/
def addIssued : Except Fault STAmount :=
  let exponent := Max.max lhs.exponent rhs.exponent
  let value := alignedMantissa lhs exponent + alignedMantissa rhs exponent
  if -10 ≤ value ∧ value ≤ 10 then
    .ok (zeroOf lhs.issue)
  else
    canonicalize lhs.issue (.ofNat value.natAbs) exponent (decide (value < 0))

/-- `operator+`. -/
def add : Except Fault STAmount :=
  if !areComparable lhs rhs then
    .error .exception
  else if rhs.isZero then
    .ok lhs
  else if lhs.isZero then
    canonicalize lhs.issue rhs.mantissa rhs.exponent rhs.negative
  else if lhs.native then do
    let x ← getSNValue lhs
    let y ← getSNValue rhs
    return ofSNValue (x + y)
  else
    addIssued lhs rhs

/-- Unary `operator-`. -/
def neg : STAmount :=
  if amount.mantissa = 0 then amount else { amount with negative := !amount.negative }

/-- Binary `operator-`. -/
def sub : Except Fault STAmount :=
  add lhs (neg rhs)

/-! ## Multiplication and division -/

/-- `getuint64`: all ones when it does not fit. -/
def getuint64 (value : Nat) : UInt64 :=
  if value < 2 ^ 64 then .ofNat value else .ofNat (2 ^ 64 - 1)

def growMantissa : Nat → Nat → Int → Nat × Int
  | 0, value, offset => (value, offset)
  | fuel + 1, value, offset =>
    if value < cMinValue then growMantissa fuel (value * 10) (offset - 1)
    else (value, offset)

/-- A native mantissa is brought to at least `cMinValue`. -/
def operand : Nat × Int :=
  if amount.native then growMantissa 20 amount.mantissa.toNat amount.exponent
  else (amount.mantissa.toNat, amount.exponent)

def divide (num den : STAmount) (issue : Issue) : Except Fault STAmount :=
  if den.isZero then
    .error .exception
  else if num.isZero then
    .ok (zeroOf issue)
  else
    let (numVal, numOffset) := operand num
    let (denVal, denOffset) := operand den
    canonicalize issue (getuint64 (numVal * tenTo17 / denVal) + 5)
      (numOffset - denOffset - 17) (num.negative != den.negative)

variable (v1 v2 : STAmount)

def multiplyNative : Except Fault STAmount := do
  let x ← getSNValue v1
  let y ← getSNValue v2
  let minV := (if x < y then x else y).toUInt64
  let maxV := (if x < y then y else x).toUInt64
  if (3000000000 : UInt64) < minV then
    .error .exception
  else if (2095475792 : UInt64) < (maxV >>> 32) * minV then
    .error .exception
  else
    return ofDrops (minV * maxV)

def multiply (issue : Issue) : Except Fault STAmount :=
  if v1.isZero || v2.isZero then
    .ok (zeroOf issue)
  else if v1.native && v2.native && isXRP issue.currency then
    multiplyNative v1 v2
  else
    let (value1, offset1) := operand v1
    let (value2, offset2) := operand v2
    canonicalize issue (getuint64 (value1 * value2 / tenTo14) + 7)
      (offset1 + offset2 + 14) (v1.negative != v2.negative)

/-- `while (bound < value) value /= 10`, counting the exponent up. -/
def shrink (bound : Nat) : Nat → Nat → Int → Nat × Int
  | 0, value, offset => (value, offset)
  | fuel + 1, value, offset =>
    if bound < value then shrink bound fuel (value / 10) (offset + 1)
    else (value, offset)

def canonicalizeRound (native : Bool) (amount : UInt64) (offset : Int) (roundUp : Bool) :
    UInt64 × Int :=
  if !roundUp then
    (amount, offset)
  else if native then
    if offset < 0 then
      let loops := (-1 - offset).toNat
      let value := amount.toNat / 10 ^ loops
      (.ofNat ((value + if 2 ≤ loops then 9 else 10) / 10), 0)
    else
      (amount, offset)
  else if cMaxValue < amount.toNat then
    let (value, offset) := shrink (10 * cMaxValue) 20 amount.toNat offset
    (.ofNat ((value + 9) / 10), offset + 1)
  else
    (amount, offset)

def mulRound (issue : Issue) (roundUp : Bool) : Except Fault STAmount :=
  if v1.isZero || v2.isZero then
    .ok (zeroOf issue)
  else if v1.native && v2.native && isXRP issue.currency then
    multiplyNative v1 v2
  else
    let (value1, offset1) := operand v1
    let (value2, offset2) := operand v2
    let resultNegative := v1.negative != v2.negative
    let up := resultNegative != roundUp
    let product := value1 * value2 + if up then tenTo14 - 1 else 0
    let (amount, offset) := canonicalizeRound (isXRP issue.currency)
      (getuint64 (product / tenTo14)) (offset1 + offset2 + 14) up
    canonicalize issue amount offset resultNegative

def divRound (num den : STAmount) (issue : Issue) (roundUp : Bool) : Except Fault STAmount :=
  if den.isZero then
    .error .exception
  else if num.isZero then
    .ok (zeroOf issue)
  else
    let (numVal, numOffset) := operand num
    let (denVal, denOffset) := operand den
    let resultNegative := num.negative != den.negative
    let up := resultNegative != roundUp
    let dividend := numVal * tenTo17 + if up then denVal - 1 else 0
    let (amount, offset) := canonicalizeRound (isXRP issue.currency)
      (getuint64 (dividend / denVal)) (numOffset - denOffset - 17) up
    canonicalize issue amount offset resultNegative

/-- Lower is better, zero when worthless or the division throws. -/
def getRate (offerOut offerIn : STAmount) : UInt64 :=
  if offerOut.isZero then
    0
  else
    match divide offerIn offerOut noIssue with
    | .error _ => 0
    | .ok rate =>
      if rate.isZero then 0
      else .ofNat ((rate.exponent + 100).toNat * 2 ^ 56) ||| rate.mantissa

def amountFromRate (rate : UInt64) : Except Fault STAmount :=
  canonicalize noIssue rate (-9) false

def amountFromQuality (rate : UInt64) : Except Fault STAmount :=
  if rate = 0 then .ok (zeroOf noIssue)
  else canonicalize noIssue (.ofNat (rate.toNat % 2 ^ 56)) ((rate.toNat / 2 ^ 56 : Nat) - 100) false

end STAmount

end Sand
