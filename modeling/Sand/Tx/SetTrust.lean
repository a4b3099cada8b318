import Sand.Tx.Operate

/-!
# Trust lines set by their owner

`TrustSet` creates a line, changes the source account's side of it or deletes it.
-/

namespace Sand

open LedgerM Evolution PreCheckM MonoM Flags List

namespace SetTrust

def tfTrustSetMask : Flags :=
  ~~~(tfUniversal ||| tfSetfAuth ||| tfSetNoRipple ||| tfClearNoRipple ||| tfSetFreeze |||
    tfClearFreeze)

variable (env : Env) (tx : STTx) (fields : TrustSetTx)

def refusal (_ : Context) : Option TER :=
  let limit := fields.limitAmount
  if tx.flags.has tfTrustSetMask then
    some .temINVALID_FLAG
  else if !limit.isLegalNet then
    some .temBAD_AMOUNT
  else if limit.native then
    some .temBAD_LIMIT
  else if limit.getCurrency = badCurrency then
    some .temBAD_CURRENCY
  else if limit.isNegative then
    some .temBAD_LIMIT
  else if limit.getIssuer = 0 ∨ limit.getIssuer = noAccount then
    some .temDST_NEEDED
  else
    none

def setAuth : Bool := tx.flags.has tfSetfAuth
def setNoRipple : Bool := tx.flags.has tfSetNoRipple && !tx.flags.has tfClearNoRipple
def clearNoRipple : Bool := tx.flags.has tfClearNoRipple && !tx.flags.has tfSetNoRipple
def setFreeze : Bool := tx.flags.has tfSetFreeze && !tx.flags.has tfClearFreeze
def clearFreeze : Bool := tx.flags.has tfClearFreeze && !tx.flags.has tfSetFreeze

def defaultedQuality (quality : UInt32) : UInt32 :=
  if quality = qualityOne then 0 else quality

def qualityIn : UInt32 := fields.qualityIn.getD 0
def qualityOut : UInt32 := defaultedQuality (fields.qualityOut.getD 0)

/-- A side's quality: kept, set or removed. -/
def newQuality (given : Option UInt32) (value : UInt32) (current : Option UInt32) :
    Option UInt32 :=
  if given.isNone then current else if value = 0 then none else some value

variable (account : AccountID)

def withSide (high : Bool) (state : RippleState) : RippleState :=
  let limit := fields.limitAmount.setIssuer account
  if high then
    { state with
      highLimit := limit
      highQualityIn := newQuality fields.qualityIn (qualityIn fields) state.highQualityIn
      highQualityOut := newQuality fields.qualityOut (qualityOut fields) state.highQualityOut }
  else
    { state with
      lowLimit := limit
      lowQualityIn := newQuality fields.qualityIn (qualityIn fields) state.lowQualityIn
      lowQualityOut := newQuality fields.qualityOut (qualityOut fields) state.lowQualityOut }

/-- The flags of the line without those for reserves. -/
def sideFlags (high noFreeze : Bool) (balance : STAmount) (flags : Flags) : Flags :=
  let own := if high then balance.neg else balance
  ((flags.change (setNoRipple tx && !own.isNegative) (clearNoRipple tx)
      (if high then lsfHighNoRipple else lsfLowNoRipple)).change
      (setFreeze tx && !noFreeze) (clearFreeze tx)
      (if high then lsfHighFreeze else lsfLowFreeze))

def reserveSet (high defaultRipple : Bool) (state : RippleState) (flags : Flags) : Bool :=
  let own := if high then state.balance.neg else state.balance
  defaultedQuality ((if high then state.highQualityIn else state.lowQualityIn).getD 0) != 0 ||
    defaultedQuality ((if high then state.highQualityOut else state.lowQualityOut).getD 0) != 0 ||
    (!flags.has (if high then lsfHighNoRipple else lsfLowNoRipple)) != defaultRipple ||
    flags.has (if high then lsfHighFreeze else lsfLowFreeze) ||
    !(if high then state.highLimit else state.lowLimit).isZero ||
    own.isPositive

def finalFlags (high lowReserve highReserve : Bool) (flags : Flags) : Flags :=
  ((flags.change (setAuth tx) false (if high then lsfHighAuth else lsfLowAuth)).change
    lowReserve (!lowReserve) lsfLowReserve).change highReserve (!highReserve) lsfHighReserve

def sideMarks (high noFreeze : Bool) : List Flags :=
  trustCreateMarks high (setAuth tx) (setFreeze tx && !noFreeze)

/-- Marks it may set, on its one line. -/
def settable (low high : AccountID) (currency : Currency) (marks : List Flags) : SettableMarks :=
  fun low' high' currency' =>
    if low' = low ∧ high' = high ∧ currency' = currency then marks else []

theorem settable_self (low high : AccountID) (cur : Currency) (marks : List Flags) :
    settable low high cur marks low high cur = marks := by
  simp [settable]

theorem has_finalFlags {high noFreeze lowReserve highReserve : Bool} {bal : STAmount}
    {fgs mark : Flags} (hm : mark ∈ lineMarks) (hfi : mark ∉ sideMarks tx high noFreeze)
    (h : (finalFlags tx high lowReserve highReserve
      (sideFlags tx high noFreeze bal fgs)).has mark) : fgs.has mark := by
  have hre : lsfLowReserve.has mark = false ∧ lsfHighReserve.has mark = false ∧
      lsfLowNoRipple.has mark = false ∧ lsfHighNoRipple.has mark = false := by
    simp only [lineMarks, mem_cons, not_mem_nil, or_false] at hm
    rcases hm with rfl | rfl | rfl | rfl <;> decide
  have hsi : ∀ flag : Flags, flag.has mark → flag ∈ lineMarks → flag = mark := by
    intro flag hfl hme
    simp only [lineMarks, mem_cons, not_mem_nil, or_false] at hm hme
    rcases hm with rfl | rfl | rfl | rfl <;> rcases hme with rfl | rfl | rfl | rfl <;>
      first | rfl | (revert hfl; decide)
  rcases has_of_has_change h with h | ⟨_, h⟩
  · rcases has_of_has_change h with h | ⟨_, h⟩
    · rcases has_of_has_change h with h | ⟨hse, h⟩
      · rcases has_of_has_change h with h | ⟨hse, h⟩
        · rcases has_of_has_change h with h | ⟨_, h⟩
          · exact h
          · cases high <;> simp [hre] at h
        · refine absurd ?_ hfi
          have hfl := hsi _ h (by cases high <;> simp [lineMarks])
          simp [sideMarks, trustCreateMarks, hse, ← hfl]
      · refine absurd ?_ hfi
        have hfl := hsi _ h (by cases high <;> simp [lineMarks])
        simp [sideMarks, trustCreateMarks, hse, ← hfl]
    · simp [hre] at h
  · simp [hre] at h

def mayMark (noFreeze : Bool) : SettableMarks :=
  let dst := fields.limitAmount.getIssuer
  settable (lowAccount account dst) (highAccount account dst) fields.limitAmount.getCurrency
    (sideMarks tx (decide (dst < account)) noFreeze)

def modifyLine (priorBalance reserveCreate : STAmount)
    (sle sleDst : AccountRoot) (state : RippleState) :
    LedgerM (transferWith (mayMark tx fields account (sle.isFlag lsfNoFreeze))) TER := do
  let currency := fields.limitAmount.getCurrency
  let dst := fields.limitAmount.getIssuer
  let low := lowAccount account dst
  let high := highAccount account dst
  let isHigh := decide (dst < account)
  let noFreeze := sle.isFlag lsfNoFreeze
  let next := withSide fields account isHigh state
  let flags := sideFlags tx isHigh noFreeze state.balance state.flags
  let lowReserve := reserveSet false ((if isHigh then sleDst else sle).isFlag lsfDefaultRipple)
    next flags
  let highReserve := reserveSet true ((if isHigh then sle else sleDst).isFlag lsfDefaultRipple)
    next flags
  let lowReserved := state.isFlag lsfLowReserve
  let highReserved := state.isFlag lsfHighReserve
  if lowReserve && !lowReserved then
    adjustOwnerCount low 1
  if !lowReserve && lowReserved then
    adjustOwnerCount low (-1)
  if highReserve && !highReserved then
    adjustOwnerCount high 1
  if !highReserve && highReserved then
    adjustOwnerCount high (-1)
  alter (.line low high currency) (fun state =>
      { withSide fields account isHigh state with
        flags := finalFlags tx isHigh lowReserve highReserve
          (sideFlags tx isHigh noFreeze state.balance state.flags) })
    fun _ _ hm hfi h => has_finalFlags tx hm (by rwa [mayMark, settable_self] at hfi) h
  if (!lowReserve && !highReserve) || currency == badCurrency then
    trustDelete state low high currency
  else
    let increased := if isHigh then highReserve && !highReserved else lowReserve && !lowReserved
    if ← if increased then priorBalance.lt reserveCreate else pure false then
      return .tecINSUF_RESERVE_LINE
    update (.line low high currency)
    return .tesSUCCESS

def newLine : TrustCreate where
  srcHigh := decide (fields.limitAmount.getIssuer < account)
  src := account
  dst := fields.limitAmount.getIssuer
  auth := setAuth tx
  noRipple := setNoRipple tx
  freeze := setFreeze tx
  balance := STAmount.zeroOf ⟨fields.limitAmount.getCurrency, noAccount⟩
  limit := fields.limitAmount.setIssuer account
  qualityIn := qualityIn fields
  qualityOut := qualityOut fields

def creationMarks (p : TrustCreate) : SettableMarks :=
  settable p.low p.high p.balance.getCurrency p.marks

def createLine :
    LedgerM (transferWith (creationMarks (newLine tx fields account))) TER :=
  trustCreate _ (newLine tx fields account) account (by
      intro mark hm
      rwa [creationMarks, settable_self])

/-- It would set a missing line to its default. -/
def redundant : Bool :=
  fields.limitAmount.isZero && qualityIn fields == 0 && qualityOut fields == 0

def setLine (s : TxState) : LedgerM settings TER := do
  let account := s.account
  let currency := fields.limitAmount.getCurrency
  let dst := fields.limitAmount.getIssuer
  let sle ← deref (← peek (.account account))
  let reserveCreate := STAmount.ofDrops (if sle.ownerCount < 2 then 0
    else s.view.context.fees.accountReserve (sle.ownerCount + 1))
  if setAuth tx && !sle.isFlag lsfRequireAuth then
    return .tefNO_AUTH_REQUIRED
  else if account = dst then
    -- a line to oneself can only be removed
    match ← peek (.line account dst currency) with
    | some state => lift (trustDelete state account dst currency)
    | none => return .temDST_IS_SRC
  else
    match ← peek (.account dst) with
    | none => return .tecNO_DST
    | some sleDst =>
      match ← peek (.line (lowAccount account dst) (highAccount account dst) currency) with
      | some state =>
        lift (modifyLine tx fields account s.priorBalance reserveCreate sle sleDst state)
      | none =>
        if redundant fields then
          return .tecNO_LINE_REDUNDANT
        else if ← s.priorBalance.lt reserveCreate then
          return .tecNO_LINE_INSUF_RESERVE
        else
          lift (createLine tx fields account)

variable {tx fields} in
/-- Nothing changed, or a line deleted, changed or created. -/
theorem setLine_cases {s : TxState} {v v' : View} {ter : TER}
    (h : (setLine tx fields s).run v = (.ok ter, v')) :
    ∃ sle w, v.get (.account s.account) = some sle ∧ View.Evolves still v w ∧ (v' = w ∨
        (∃ state low high currency, (trustDelete state low high currency).run w = (.ok ter, v')) ∨
        (s.account ≠ fields.limitAmount.getIssuer ∧ ∃ reserveCreate sleDst state,
          (modifyLine tx fields s.account s.priorBalance reserveCreate sle sleDst state).run w =
            (.ok ter, v')) ∨
        (s.account ≠ fields.limitAmount.getIssuer ∧
          v.get (Key.rippleState s.account fields.limitAmount.getIssuer
            fields.limitAmount.getCurrency) = none ∧
          (createLine tx fields s.account).run w = (.ok ter, v'))) := by
  obtain ⟨_, v1, hsr, h1⟩ := bind_eq_ok.mp h
  obtain ⟨hsl, hst⟩ := run_peek_eq_ok hsr
  obtain ⟨sle, v2, hd, h2⟩ := bind_eq_ok.mp h1
  obtain ⟨rfl, rfl⟩ := run_deref_eq_ok hd
  refine ⟨sle, ?_⟩
  by_cases ha : (setAuth tx && !sle.isFlag lsfRequireAuth)
  · rw [if_pos ha] at h2
    cases h2
    exact ⟨_, hsl, hst, .inl rfl⟩
  rw [if_neg ha, run_ite] at h2
  by_cases hs : s.account = fields.limitAmount.getIssuer
  · rw [if_pos hs] at h2
    obtain ⟨found, v2, hli, h3⟩ := bind_eq_ok.mp h2
    refine ⟨v2, hsl, hst.trans (run_peek_eq_ok hli).2, ?_⟩
    cases found with
    | none =>
      cases h3
      exact .inl rfl
    | some state => exact .inr (.inl ⟨_, _, _, _, h3⟩)
  · rw [if_neg hs] at h2
    obtain ⟨found, v2, hds, h3⟩ := bind_eq_ok.mp h2
    have hl := hst.trans (run_peek_eq_ok hds).2
    cases found with
    | none =>
      cases h3
      exact ⟨_, hsl, hl, .inl rfl⟩
    | some sleDst =>
      obtain ⟨found, v3, hli, h4⟩ := bind_eq_ok.mp h3
      obtain ⟨hf, hl'⟩ := run_peek_eq_ok hli
      refine ⟨v3, hsl, hl.trans hl', ?_⟩
      cases found with
      | some state => exact .inr (.inr (.inl ⟨hs, _, sleDst, state, h4⟩))
      | none =>
        by_cases hr : redundant fields
        · rw [if_pos hr] at h4
          cases h4
          exact .inl rfl
        rw [if_neg hr] at h4
        obtain ⟨short, _, hsh, h5⟩ := bind_eq_ok.mp h4
        obtain ⟨_, rfl⟩ := run_liftM_except_eq_ok.mp hsh
        cases short with
        | true =>
          cases h5
          exact .inl rfl
        | false =>
          refine .inr (.inr (.inr ⟨hs, ?_, h5⟩))
          exact (hl.entries _).symm.trans hf

def doApply : TxM settings TER := do
  let s ← (members : TxM settings TxState)
  setLine tx fields s

def processor : Processor settings :=
  Transactor.standard env tx
    (Transactor.preCheckWith env tx (refusal tx fields)) (doApply tx fields)

end SetTrust

end Sand
