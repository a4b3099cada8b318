import Sand.Paths.RippleCalc
import Sand.Tx.Operate

/-!
# Payments

Native payments move drops directly, every other payment goes over paths.
-/

namespace Sand

open LedgerM Evolution PreCheckM MonoM

namespace Payment

def tfPaymentMask : Flags :=
  ~~~(tfUniversal ||| tfPartialPayment ||| tfLimitQuality ||| tfNoRippleDirect)

def MaxPathSize : Nat := 6
def MaxPathLength : Nat := 8

variable (env : Env) (tx : STTx) (fields : PaymentTx)

def partialPaymentAllowed : Bool := tx.flags.has tfPartialPayment
def limitQuality : Bool := tx.flags.has tfLimitQuality
def defaultPathsAllowed : Bool := !tx.flags.has tfNoRippleDirect

def allowDeliverMin (context : Context) : Bool :=
  decide (493149600 < context.info.parentCloseTime) || context.flags.has tapENABLE_TESTING

variable (account : AccountID)

/-- Or the amount, of the source's issue unless native. -/
def maxSourceAmount : Except Fault STAmount :=
  match fields.sendMax with
  | some sendMax => .ok sendMax
  | none =>
    let amount := fields.amount
    if amount.native then .ok amount
    else STAmount.canonicalize ⟨amount.getCurrency, account⟩ amount.mantissa amount.exponent
      amount.isNegative

def deliverMinRefusal (context : Context) (deliverMin : STAmount) : Option TER :=
  if !allowDeliverMin context then some .temMALFORMED
  else if !partialPaymentAllowed tx then some .temBAD_AMOUNT
  else if !deliverMin.isLegalNet || !deliverMin.isPositive then some .temBAD_AMOUNT
  else if !deliverMin.issue.same fields.amount.issue then some .temBAD_AMOUNT
  else if fields.amount.ltCore deliverMin then some .temBAD_AMOUNT
  else none

def amountRefusal (maxSource : STAmount) (context : Context) : Option TER :=
  let amount := fields.amount
  let srcCurrency := maxSource.getCurrency
  let dstCurrency := amount.getCurrency
  let xrpDirect := isXRP srcCurrency && isXRP dstCurrency
  if !amount.isLegalNet || !maxSource.isLegalNet then
    some .temBAD_AMOUNT
  else if fields.destination = 0 then
    some .temDST_NEEDED
  else if fields.sendMax.isSome && !maxSource.isPositive then
    some .temBAD_AMOUNT
  else if !amount.isPositive then
    some .temBAD_AMOUNT
  else if srcCurrency = badCurrency ∨ dstCurrency = badCurrency then
    some .temBAD_CURRENCY
  else if account = fields.destination ∧ srcCurrency = dstCurrency ∧ fields.paths.isNone then
    some .temREDUNDANT
  else if xrpDirect && fields.sendMax.isSome then
    some .temBAD_SEND_XRP_MAX
  else if xrpDirect && fields.paths.isSome then
    some .temBAD_SEND_XRP_PATHS
  else if xrpDirect && partialPaymentAllowed tx then
    some .temBAD_SEND_XRP_PARTIAL
  else if xrpDirect && limitQuality tx then
    some .temBAD_SEND_XRP_LIMIT
  else if xrpDirect && !defaultPathsAllowed tx then
    some .temBAD_SEND_XRP_NO_DIRECT
  else
    fields.deliverMin.bind (deliverMinRefusal tx fields context)

/-- The source account is set by the checks that come last. -/
def preCheck : PreCheckM TER := do
  if tx.flags.has tfPaymentMask then
    return .temINVALID_FLAG
  let account := (← members).account
  let maxSource ← maxSourceAmount fields account
  Transactor.preCheckWith env tx (amountRefusal tx fields account maxSource)

def created : AccountRoot := { sequence := 1 }

theorem ordinary_rel_created (id : AccountID) : ordinary.rel (.account id) none (some created) :=
  ⟨⟨nofun, rfl⟩, rfl, rfl⟩

def prepareDestination : LedgerM ordinary (Option TER) := do
  let dst := fields.destination
  let context ← LedgerM.context
  match ← peek (.account dst) with
  | none =>
    if !fields.amount.native then
      return some .tecNO_DST
    else if context.info.isOpen && partialPaymentAllowed tx then
      return some .telNO_DST_PARTIAL
    else if ← fields.amount.lt (.ofDrops (context.fees.accountReserve 0)) then
      return some .tecNO_DST_INSUF_XRP
    else
      insert (.account dst) created (ordinary_rel_created dst)
      return none
  | some sleDst =>
    if sleDst.isFlag lsfRequireDestTag && fields.destinationTag.isNone then
      return some .tecDST_TAG_NEEDED
    update (.account dst)
    return none

def ripples : Bool :=
  fields.paths.isSome || fields.sendMax.isSome || !fields.amount.native

def ripplePayment (maxSource : STAmount) : LedgerM transfer TER := do
  let context ← LedgerM.context
  let paths := fields.paths.getD []
  let tooBig := decide (MaxPathSize < paths.length) ||
    paths.any fun path => decide (MaxPathLength < path.length)
  let result ← if context.info.isOpen && tooBig then
      pure TER.telBAD_PATH_COUNT
    else do
      let input : RippleCalc.Input :=
        { partialPaymentAllowed := partialPaymentAllowed tx
          defaultPathsAllowed := defaultPathsAllowed tx
          limitQuality := limitQuality tx
          isLedgerOpen := context.info.isOpen }
      let (result, delivered) ← inPaymentSandbox
        (RippleCalc.rippleCalculate input maxSource fields.amount fields.destination account paths)
      match fields.deliverMin with
      | some deliverMin =>
        if result = .tesSUCCESS && !delivered.same fields.amount && allowDeliverMin context then
          if ← delivered.lt deliverMin then pure TER.tecPATH_PARTIAL else pure result
        else pure result
      | none => pure result
  return if result.isTerRetry then .tecPATH_DRY else result

/-- An exception in the path engine is caught. -/
def ripple (maxSource : STAmount) : LedgerM transfer TER :=
  tryCatch (ripplePayment tx fields account maxSource) fun
    | .exception => return .tefEXCEPTION
    | .crash => throw .crash

variable (balance : STAmount)

/-- Paid, and free to change its key once more. -/
def paid (root : AccountRoot) : AccountRoot :=
  { root with
    balance := balance
    flags := root.flags &&& ~~~lsfPasswordSpent }

theorem ordinary_rel_paid (id : AccountID) (root : AccountRoot) :
    ordinary.rel (.account id) (some root) (some (paid balance root)) := by
  refine ⟨⟨fun _ => rfl, rfl⟩, ?_, ?_⟩
  · exact Flags.has_clear_of_disjoint root.flags (by decide)
  · exact Flags.has_clear_of_disjoint root.flags (by decide)

theorem ordinary_rel_setBalance (id : AccountID) (root : AccountRoot) :
    ordinary.rel (.account id) (some root) (some { root with balance := balance }) :=
  ⟨⟨fun _ => rfl, rfl⟩, rfl, rfl⟩

/-- Moves drops, keeping the source's reserve. -/
def direct (s : TxState) : LedgerM ordinary TER := do
  let account := s.account
  let dst := fields.destination
  let sle ← deref (← read (.account account))
  let reserve := STAmount.ofDrops ((← LedgerM.context).fees.accountReserve sle.ownerCount)
  let kept := if ← tx.fee.lt reserve then reserve else tx.fee
  if ← s.priorBalance.lt (← fields.amount.add kept) then
    return .tecUNFUNDED_PAYMENT
  let _ ← peek (.account account)
  let rest ← s.sourceBalance.sub fields.amount
  alter (.account account) (fun root => { root with balance := rest })
    (ordinary_rel_setBalance rest account)
  let sleDst ← deref (← peek (.account dst))
  let balance ← sleDst.balance.add fields.amount
  alter (.account dst) (paid balance) (ordinary_rel_paid balance dst)
  return .tesSUCCESS

def doApply : TxM ordinary TER := do
  let s ← (members : TxM ordinary TxState)
  let maxSource ← maxSourceAmount fields s.account
  match ← (prepareDestination tx fields : LedgerM ordinary (Option TER)) with
  | some ter => return ter
  | none =>
    if ripples fields then
      (ripple tx fields s.account maxSource : LedgerM ordinary TER)
    else
      (direct tx fields s : LedgerM ordinary TER)

section Evolves

variable {tx fields} {E : Evolution} [Sub transfer E] {v v' : View}

section

omit [Sub transfer E]

theorem evolves_prepareDestination {res : Option TER}
    (hcr : E.rel (.account fields.destination) none (some created))
    (h : (prepareDestination tx fields).run v = (.ok res, v')) : View.Evolves E v v' := by
  obtain ⟨_, _, hc, h1⟩ := bind_eq_ok.mp h
  cases hc
  obtain ⟨found, v1, hpk, h2⟩ := bind_eq_ok.mp h1
  have hp : View.Evolves E v v1 := (run_peek_eq_ok hpk).2.weaken
  cases found with
  | some root =>
    rw [run_ite] at h2
    split_ifs at h2
    · cases h2
      exact hp
    · obtain ⟨_, v2, hu, h3⟩ := bind_eq_ok.mp h2
      cases h3
      exact hp.trans (evolves_of_run_update hu)
  | none =>
    dsimp only at h2
    simp only [run_ite, run_pure] at h2
    split_ifs at h2
    · cases h2
      exact hp
    · cases h2
      exact hp
    obtain ⟨short, _, hsh, h3⟩ := bind_eq_ok.mp h2
    obtain ⟨_, rfl⟩ := run_liftM_except_eq_ok.mp hsh
    cases short with
    | true =>
      cases h3
      exact hp
    | false =>
      obtain ⟨_, v2, hi, h4⟩ := bind_eq_ok.mp h3
      cases h4
      exact hp.trans (evolves_of_run_insert hcr hi)

theorem evolves_direct {s : TxState} {ter : TER}
    (hb : ∀ id balance root, E.rel (.account id) (some root)
      (some { root with balance := balance }))
    (hpa : ∀ id balance root, E.rel (.account id) (some root) (some (paid balance root)))
    (h : (direct tx fields s).run v = (.ok ter, v')) : View.Evolves E v v' := by
  obtain ⟨_, _, hr, h1⟩ := bind_eq_ok.mp h
  cases hr
  obtain ⟨sle, _, hd, h2⟩ := bind_eq_ok.mp h1
  obtain ⟨_, rfl⟩ := run_deref_eq_ok hd
  obtain ⟨_, _, hc, h3⟩ := bind_eq_ok.mp h2
  cases hc
  obtain ⟨_, _, hl, h4⟩ := bind_eq_ok.mp h3
  obtain ⟨_, rfl⟩ := run_liftM_except_eq_ok.mp hl
  obtain ⟨_, _, hn, h5⟩ := bind_eq_ok.mp h4
  obtain ⟨_, rfl⟩ := run_liftM_except_eq_ok.mp hn
  obtain ⟨short, _, hsh, h6⟩ := bind_eq_ok.mp h5
  obtain ⟨_, rfl⟩ := run_liftM_except_eq_ok.mp hsh
  cases short with
  | true =>
    cases h6
    exact View.Evolves.refl E _
  | false =>
    obtain ⟨_, v1, hs, h7⟩ := bind_eq_ok.mp h6
    obtain ⟨rest, _, hrs, h8⟩ := bind_eq_ok.mp h7
    obtain ⟨_, rfl⟩ := run_liftM_except_eq_ok.mp hrs
    obtain ⟨_, _, ha, h9⟩ := bind_eq_ok.mp h8
    cases ha
    obtain ⟨_, v2, hds, h10⟩ := bind_eq_ok.mp h9
    obtain ⟨_, _, hd, h11⟩ := bind_eq_ok.mp h10
    obtain ⟨_, rfl⟩ := run_deref_eq_ok hd
    obtain ⟨balance, _, hsu, h12⟩ := bind_eq_ok.mp h11
    obtain ⟨_, rfl⟩ := run_liftM_except_eq_ok.mp hsu
    obtain ⟨_, _, ha, h13⟩ := bind_eq_ok.mp h12
    cases ha
    cases h13
    have hsr : View.Evolves E v v1 := (run_peek_eq_ok hs).2.weaken
    have hpaidOut := hsr.trans (View.evolves_alter v1 _ _ (hb s.account rest))
    have hf := hpaidOut.trans (run_peek_eq_ok hds).2.weaken
    exact hf.trans (View.evolves_alter v2 _ _ (hpa fields.destination balance))

end

theorem evolves_doApply {s s' : TxState} {ter : TER}
    (hcr : ∀ id, E.rel (.account id) none (some created))
    (hb : ∀ id balance root, E.rel (.account id) (some root)
      (some { root with balance := balance }))
    (hpa : ∀ id balance root, E.rel (.account id) (some root) (some (paid balance root)))
    (h : (doApply tx fields).run s = (.ok ter, s')) : View.Evolves E s.view s'.view := by
  obtain ⟨_, _, hme, h1⟩ := bind_eq_ok.mp h
  cases hme
  obtain ⟨_, _, hma, h2⟩ := bind_eq_ok.mp h1
  obtain ⟨_, rfl⟩ := run_liftM_except_eq_ok.mp hma
  obtain ⟨ready, _, hrd, h3⟩ := bind_eq_ok.mp h2
  obtain ⟨v1, run, rfl⟩ := TxM.run_liftM_ledger_eq_ok hrd
  have hpr := evolves_prepareDestination (hcr _) run
  cases ready with
  | some ter =>
    cases h3
    exact hpr
  | none =>
    by_cases hri : ripples fields = true
    · simp only [hri, ↓reduceIte] at h3
      obtain ⟨v2, hrp, rfl⟩ := TxM.run_liftM_ledger_eq_ok h3
      have hm : View.Evolves transfer v1 v2 := rel_of_run (x := ripple tx fields s.account _) hrp
      exact hpr.trans hm.weaken
    · simp only [hri] at h3
      obtain ⟨v2, hdi, rfl⟩ := TxM.run_liftM_ledger_eq_ok h3
      exact hpr.trans (evolves_direct hb hpa hdi)

end Evolves

def processor : Processor ordinary :=
  Transactor.standard env tx (preCheck env tx fields) (doApply tx fields)

end Payment

end Sand
