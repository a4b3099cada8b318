import Sand.Tx.Operate

/-!
# Account settings

`AccountSet` changes flags and profile, `SetRegularKey` the second key.
-/

namespace Sand

open LedgerM Evolution PreCheckM Transactor MonoM

theorem TxM.run_source_eq_ok {E : Evolution} {α : Type} {f : TxState → AccountRoot → TxM E α}
    {s s' : TxState} {a : α} (h : (do
      let s ← (members : TxM E TxState)
      let root ← (deref (← (peek (.account s.account) : LedgerM E _)) : LedgerM E _)
      f s root).run s = (.ok a, s')) :
    ∃ root v, (peek (.account s.account) : LedgerM E _).run s.view = (.ok (some root), v) ∧
      (f s root).run { s with view := v } = (.ok a, s') := by
  obtain ⟨_, _, hm, h1⟩ := bind_eq_ok.mp h
  cases hm
  obtain ⟨found, s1, hpk, h2⟩ := bind_eq_ok.mp h1
  obtain ⟨v, hl, rfl⟩ := TxM.run_liftM_ledger_eq_ok hpk
  obtain ⟨root, s2, hd, h3⟩ := bind_eq_ok.mp h2
  obtain ⟨_, hf, rfl⟩ := TxM.run_liftM_ledger_eq_ok hd
  obtain ⟨rfl, rfl⟩ := run_deref_eq_ok hf
  exact ⟨root, v, hl, h3⟩

namespace SetAccount

def asfRequireDest : UInt32 := 1
def asfRequireAuth : UInt32 := 2
def asfDisallowXRP : UInt32 := 3
def asfDisableMaster : UInt32 := 4
def asfAccountTxnID : UInt32 := 5
def asfNoFreeze : UInt32 := 6
def asfGlobalFreeze : UInt32 := 7
def asfDefaultRipple : UInt32 := 8

def PUBLIC_BYTES_MAX : Nat := 33
def DOMAIN_BYTES_MAX : Nat := 256

def tfAccountSetMask : Flags :=
  ~~~(tfUniversal ||| tfRequireDestTag ||| tfOptionalDestTag ||| tfRequireAuth |||
    tfOptionalAuth ||| tfDisallowXRP ||| tfAllowXRP)

variable (env : Env) (tx : STTx) (fields : AccountSetTx)

def sets (legacy : Flags) (asf : UInt32) : Bool :=
  tx.flags.has legacy || fields.setFlag == asf

def clears (legacy : Flags) (asf : UInt32) : Bool :=
  tx.flags.has legacy || fields.clearFlag == asf

def refusal (_ : Context) : Option TER :=
  if tx.flags.has tfAccountSetMask then
    some .temINVALID_FLAG
  else if fields.setFlag ≠ 0 ∧ fields.setFlag = fields.clearFlag then
    some .temINVALID_FLAG
  else if sets tx fields tfRequireAuth asfRequireAuth &&
      clears tx fields tfOptionalAuth asfRequireAuth then
    some .temINVALID_FLAG
  else if sets tx fields tfRequireDestTag asfRequireDest &&
      clears tx fields tfOptionalDestTag asfRequireDest then
    some .temINVALID_FLAG
  else if sets tx fields tfDisallowXRP asfDisallowXRP &&
      clears tx fields tfAllowXRP asfDisallowXRP then
    some .temINVALID_FLAG
  else if fields.transferRate.any fun rate => rate != 0 && decide (rate < qualityOne) then
    some .temBAD_TRANSFER_RATE
  else
    none

def flagRefusal (s : TxState) (root : AccountRoot) : Option TER :=
  if sets tx fields tfRequireAuth asfRequireAuth && !root.isFlag lsfRequireAuth &&
      !s.view.dirIsEmpty (.owner s.account) then
    some (if s.view.context.flags.has tapRETRY then .terOWNERS else .tecOWNERS)
  else if fields.setFlag = asfDisableMaster ∧ !root.isFlag lsfDisableMaster ∧ !s.sigMaster then
    some .tecNEED_MASTER_KEY
  else if fields.setFlag = asfDisableMaster ∧ !root.isFlag lsfDisableMaster ∧
      root.regularKey.isNone then
    some .tecNO_REGULAR_KEY
  else if fields.setFlag = asfNoFreeze ∧ !s.sigMaster ∧ !root.isFlag lsfDisableMaster then
    some .tecNEED_MASTER_KEY
  else
    none

variable (flags : Flags)

/-- The flags before the freeze settings are looked at. -/
def plainFlags : Flags :=
  (((((flags.change (sets tx fields tfRequireAuth asfRequireAuth)
      (clears tx fields tfOptionalAuth asfRequireAuth) lsfRequireAuth).change
      (sets tx fields tfRequireDestTag asfRequireDest)
      (clears tx fields tfOptionalDestTag asfRequireDest) lsfRequireDestTag).change
      (sets tx fields tfDisallowXRP asfDisallowXRP)
      (clears tx fields tfAllowXRP asfDisallowXRP) lsfDisallowXRP).change
      (fields.setFlag == asfDisableMaster) (fields.clearFlag == asfDisableMaster)
      lsfDisableMaster).change
      (fields.setFlag == asfDefaultRipple) (fields.clearFlag == asfDefaultRipple) lsfDefaultRipple)

/-- Once `NoFreeze` is set, `GlobalFreeze` stays. -/
def freezeFlags : Flags :=
  let flags := flags.change (fields.setFlag == asfNoFreeze) false lsfNoFreeze
  flags.change (fields.setFlag == asfGlobalFreeze)
    (fields.clearFlag == asfGlobalFreeze && !flags.has lsfNoFreeze) lsfGlobalFreeze

def flagsOut : Flags :=
  freezeFlags fields (plainFlags tx fields flags)

def setField {α : Type} (given : Option α) (empty : α → Bool) (current : Option α) : Option α :=
  match given with
  | none => current
  | some value => if empty value then none else some value

def profileRefusal : Option TER :=
  if fields.messageKey.any fun key => decide (PUBLIC_BYTES_MAX < key.length) then
    some .telBAD_PUBLIC_KEY
  else if fields.domain.any fun domain => decide (DOMAIN_BYTES_MAX < domain.length) then
    some .telBAD_DOMAIN
  else
    none

def changed (root : AccountRoot) : AccountRoot :=
  { root with
    flags := flagsOut tx fields root.flags
    accountTxnID :=
      if fields.clearFlag = asfAccountTxnID then none
      else if fields.setFlag = asfAccountTxnID then some (root.accountTxnID.getD 0)
      else root.accountTxnID
    emailHash := setField fields.emailHash (· == 0) root.emailHash
    walletLocator := setField fields.walletLocator (· == 0) root.walletLocator
    messageKey := setField fields.messageKey List.isEmpty root.messageKey
    domain := setField fields.domain List.isEmpty root.domain
    transferRate :=
      match fields.transferRate with
      | none => root.transferRate
      | some rate =>
        if rate = 0 ∨ rate = qualityOne then none
        else if qualityOne < rate then some rate
        else root.transferRate }

def doApply : TxM settings TER := do
  let s ← (members : TxM settings TxState)
  let root ← (deref (← (peek (.account s.account) : LedgerM settings _)) : LedgerM settings _)
  match (flagRefusal tx fields s root).or (profileRefusal fields) with
  | some ter => return ter
  | none =>
    (alter (.account s.account) (changed tx fields) fun _ => ⟨fun _ => rfl, rfl⟩ :
      LedgerM settings Unit)
    return .tesSUCCESS

variable {tx fields} in
theorem evolves_doApply {E : Evolution} {s s' : TxState} {ter : TER}
    (hc : ∀ root, E.rel (.account s.account) (some root) (some (changed tx fields root)))
    (h : (doApply tx fields).run s = (.ok ter, s')) : View.Evolves E s.view s'.view := by
  obtain ⟨root, v1, hl, h3⟩ := TxM.run_source_eq_ok h
  have hp : View.Evolves E s.view v1 := (run_peek_eq_ok hl).2.weaken
  cases hr : (flagRefusal tx fields s root).or (profileRefusal fields) with
  | some refusal =>
    simp only [hr] at h3
    cases h3
    exact hp
  | none =>
    simp only [hr] at h3
    obtain ⟨_, s3, ha, h4⟩ := bind_eq_ok.mp h3
    cases ha
    cases h4
    exact hp.trans (View.evolves_alter _ _ _ hc)

def processor : Processor settings :=
  standard env tx (preCheckWith env tx (refusal tx fields)) (doApply tx fields)

end SetAccount

namespace SetRegularKey

variable (env : Env) (tx : STTx) (regularKey : Option AccountID)

def calculateBaseFee : CheckM UInt64 := do
  let s ← members
  let sle ← CheckM.peek (.account s.account)
  if sle.any (fun root => !root.isFlag lsfPasswordSpent) &&
      env.calcAccountID s.signingPubKey == s.account then
    return 0
  else
    Transactor.calculateBaseFee env

def refusal (_ : Context) : Option TER :=
  if tx.flags.has (~~~tfUniversal) then some .temINVALID_FLAG else none

/-- The free change is used up by this. -/
def changed (feeDue : STAmount) (root : AccountRoot) : AccountRoot :=
  { root with
    flags := root.flags.change feeDue.isZero false lsfPasswordSpent
    regularKey := regularKey }

theorem ordinaryRel_changed (feeDue : STAmount) (id : AccountID) (root : AccountRoot) :
    ordinaryRel (.account id) (some root) (some (changed regularKey feeDue root)) := by
  refine ⟨⟨fun _ => rfl, rfl⟩, ?_, ?_⟩
  · exact Flags.has_change_of_disjoint root.flags _ _ (by decide)
  · exact Flags.has_change_of_disjoint root.flags _ _ (by decide)

def doApply : TxM ordinary TER := do
  let s ← (members : TxM ordinary TxState)
  let root ← (deref (← (peek (.account s.account) : LedgerM ordinary _)) : LedgerM ordinary _)
  if regularKey.isNone && root.isFlag lsfDisableMaster then
    return .tecMASTER_DISABLED
  (alter (.account s.account) (changed regularKey s.feeDue)
    (ordinaryRel_changed regularKey s.feeDue s.account) : LedgerM ordinary Unit)
  return .tesSUCCESS

variable {regularKey} in
theorem evolves_doApply {E : Evolution} {s s' : TxState} {ter : TER}
    (hc : ∀ root, E.rel (.account s.account) (some root)
      (some (changed regularKey s.feeDue root))) (h :
    (doApply regularKey).run s = (.ok ter, s')) : View.Evolves E s.view s'.view := by
  obtain ⟨root, v1, hl, h3⟩ := TxM.run_source_eq_ok h
  have hp : View.Evolves E s.view v1 := (run_peek_eq_ok hl).2.weaken
  split_ifs at h3
  · cases h3
    exact hp
  obtain ⟨_, s3, ha, h4⟩ := bind_eq_ok.mp h3
  cases ha
  cases h4
  exact hp.trans (View.evolves_alter _ _ _ hc)

def processor : Processor ordinary :=
  { standard env tx (preCheckWith env tx (refusal tx))
      (doApply regularKey) with
    calculateBaseFee := calculateBaseFee env }

end SetRegularKey

end Sand
