import Sand.Tx.History

/-!
# The promise not to freeze

With `NoFreeze` an account cannot take that back, lift a global freeze or freeze a line.
-/

namespace Sand

open LedgerM Evolution Transactor Flags TrustCreate SetTrust SetAccount List

variable (a : AccountID)

def Evolution.promiseRel : ∀ k, Option (Entry k) → Option (Entry k) → Prop
  | .account id, old, new =>
    id = a → flagged old lsfNoFreeze → flagged new lsfNoFreeze ∧
        (flagged old lsfGlobalFreeze → flagged new lsfGlobalFreeze)
  | .line low high _, old, new =>
    (low = a → marked new lsfLowFreeze → marked old lsfLowFreeze) ∧
      (high = a → marked new lsfHighFreeze → marked old lsfHighFreeze)
  | _, _, _ => True

/-- Changes that keep the promise of account `a`. -/
def Evolution.promise : Evolution where
  rel := promiseRel a
  refl k e := by
    cases k <;> simp [promiseRel]
  trans k e1 e2 e3 h12 h23 := by
    cases k with
    | account id =>
      intro hid hno
      obtain ⟨hno2, hglobal2⟩ := h12 hid hno
      obtain ⟨hno3, hglobal3⟩ := h23 hid hno2
      exact ⟨hno3, fun hg => hglobal3 (hglobal2 hg)⟩
    | line low high currency =>
      exact ⟨fun hl h => h12.1 hl (h23.1 hl h), fun hh h => h12.2 hh (h23.2 hh h)⟩
    | _ => trivial
  mints := true

namespace Evolution

variable {a : AccountID}

instance : Sub ordinary (promise a) where
  sub k e e' h := by
    cases k with
    | account id =>
      intro _ hno
      exact ⟨h.2.1.trans hno, fun hg => h.2.2.trans hg⟩
    | line low high currency =>
      exact ⟨fun _ => h lsfLowFreeze (by decide), fun _ => h lsfHighFreeze (by decide)⟩
    | _ => trivial
  mints h := by cases h

instance : Sub charge (promise a) :=
  Sub.trans charge ordinary (promise a)

/-- Moving value and setting marks keeps the promise if the account's freeze mark may not be set. -/
theorem promise_of_transferWith {marks : SettableMarks} {v v' : View}
    (hma : ∀ low high currency, (low = a → lsfLowFreeze ∉ marks low high currency) ∧
      (high = a → lsfHighFreeze ∉ marks low high currency))
    (h : View.Evolves (transferWith marks) v v') : View.Evolves (promise a) v v' where
  context := h.context
  base := h.base
  dropsCreated := nofun
  dropsDestroyed := h.dropsDestroyed
  parents := h.parents
  writes := h.writes
  entries k := by
    have hre := h.entries k
    cases k with
    | account id =>
      have ho := ordinaryRel_account_of_map_eq id AccountRoot.settings (fun _ => rfl)
        (fun _ => rfl) hre
      intro _ hno
      exact ⟨ho.2.1.trans hno, fun hg => ho.2.2.trans hg⟩
    | line low high currency =>
      obtain ⟨hl, hh⟩ := hma low high currency
      exact ⟨fun heq => hre lsfLowFreeze (by decide) (hl heq),
        fun heq => hre lsfHighFreeze (by decide) (hh heq)⟩
    | _ => trivial

end Evolution

/-! ## Account settings -/

namespace SetAccount

variable {tx : STTx} {fields : AccountSetTx} {flags : Flags}

theorem has_plainFlags {mask : Flags} (hau : lsfRequireAuth &&& mask = 0)
    (hta : lsfRequireDestTag &&& mask = 0) (hx : lsfDisallowXRP &&& mask = 0)
    (hms : lsfDisableMaster &&& mask = 0) (hri : lsfDefaultRipple &&& mask = 0) :
    (plainFlags tx fields flags).has mask = flags.has mask := by
  unfold plainFlags
  rw [has_change_of_disjoint _ _ _ hri, has_change_of_disjoint _ _ _ hms,
    has_change_of_disjoint _ _ _ hx, has_change_of_disjoint _ _ _ hta,
    has_change_of_disjoint _ _ _ hau]

theorem has_flagsOut (hno : flags.has lsfNoFreeze) : (flagsOut tx fields flags).has lsfNoFreeze ∧
      (flags.has lsfGlobalFreeze → (flagsOut tx fields flags).has lsfGlobalFreeze) := by
  have hpl : (plainFlags tx fields flags).has lsfNoFreeze :=
    (has_plainFlags (by decide) (by decide) (by decide) (by decide) (by decide)).trans hno
  have hfs := has_change_of_has (fields.setFlag == asfNoFreeze) lsfNoFreeze hpl
  unfold flagsOut freezeFlags
  simp only [hfs, Bool.not_true, Bool.and_false]
  refine ⟨has_change_of_has _ _ hfs, fun hg => ?_⟩
  apply has_change_of_has
  apply has_change_of_has
  exact (has_plainFlags (by decide) (by decide) (by decide) (by decide) (by decide)).trans hg

theorem promise_doApply (a : AccountID) {s s' : TxState} {ter : TER}
    (h : (doApply tx fields).run s = (.ok ter, s')) : View.Evolves (promise a) s.view s'.view := by
  refine evolves_doApply (fun root _ hno => ?_) h
  exact has_flagsOut hno

end SetAccount

/-! ## Lines -/

theorem lowFreeze_mem_trustCreateMarks (high auth fz : Bool) :
    lsfLowFreeze ∈ trustCreateMarks high auth fz ↔ fz ∧ high = false := by
  revert high auth fz
  decide

theorem highFreeze_mem_trustCreateMarks (high auth fz : Bool) :
    lsfHighFreeze ∈ trustCreateMarks high auth fz ↔ fz ∧ high := by
  revert high auth fz
  decide

namespace SetTrust

variable {tx : STTx} {fields : TrustSetTx} {a account dst : AccountID}

/-- Marks that `account` may set do not freeze it for another `a`. -/
theorem settable_spares (cur : Currency) {auth fz : Bool} (hne : account ≠ dst)
    (hf : account = a → fz = false) (low high : AccountID) (cur' : Currency) :
    let marks := settable (lowAccount account dst) (highAccount account dst) cur
      (trustCreateMarks (decide (dst < account)) auth fz) low high cur'
    (low = a → lsfLowFreeze ∉ marks) ∧ (high = a → lsfHighFreeze ∉ marks) := by
  dsimp only
  unfold settable
  split
  · next hke =>
      obtain ⟨rfl, rfl, _⟩ := hke
      rw [lowFreeze_mem_trustCreateMarks, highFreeze_mem_trustCreateMarks]
      by_cases hlt : account < dst
      · have hnl : ¬ dst < account := BitVec.lt_asymm hlt
        simp only [lowAccount, highAccount, hlt, hnl, ↓reduceIte, decide_false]
        exact ⟨fun heq hm => (by rw [hf heq] at hm; cases hm.1), fun _ => nofun⟩
      · have hgt : dst < account := BitVec.lt_of_le_ne (BitVec.not_lt.mp hlt) hne.symm
        simp only [lowAccount, highAccount, hlt, hgt, ↓reduceIte, decide_true]
        exact ⟨fun _ => nofun, fun heq hm => (by rw [hf heq] at hm; cases hm.1)⟩
  · exact ⟨fun _ => not_mem_nil, fun _ => not_mem_nil⟩

theorem creationMarks_newLine (tx : STTx) (fs : TrustSetTx)
    (hne : account ≠ fs.limitAmount.getIssuer) :
    creationMarks (newLine tx fs account) = settable (lowAccount account fs.limitAmount.getIssuer)
        (highAccount account fs.limitAmount.getIssuer) fs.limitAmount.getCurrency
        (trustCreateMarks (decide (fs.limitAmount.getIssuer < account)) (setAuth tx)
          (setFreeze tx)) := by
  have hd : (account == fs.limitAmount.getIssuer) = false := by simpa using hne
  have hl : (newLine tx fs account).low = lowAccount account fs.limitAmount.getIssuer := by
    by_cases hlt : account < fs.limitAmount.getIssuer
    · simp [low, newLine, lowAccount, hlt, BitVec.lt_asymm hlt]
    · have hgt := BitVec.lt_of_le_ne (BitVec.not_lt.mp hlt) hne.symm
      simp [low, newLine, lowAccount, hlt, hgt]
  have hh : (newLine tx fs account).high = highAccount account fs.limitAmount.getIssuer := by
    by_cases hlt : account < fs.limitAmount.getIssuer
    · simp [high, newLine, highAccount, hlt, BitVec.lt_asymm hlt]
    · have hgt := BitVec.lt_of_le_ne (BitVec.not_lt.mp hlt) hne.symm
      simp [high, newLine, highAccount, hlt, hgt]
  have hma : (newLine tx fs account).marks =
      trustCreateMarks (decide (fs.limitAmount.getIssuer < account)) (setAuth tx)
        (setFreeze tx) := by
    have hsetDst : (newLine tx fs account).setDst = false := hd
    rw [marks, setHigh, hsetDst, Bool.xor_false]
    rfl
  unfold creationMarks
  rw [hl, hh, hma]
  rfl

/-- It keeps the promise of `a`, unless `a` creates a frozen line. -/
theorem promise_setLine {s : TxState} {v v' : View} {ter : TER}
    (hpr : s.account = a → flagged (v.get (.account a)) lsfNoFreeze)
    (hc : s.account = a → setFreeze tx →
      v.get (Key.rippleState a fields.limitAmount.getIssuer fields.limitAmount.getCurrency) ≠ none)
    (h : (setLine tx fields s).run v = (.ok ter, v')) : View.Evolves (promise a) v v' := by
  obtain ⟨sle, w, hsl, hlo, hca⟩ := setLine_cases h
  refine (View.Evolves.weaken hlo).trans ?_
  rcases hca with rfl | ⟨state, low, high, currency, run⟩ |
    ⟨hne, reserveCreate, sleDst, state, run⟩ | ⟨hne, hn, run⟩
  · exact View.Evolves.refl _ _
  · refine promise_of_transferWith ?_ (MonoM.rel_of_run run)
    exact fun _ _ _ => ⟨fun _ => not_mem_nil, fun _ => not_mem_nil⟩
  · refine promise_of_transferWith ?_ (MonoM.rel_of_run run)
    refine settable_spares _ hne fun hac => ?_
    have hfa := hpr hac
    rw [← hac, hsl] at hfa
    have hno : sle.isFlag lsfNoFreeze := hfa
    rw [hno, Bool.not_true, Bool.and_false]
  · refine promise_of_transferWith ?_ (MonoM.rel_of_run run)
    rw [creationMarks_newLine tx fields hne]
    refine settable_spares _ hne fun hac => ?_
    by_contra hf
    rw [hac] at hn
    exact hc hac (by simpa using hf) hn

end SetTrust

/-! ## Applied transactions -/

def Event.CreatesFrozen (e : Event) : Prop :=
  e.tx.account = a ∧ setFreeze e.tx ∧ ∃ fields, e.tx.body = .trustSet fields ∧
    e.before.ledger.lookup (Key.rippleState a fields.limitAmount.getIssuer
      fields.limitAmount.getCurrency) = none

structure Ledger.KeepsPromise (a : AccountID) (ledger ledger' : Ledger) : Prop where
  noFreeze : flagged (ledger'.lookup (.account a)) lsfNoFreeze
  globalFreeze : flagged (ledger.lookup (.account a)) lsfGlobalFreeze →
    flagged (ledger'.lookup (.account a)) lsfGlobalFreeze
  low : ∀ high currency, marked (ledger'.lookup (.line a high currency)) lsfLowFreeze →
    marked (ledger.lookup (.line a high currency)) lsfLowFreeze
  high : ∀ low currency, marked (ledger'.lookup (.line low a currency)) lsfHighFreeze →
    marked (ledger.lookup (.line low a currency)) lsfHighFreeze

theorem Ledger.keepsPromise_of_rel {a : AccountID} {led led' : Ledger}
    (hno : flagged (led.lookup (.account a)) lsfNoFreeze)
    (h : ∀ k, (promise a).rel k (led.lookup k) (led'.lookup k)) :
    led.KeepsPromise a led' where
  noFreeze := (h (.account a) rfl hno).1
  globalFreeze := (h (.account a) rfl hno).2
  low high currency := (h (.line a high currency)).1 rfl
  high low currency := (h (.line low a currency)).2 rfl

namespace Event.Takes

variable {a : AccountID} {e : Event} {ledger ledger' : Ledger}

theorem promise_dividend (h : e.Takes ledger ledger') {fs : DividendTx}
    (hb : e.tx.body = .dividend fs) (k : Key) :
    (promise a).rel k (ledger.lookup k) (ledger'.lookup k) := by
  obtain ⟨_, k', sle, hef, hse, hne⟩ := h.dividend hb
  obtain rfl | hk := eq_or_ne k k'
  · rcases Dividend.effect_cases hef with ⟨_, hwr⟩ |
      ⟨_, root, root', hr, _, hcr, hwr⟩ | ⟨_, _, _, hwr⟩
    · cases hwr
      trivial
    · cases hwr
      have hfl : root'.flags = root.flags := by
        rw [Dividend.credited_frame hcr]
      intro _ hno
      rw [hr] at hno
      rw [hr, hse]
      simp only [flagged, Option.any_some, AccountRoot.isFlag, hfl] at hno ⊢
      exact ⟨hno, id⟩
    · cases hwr
      trivial
  · rw [hne k hk]
    exact (promise a).refl k _

theorem promise (h : e.Takes ledger ledger')
    (hno : flagged (ledger.lookup (.account a)) lsfNoFreeze) (hc : ¬ e.CreatesFrozen a)
    (k : Key) : (promise a).rel k (ledger.lookup k) (ledger'.lookup k) := by
  obtain ⟨p, hp, _, hap⟩ := h.applied_cases
  have ho : Sub p.evolution ordinary →
      (Evolution.promise a).rel k (ledger.lookup k) (ledger'.lookup k) := by
    intro hsu
    have hre := hsu.sub k _ _ (hap.rel k)
    rw [h.before, h.after] at hre
    exact (inferInstance : Sub ordinary (Evolution.promise a)).sub k _ _ hre
  cases hb : e.tx.body with
  | dividend fields => exact h.promise_dividend hb k
  | other =>
    rw [processorOf, hb] at hp
    cases hp
  | accountSet fields =>
    rw [processorOf, hb] at hp
    cases hp
    have hs : Standard e.env e.tx (processor e.env e.tx fields) :=
      standard_standard (preChecked e.env e.tx fields)
    have hre := hs.rel_of_body hap (fun _ _ _ _ _ run => promise_doApply a run) k
    rwa [h.before, h.after] at hre
  | trustSet fields =>
    rw [processorOf, hb] at hp
    cases hp
    have hs : Standard e.env e.tx (processor e.env e.tx fields) :=
      standard_standard (preChecked e.env e.tx fields)
    rw [← h.before, ← h.after]
    refine hs.rel_of_body hap (fun s s' ter hac hch run => ?_) k
    have hge : ∀ k, (e.before.fresh e.flags).get k = ledger.lookup k := by
      intro k
      rw [OpenView.get_fresh, h.before]
    have hli : (setLine e.tx fields s).run s.view = (.ok ter, s'.view) :=
      congrArg (fun result => (result.1, result.2.view)) run
    refine promise_setLine ?_ ?_ hli
    · intro _
      have hkp := (inferInstance : Sub charge ordinary).sub _ _ _ (hch.entries (.account a))
      rw [hge] at hkp
      exact hkp.2.1.trans hno
    · intro ha hf hn
      have hkp := hch.entries (Key.rippleState a fields.limitAmount.getIssuer
        fields.limitAmount.getCurrency)
      refine hc ⟨hac.symm.trans ha, hf, fields, hb, ?_⟩
      rw [h.before, ← hge]
      exact Eq.trans (Eq.symm hkp) hn
  | _ =>
    rw [processorOf, hb] at hp
    cases hp
    exact ho inferInstance

end Event.Takes

/-- An account that has promised not to freeze and creates no line frozen keeps the promise in
every history: no global freeze is lifted and no line becomes frozen by it. -/
theorem keepsPromise_of_history {a : AccountID} {ledger ledger₁ ledger₂ : Ledger}
    {es₁ es₂ : List Event} (hno : flagged (ledger.lookup (.account a)) lsfNoFreeze = true)
    (h₁ : History ledger es₁ ledger₁) (h₂ : History ledger₁ es₂ ledger₂)
    (hc : ∀ e ∈ es₁ ++ es₂, ¬ e.CreatesFrozen a) :
    flagged (ledger₁.lookup (.account a)) lsfNoFreeze = true ∧ ledger₁.KeepsPromise a ledger₂ := by
  have run : ∀ {l l' es}, flagged (l.lookup (.account a)) lsfNoFreeze → History l es l' →
      (∀ e ∈ es, ¬ e.CreatesFrozen a) → l.KeepsPromise a l' := by
    intro l l' es hno h hes
    refine Ledger.keepsPromise_of_rel hno ?_
    refine Run.invariant (fun l' => ∀ k, (promise a).rel k (l.lookup k) (l'.lookup k)) h hes ?_
      fun k => (promise a).refl k _
    intro e l1 l2 he hst hi k
    have hno1 := (hi (.account a) rfl hno).1
    exact (promise a).trans k _ _ _ (hi k) (hst.promise hno1 he k)
  have hfs := run hno h₁ fun e he => hc e (mem_append_left _ he)
  exact ⟨hfs.noFreeze, run hfs.noFreeze h₂ fun e he => hc e (mem_append_right _ he)⟩

/-- Account 1 has promised, and is globally frozen. -/
def promisedLedger : Ledger :=
  AList.insert (.account 2) { sequence := 1, balance := .ofDrops 1000 } (AList.insert (.account 1)
      { sequence := 1, balance := .ofDrops 1000, flags := lsfNoFreeze ||| lsfGlobalFreeze } ∅)

def promiserTx (flags : Flags) (body : TxBody) : STTx := { sampleTx body with flags := flags }

def liftTx : STTx :=
  promiserTx 0 (.accountSet { clearFlag := asfGlobalFreeze })

def frozenLineTx : STTx :=
  promiserTx tfSetFreeze (.trustSet { limitAmount := ⟨⟨5, 2⟩, 1000000000000000, -13, false⟩ })

theorem promise_kept : ∃ e ledger', History promisedLedger [e] ledger' ∧
    flagged (promisedLedger.lookup (.account 1)) lsfGlobalFreeze = true ∧
    promisedLedger.KeepsPromise 1 ledger' := by
  obtain ⟨e, ledger', ht, htx, _⟩ := takes_of_invoke liftTx promisedLedger (fun _ => true)
    (by decide +kernel)
  have run : History promisedLedger [e] ledger' := .cons ht (.nil _)
  have hsa : History promisedLedger [] promisedLedger := .nil _
  refine ⟨e, ledger', run, by decide, (keepsPromise_of_history (by decide) hsa run ?_).2⟩
  intro e' he'
  obtain rfl : e' = e := by simpa using he'
  rintro ⟨_, hf, _⟩
  rw [htx] at hf
  revert hf
  decide

/-- The promise is broken by creating a line frozen. -/
theorem promise_broken : ∃ e ledger', History promisedLedger [e] ledger' ∧
    flagged (promisedLedger.lookup (.account 1)) lsfNoFreeze = true ∧
    marked (promisedLedger.lookup (.line 1 2 5)) lsfLowFreeze = false ∧
    marked (ledger'.lookup (.line 1 2 5)) lsfLowFreeze = true := by
  obtain ⟨e, ledger', ht, _, hmk⟩ := takes_of_invoke frozenLineTx promisedLedger
    (fun ledger' => marked (ledger'.lookup (.line 1 2 5)) lsfLowFreeze) (by decide +kernel)
  exact ⟨e, ledger', .cons ht (.nil _), by decide, by decide, hmk⟩

end Sand
