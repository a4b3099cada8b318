import Sand.Tx.Charge

/-!
# The checks against the source account

The sequence number is used up, the fee is paid, and the signing key may act for the account.
-/

namespace Sand

open PreCheckM MonoM View LedgerM SetRegularKey Evolution Bool Except

namespace Transactor

variable {env : Env} {tx : STTx} {E : Evolution} {P : Processor E} {s s' : TxState}

/-- Of a type checked and charged as every signed one. -/
structure Standard (env : Env) (tx : STTx) (P : Processor E) : Prop where
  mustHaveValidAccount : P.mustHaveValidAccount
  preCheck : PreChecked env tx P.preCheck
  /-- Known once the source's root is looked up. -/
  baseFee : ∀ s : TxState, (s.view.peek (.account s.account)).2 = s.view →
    ∃ fee, P.calculateBaseFee.run s = (.ok fee, s)
  checkSeq : P.checkSeq = Transactor.checkSeq tx
  payFee : P.payFee = Transactor.payFee tx
  checkSign : P.checkSign = Transactor.checkSign env tx

/-- The root is in the table unmarked; else the view is `v`. -/
def Holding (s : TxState) (v : View) (root : AccountRoot) : Prop :=
  s.view = v.setItem (.account s.account) (some (.cache, root))

variable {v : View} {o : OpenView} {flags : Flags} {prior root : AccountRoot} {ter : TER}

theorem Holding.peek (h : Holding s v root) :
    s.view.peek (.account s.account) = (some root, s.view) := by
  rw [h]
  exact peek_setItem v _ _

theorem Holding.alter (h : Holding s v root) (f : AccountRoot → AccountRoot) :
    s.view.alter (.account s.account) f =
      v.setItem (.account s.account) (some (.cache, f root)) := by
  rw [h]
  exact alter_setItem_cache v _ _ _

theorem Holding.run_peek (h : Holding s v root) :
    (CheckM.peek (.account s.account)).run s = (.ok (some root), s) := by
  rw [CheckM.run_peek, h.peek]

theorem run_checkSeq (tx : STTx) (h : Holding s v root) : (checkSeq tx).run s =
      match seqRefusal tx s.view.context root with
      | some ter => (.ok ter, s)
      | none => (.ok .tesSUCCESS,
          { s with
            view := v.setItem (.account s.account) (some (.cache, useSequence tx root)) }) := by
  unfold checkSeq
  simp only [run_bind, run_liftM_check, run_members, bindRun_ok, h.run_peek]
  cases seqRefusal tx s.view.context root with
  | some ter => rfl
  | none =>
    simp [run_bind, CheckM.run_alterRoot, bindRun_ok, run_pure, h.alter]

theorem refuses_seqRefusal (ctx : Context) (root : AccountRoot) :
    ∀ ter ∈ seqRefusal tx ctx root, Refuses ter := by
  refine refuses_ite ⟨rfl, nofun⟩ ?_
  intro ter h
  split_ifs at h <;> cases h <;> exact ⟨rfl, nofun⟩

theorem sequence_of_seqRefusal {ctx : Context} (h : seqRefusal tx ctx root = none) :
    root.sequence = tx.sequence := by
  unfold seqRefusal at h
  split_ifs at h with hpr hps
  exact UInt32.le_antisymm (UInt32.not_lt.mp hps) (UInt32.not_lt.mp hpr)

/-- Why it is refused, or the transactor with the fee paid. -/
theorem run_payFee (h : Holding s v root) (hf : FeeLegal tx) : (payFee tx).run s =
      match if s.view.context.info.isOpen then tx.fee.lt s.feeDue else .ok false with
      | .error fault => (.error fault, s)
      | .ok true => (.ok .telINSUF_FEE_P, s)
      | .ok false =>
        if tx.fee.isZero then (.ok .tesSUCCESS, s)
        else
          match s.sourceBalance.lt tx.fee with
          | .error fault => (.error fault, s)
          | .ok true =>
            (.ok (if s.sourceBalance.isPositive && !s.view.context.info.isOpen then
              .tecINSUFF_FEE else .terINSUF_FEE_B), s)
          | .ok false =>
            match s.sourceBalance.sub tx.fee with
            | .error fault => (.error fault, s)
            | .ok balance => (.ok .tesSUCCESS,
                { s with
                  sourceBalance := balance
                  view := v.setItem (.account s.account)
                    (some (.cache, { root with balance := balance })) }) := by
  obtain ⟨hna, hsi, hle⟩ := hf
  have hn : tx.fee.isNegative = false := by
    unfold STAmount.isNegative STAmount.signum
    rw [hsi]
    split <;> rfl
  unfold payFee
  simp only [run_bind, run_liftM_check, run_members, bindRun_ok, hle, hn,
    hna, Bool.not_true, Bool.or_self, false_eq_true, ↓reduceIte, run_liftM_except]
  rcases (if s.view.context.info.isOpen then tx.fee.lt s.feeDue else .ok false) with
    fault | short
  · rfl
  cases short with
  | true => rfl
  | false =>
    simp only [bindRun_ok, false_eq_true, ↓reduceIte, run_ite, run_pure,
      run_bind, h.run_peek, run_liftM_except]
    rcases s.sourceBalance.lt tx.fee with fault | short
    · rfl
    cases short with
    | true => rfl
    | false =>
      rcases s.sourceBalance.sub tx.fee with fault | balance
      · rfl
      · simp [bindRun_ok, run_liftM_except, run_liftM_check, run_setMembers,
          Option.isNone_some, false_eq_true, ↓reduceIte, run_pure, run_bind,
          CheckM.run_alterRoot, h.alter]

def singleSignResult (env : Env) (account : AccountID) (signingPubKey : Blob) (hasAuthKey : Bool) :
    Option AccountRoot → Except Fault TER
  | some root => .ok <|
      if env.calcAccountID signingPubKey = account then
        if root.isFlag lsfDisableMaster then .tefMASTER_DISABLED else .tesSUCCESS
      else if hasAuthKey then
        if env.calcAccountID signingPubKey = root.regularKey.getD 0 then .tesSUCCESS
        else .tefBAD_AUTH
      else .tefBAD_AUTH_MASTER
  | none =>
    if env.calcAccountID signingPubKey = account then .error .crash
    else if hasAuthKey then .error .crash
    else .ok .tefBAD_AUTH_MASTER

theorem run_checkSingleSign (env : Env) (s : TxState) : ((checkSingleSign env).run s).1 =
      singleSignResult env s.account s.signingPubKey s.hasAuthKey
        (s.view.get (.account s.account)) := by
  unfold checkSingleSign
  simp only [run_bind, run_liftM_check, run_members, bindRun_ok, CheckM.run_peek,
    peek_fst, run_ite, run_setMembers]
  unfold singleSignResult
  by_cases hma : env.calcAccountID s.signingPubKey = s.account
  · simp only [if_pos hma]
    cases s.view.get (.account s.account) <;> rfl
  simp only [if_neg hma]
  by_cases hau : s.hasAuthKey
  · simp only [if_pos hau]
    cases s.view.get (.account s.account) <;> rfl
  · simp only [if_neg hau]
    cases s.view.get (.account s.account) <;> rfl

theorem refuses_singleSignResult {acc : AccountID} {key : Blob} {hasAuthKey : Bool}
    {root : Option AccountRoot}
    (h : singleSignResult env acc key hasAuthKey root = .ok ter) (hne : ter ≠ .tesSUCCESS) :
    Refuses ter := by
  unfold singleSignResult at h
  split at h
  · split_ifs at h <;> cases h <;> exact ⟨rfl, hne⟩
  · split_ifs at h
    cases h
    exact ⟨rfl, hne⟩

theorem checkSign_of_not_testing (env : Env) (tx : STTx)
    (h : s.view.context.flags.has tapENABLE_TESTING = false) :
    (checkSign env tx).run s = (checkSingleSign env).run s := by
  unfold checkSign
  simp [h]

/-- It changes nothing but whose key it is. -/
theorem checkSign_frame (h : Holding s v root)
    (run : (checkSign env tx).run s = (.ok ter, s')) :
    s' = { s with sigMaster := s'.sigMaster } := by
  unfold checkSign at run
  simp only [run_bind, run_liftM_check, run_members, bindRun_ok, run_ite] at run
  by_cases hml : (s.view.context.flags.has tapENABLE_TESTING && s.signingPubKey.isEmpty)
  · rw [if_pos hml] at run
    cases run
    rfl
  · unfold checkSingleSign at run
    simp only [run_bind, run_liftM_check, run_members, bindRun_ok, h.run_peek,
      run_ite, run_setMembers, run_pure] at run
    split_ifs at run <;> cases run <;> rfl

/-! ## From the source account's root to the checks' end -/

/-- Between the look-up of `prior` and the body; nothing else in the table. -/
structure Sourced (tx : STTx) (o : OpenView) (flags : Flags) (prior root : AccountRoot)
    (s : TxState) : Prop where
  account : s.account = tx.account
  signingPubKey : s.signingPubKey = tx.signingPubKey
  hasAuthKey : s.hasAuthKey = prior.regularKey.isSome
  priorBalance : s.priorBalance = prior.balance
  sourceBalance : s.sourceBalance = root.balance
  view : s.view = (o.fresh flags).setItem (.account tx.account) (some (.cache, root))

namespace Sourced

section

variable (h : Sourced tx o flags prior root s)
include h

theorem holding : Holding s (o.fresh flags) root := by
  rw [Holding, h.account]
  exact h.view

theorem context : s.view.context = ⟨o.info, o.fees, flags, o.txs⟩ := by
  rw [h.view, context_setItem]
  rfl

theorem change (root' : AccountRoot) : Sourced tx o flags prior root' { s with
      sourceBalance := root'.balance
      view := (o.fresh flags).setItem (.account s.account) (some (.cache, root')) } where
  account := h.account
  signingPubKey := h.signingPubKey
  hasAuthKey := h.hasAuthKey
  priorBalance := h.priorBalance
  sourceBalance := rfl
  view := by
    rw [h.account]

end

end Sourced

def paidRoot (tx : STTx) (balance : STAmount) (prior : AccountRoot) : AccountRoot :=
  { useSequence tx prior with balance := balance }

theorem uncharged_paidRoot (tx : STTx) (bal : STAmount) (prior : AccountRoot) :
    uncharged (paidRoot tx bal prior) = uncharged prior :=
  rfl

def Paid (tx : STTx) (balance balance' : STAmount) : Prop :=
  (tx.fee.isZero ∧ balance' = balance) ∨
    (tx.fee.isZero = false ∧ balance.lt tx.fee = .ok false ∧ balance.sub tx.fee = .ok balance')

section

variable (h : Sourced tx o flags prior root s)
include h

theorem checkSeq_cases (run : (checkSeq tx).run s = (.ok ter, s')) : Refuses ter ∨
      (ter = .tesSUCCESS ∧ seqRefusal tx ⟨o.info, o.fees, flags, o.txs⟩ root = none ∧
        Sourced tx o flags prior (useSequence tx root) s') := by
  rw [run_checkSeq tx h.holding, h.context] at run
  cases hrf : seqRefusal tx ⟨o.info, o.fees, flags, o.txs⟩ root with
  | some refusal =>
    simp only [hrf] at run
    cases run
    exact .inl (refuses_seqRefusal _ root ter hrf)
  | none =>
    simp only [hrf] at run
    cases run
    refine .inr ⟨rfl, rfl, ?_⟩
    have hch := h.change (useSequence tx root)
    rwa [show (useSequence tx root).balance = s.sourceBalance from h.sourceBalance.symm] at hch

theorem payFee_cases (hf : FeeLegal tx) (run : (payFee tx).run s = (.ok ter, s')) : Refuses ter ∨
      (ter = .tecINSUFF_FEE ∧ o.info.isOpen = false ∧ root.balance.isPositive ∧
        root.balance.lt tx.fee = .ok true) ∨
      (ter = .tesSUCCESS ∧ ∃ balance, Paid tx root.balance balance ∧
        Sourced tx o flags prior { root with balance := balance } s') := by
  rw [run_payFee h.holding hf, h.context, h.sourceBalance] at run
  generalize (if o.info.isOpen then tx.fee.lt s.feeDue else .ok false) = short at run
  rcases short with fault | short
  · cases run
  cases short with
  | true =>
    cases run
    exact .inl ⟨rfl, nofun⟩
  | false =>
    by_cases h0 : tx.fee.isZero
    · rw [if_pos h0] at run
      cases run
      exact .inr (.inr ⟨rfl, root.balance, .inl ⟨h0, rfl⟩, h⟩)
    rw [if_neg h0] at run
    rcases hlt : root.balance.lt tx.fee with fault | short
    · rw [hlt] at run
      cases run
    cases short with
    | true =>
      rw [hlt] at run
      by_cases hcl : (root.balance.isPositive && !o.info.isOpen)
      · rw [if_pos hcl] at run
        cases run
        simp only [and_eq_true, not_eq_true'] at hcl
        exact .inr (.inl ⟨rfl, hcl.2, hcl.1, rfl⟩)
      · rw [if_neg hcl] at run
        cases run
        exact .inl ⟨rfl, nofun⟩
    | false =>
      rw [hlt] at run
      rcases hsu : root.balance.sub tx.fee with fault | balance
      · rw [hsu] at run
        cases run
      rw [hsu] at run
      cases run
      refine .inr (.inr ⟨rfl, balance, .inr ⟨by simpa using h0, hlt, hsu⟩, ?_⟩)
      exact h.change { root with balance := balance }

/-- A fee above a positive balance is refused in a closed ledger. -/
theorem run_payFee_of_short (hf : FeeLegal tx) (hco : o.info.isOpen = false)
    (hpo : root.balance.isPositive) (h0 : tx.fee.isZero = false)
    (hsh : root.balance.lt tx.fee = .ok true) : (payFee tx).run s = (.ok .tecINSUFF_FEE, s) := by
  rw [run_payFee h.holding hf, h.context, h.sourceBalance]
  simp [hco, hpo, h0, hsh]

end

/-! ## How the checks end -/

/-- Checks get to the source, with root `prior`. -/
structure Presented (tx : STTx) (P : Processor E) (o : OpenView) (flags : Flags)
    (prior : AccountRoot) : Prop where
  fee : FeeLegal tx
  preCheck : ∃ s1, P.preCheck.run (initial tx o flags) = (.ok .tesSUCCESS, s1)
  units : o.fees.units ≠ 0
  root : o.ledger.lookup (.account tx.account) = some prior

/-- How the checks against the source account can end. -/
inductive Checked (env : Env) (tx : STTx) (o : OpenView) (flags : Flags) (prior : AccountRoot) :
    TER → TxState → Prop
  | refused {ter : TER} {s' : TxState} (hre : Refuses ter) : Checked env tx o flags prior ter s'
  | shortOfFee {s' : TxState}
      (hse : seqRefusal tx ⟨o.info, o.fees, flags, o.txs⟩ prior = none)
      (hco : o.info.isOpen = false) (hpo : prior.balance.isPositive)
      (hsh : prior.balance.lt tx.fee = .ok true) :
      Checked env tx o flags prior .tecINSUFF_FEE s'
  | judged {ter : TER} {balance : STAmount} {s s' : TxState}
      (hse : seqRefusal tx ⟨o.info, o.fees, flags, o.txs⟩ prior = none)
      (hpa : Paid tx prior.balance balance)
      (hsr : Sourced tx o flags prior (paidRoot tx balance prior) s)
      (hsi : (checkSign env tx).run s = (.ok ter, s')) : Checked env tx o flags prior ter s'

theorem Standard.checked_of_checks (hs : Standard env tx P) (hf : FeeLegal tx)
    (h : Sourced tx o flags prior prior s) (run : (checks P).run s = (.ok ter, s')) :
    Checked env tx o flags prior ter s' := by
  unfold checks at run
  rw [hs.checkSeq, hs.payFee, hs.checkSign] at run
  obtain ⟨seqTer, s1, hcheckSeq, run⟩ := bind_eq_ok.mp run
  rcases checkSeq_cases h hcheckSeq with hre | ⟨rfl, hse, h1⟩
  · rw [if_pos hre.2] at run
    cases run
    exact .refused hre
  obtain ⟨payTer, s2, hpayFee, run⟩ := bind_eq_ok.mp run
  rcases payFee_cases h1 hf hpayFee with
    hre | ⟨rfl, hco, hpo, hsh⟩ | ⟨rfl, balance, hpa, h2⟩
  · rw [if_pos hre.2] at run
    cases run
    exact .refused hre
  · cases run
    exact .shortOfFee hse hco hpo hsh
  · exact .judged hse hpa h2 run

/-- A claim, when the fee is above a positive balance. -/
theorem Standard.run_checks_of_short (hs : Standard env tx P) (hf : FeeLegal tx)
    (h : Sourced tx o flags prior prior s)
    (hse : seqRefusal tx ⟨o.info, o.fees, flags, o.txs⟩ prior = none)
    (hco : o.info.isOpen = false) (hpo : prior.balance.isPositive)
    (h0 : tx.fee.isZero = false) (hsh : prior.balance.lt tx.fee = .ok true) :
    ∃ s', (checks P).run s = (.ok .tecINSUFF_FEE, s') := by
  have hcheckSeq := run_checkSeq tx h.holding
  rw [h.context, hse] at hcheckSeq
  rcases checkSeq_cases h hcheckSeq with hre | ⟨_, _, h1⟩
  · exact absurd rfl hre.2
  have hpayFee := run_payFee_of_short h1 hf hco hpo h0 hsh
  unfold checks
  rw [hs.checkSeq, hs.payFee]
  simp [hcheckSeq, hpayFee]

theorem peek_fresh {id : AccountID} (hr : o.ledger.lookup (.account id) = some prior) :
    (o.fresh flags).peek (.account id) =
      (some prior, (o.fresh flags).setItem (.account id) (some (.cache, prior))) :=
  peek_of_base (AList.lookup_empty _) hr

section

variable (hs : Standard env tx P)
include hs

/-- After `preCheck` and the source's look-up. -/
theorem Standard.looked_up {s1 : TxState}
    (hpr : P.preCheck.run (initial tx o flags) = (.ok .tesSUCCESS, s1))
    (hr : o.ledger.lookup (.account tx.account) = some prior) :
    s1.view.get (.account s1.account) = some prior ∧
      ({ s1 with view := (s1.view.peek (.account s1.account)).2 } : TxState) =
        { s1 with
          view := (o.fresh flags).setItem (.account tx.account) (some (.cache, prior)) } ∧
      ∃ fee, P.calculateBaseFee.run
          { s1 with view := (o.fresh flags).setItem (.account tx.account) (some (.cache, prior)) } =
        (.ok fee, { s1 with
          view := (o.fresh flags).setItem (.account tx.account) (some (.cache, prior)) }) := by
  have hv : s1.view = o.fresh flags := by
    have hm := P.preCheck.mono (initial tx o flags)
    rw [hpr] at hm
    exact hm
  have ha : s1.account = tx.account := hs.preCheck.account hpr
  have hp : s1.view.peek (.account s1.account) =
      (some prior, (o.fresh flags).setItem (.account tx.account) (some (.cache, prior))) := by
    rw [ha, hv, peek_fresh hr]
  refine ⟨by rw [← peek_fst, hp], by rw [hp], hs.baseFee _ ?_⟩
  rw [ha, peek_setItem]

theorem Standard.sourced_of_cleared {s1 s2 : TxState}
    (hc : Cleared env tx P (initial tx o flags) s1 s2)
    (hr : o.ledger.lookup (.account tx.account) = some prior) :
    o.fees.units ≠ 0 ∧ Sourced tx o flags prior prior (sourced s2 prior) := by
  have ha : s1.account = tx.account := hs.preCheck.account hc.preCheck
  have hk : s1.signingPubKey = tx.signingPubKey := hs.preCheck.signingPubKey hc.preCheck
  have hd := hc.due
  obtain ⟨_, hl, fee', hbs'⟩ := hs.looked_up hc.preCheck hr
  rw [hl] at hd
  obtain ⟨fee, s3, due, hbs, hu, rfl⟩ := run_calculateFee_eq_ok hd
  rw [hbs'] at hbs
  cases hbs
  exact ⟨hu, ha, hk, rfl, rfl, rfl, rfl⟩

variable {found : Bool}

/-- Without refusal or fault they have got to the source. -/
theorem Standard.checked_of_prepared
    (h : Prepared env tx P (initial tx o flags) (ter, found) s') (ht : ¬ Refuses ter) :
    found ∧ ∃ prior, Presented tx P o flags prior ∧ Checked env tx o flags prior ter s' := by
  cases h with
  | badFee _ => exact absurd ⟨rfl, nofun⟩ ht
  | refused _ run hne => exact absurd ⟨hs.preCheck.not_claim run, hne⟩ ht
  | noAccount _ _ _ => exact absurd ⟨rfl, nofun⟩ ht
  | unsourced _ _ hmu _ =>
    rw [hs.mustHaveValidAccount] at hmu
    cases hmu
  | @checked s1 s2 _ _ prior hc hg hce =>
    have hr : o.ledger.lookup (.account tx.account) = some prior := by
      have hv : s1.view = o.fresh flags := by
        have hm := P.preCheck.mono (initial tx o flags)
        rw [hc.preCheck] at hm
        exact hm
      rwa [hs.preCheck.account hc.preCheck, hv, OpenView.get_fresh] at hg
    obtain ⟨hu, hsr⟩ := hs.sourced_of_cleared hc hr
    exact ⟨rfl, prior, ⟨hc.fee, ⟨s1, hc.preCheck⟩, hu, hr⟩, hs.checked_of_checks hc.fee hsr hce⟩

theorem Standard.start_of_prepared
    (h : Prepared env tx P (initial tx o flags) (.tesSUCCESS, found) s') :
    found ∧ ∃ prior balance, Presented tx P o flags prior ∧
      Paid tx prior.balance balance ∧ Sourced tx o flags prior (paidRoot tx balance prior) s' := by
  have hpas : ¬ Refuses .tesSUCCESS := fun hre => hre.2 rfl
  obtain ⟨rfl, prior, hpe, hck⟩ := hs.checked_of_prepared h hpas
  cases hck with
  | refused hre => exact absurd hre hpas
  | @judged _ balance s0 _ _ hpa hsr hsi =>
    refine ⟨rfl, prior, balance, hpe, hpa, ?_⟩
    rw [checkSign_frame hsr.holding hsi]
    exact ⟨hsr.account, hsr.signingPubKey, hsr.hasAuthKey,
      hsr.priorBalance, hsr.sourceBalance, hsr.view⟩

/-- The body starts with the charged root. -/
theorem Standard.start_of_apply [Evolution.Sub charge E]
    (run : (apply env tx P).run (initial tx o flags) = (.ok ter, s')) :
    (ter ≠ .tesSUCCESS ∧ ∃ found, Prepared env tx P (initial tx o flags) (ter, found) s') ∨
      ∃ prior balance s, Presented tx P o flags prior ∧ Paid tx prior.balance balance ∧
        s.account = tx.account ∧ s.sourceBalance = balance ∧
        s.view = (o.fresh flags).setItem (.account tx.account)
          (some (.modify, paidRoot tx balance prior)) ∧
        (∃ s1, Prepared env tx P (initial tx o flags) (.tesSUCCESS, true) s1 ∧
          s = { s1 with view := s.view }) ∧
        P.doApply.run s = (.ok ter, s') := by
  rcases run_apply_iff.mp run with ⟨found, hpp, hne⟩ | ⟨found, s1, hpp, he⟩
  · exact .inl ⟨hne, found, hpp⟩
  obtain ⟨rfl, prior, balance, hpe, hpa, hsr⟩ := hs.start_of_prepared hpp
  have hup : s1.view.update (.account s1.account) =
      .ok ((o.fresh flags).setItem (.account tx.account)
        (some (.modify, paidRoot tx balance prior))) := by
    rw [hsr.account, hsr.view]
    exact update_setItem_cache _ _ _
  unfold enact at he
  simp only [↓reduceIte, run_bind, PreCheckM.run_liftM_tx, PreCheckM.run_members,
    bindRun_ok, TxM.run_liftM_ledger, run_update, hup,
    settle_ok] at he
  refine .inr ⟨prior, balance, _, hpe, hpa, ?_, ?_, ?_, ?_, he⟩
  · exact hsr.account
  · exact hsr.sourceBalance
  · rfl
  · exact ⟨s1, hpp, rfl⟩

/-- What the body and the charge do, the transaction does. -/
theorem Standard.rel_of_body [Evolution.Sub charge E] {E' : Evolution}
    [Evolution.Sub charge E'] {out : Outcome} (h : Applied env tx P o flags out)
    (hb : ∀ ⦃s s' : TxState⦄ ⦃ter : TER⦄, s.account = tx.account →
      View.Evolves charge (o.fresh flags) s.view → P.doApply.run s = (.ok ter, s') →
      View.Evolves E' s.view s'.view) (k : Key) :
    E'.rel k (o.ledger.lookup k) (out.view.ledger.lookup k) := by
  cases h with
  | claimed _ _ run hfi => exact rel_of_finish (evolves_claimFee run) hfi k
  | uncharged _ _ run hfi => exact rel_of_finish (evolves_claimFee run) hfi k
  | success run _ hfi =>
    rcases hs.start_of_apply run with
      ⟨hne, _⟩ | ⟨prior, balance, s, hpe, _, ha, _, hv, _, run⟩
    · exact absurd rfl hne
    have hca : View.Evolves charge (o.fresh flags) s.view := by
      rw [hv]
      refine evolves_setItem _ _ _ (fun _ _ => (writes_setItem _ _ _).mpr nofun) ?_
      rw [get_setItem_some, OpenView.get_fresh, hpe.root]
      exact charge_rel_account _ (uncharged_paidRoot tx balance prior)
    exact rel_of_finish (hca.weaken.trans (hb ha hca run)) hfi k

theorem Standard.prepared_of_presented (h : Presented tx P o flags prior) :
    ∃ s, Sourced tx o flags prior prior s ∧ ∀ ⦃ter s'⦄, (checks P).run s = (.ok ter, s') →
        Prepared env tx P (initial tx o flags) (ter, true) s' := by
  obtain ⟨s1, hpr⟩ := h.preCheck
  obtain ⟨hg, hl, fee, hbs⟩ := hs.looked_up hpr h.root
  obtain ⟨due, hd⟩ := run_calculateFee env hbs h.units
  rw [← hl] at hd
  have hc : Cleared env tx P (initial tx o flags) s1 _ := ⟨h.fee, hpr, hd⟩
  exact ⟨_, (hs.sourced_of_cleared hc h.root).2, fun _ _ run => .checked hc hg run⟩

end

/-! ## Claiming the fee alone -/

theorem run_claimFee (hr : o.ledger.lookup (.account tx.account) = some root) :
    (claimFee tx).run (o.fresh flags) =
      let held := (o.fresh flags).setItem (.account tx.account) (some (.cache, root))
      if root.sequence < tx.sequence then (.ok (.error .terPRE_SEQ), held)
      else if tx.sequence < root.sequence then (.ok (.error .tefPAST_SEQ), held)
      else
        match if root.balance.isZero then .ok true
          else if o.info.isOpen then root.balance.lt tx.fee else .ok false with
        | .error fault => (.error fault, held)
        | .ok true => (.ok (.error .terINSUF_FEE_B), held)
        | .ok false =>
          match root.balance.lt tx.fee with
          | .error fault => (.error fault, held)
          | .ok short =>
            let fee := if short then root.balance else tx.fee
            match root.balance.sub fee with
            | .error fault => (.error fault, held)
            | .ok rest => (.ok (.ok fee), (o.fresh flags).setItem (.account tx.account)
                (some (.modify, charged tx rest root))) := by
  unfold claimFee
  simp only [run_bind, run_peek, bindRun_ok, peek_fresh hr, run_ite, run_pure]
  simp only [LedgerM.run_context, bindRun_ok, run_bind, run_liftM_except, context_setItem]
  rw [show (o.fresh flags).context.info.isOpen = o.info.isOpen from rfl]
  generalize (if root.balance.isZero then ok true
    else if o.info.isOpen then root.balance.lt tx.fee else ok false) = refused
  rcases refused with fault | refused
  · rfl
  cases refused with
  | true => rfl
  | false =>
    simp only [bindRun_ok, false_eq_true, ↓reduceIte, run_bind, run_liftM_except]
    rcases root.balance.lt tx.fee with fault | short
    · rfl
    simp only [bindRun_ok, run_bind, run_liftM_except]
    rcases root.balance.sub (if short then root.balance else tx.fee) with fault | rest
    · rfl
    · simp only [bindRun_ok, run_bind, run_alter, run_update]
      rw [alter_setItem_cache, update_setItem_cache]
      rfl

theorem claimFee_charged {fee : STAmount}
    (run : (claimFee tx).run (o.fresh flags) = (.ok (.ok fee), v)) :
    ∃ root short rest, o.ledger.lookup (.account tx.account) = some root ∧
      root.balance.lt tx.fee = .ok short ∧ fee = (if short then root.balance else tx.fee) ∧
      root.balance.sub fee = .ok rest ∧
      v = (o.fresh flags).setItem (.account tx.account) (some (.modify, charged tx rest root)) := by
  cases hr : o.ledger.lookup (.account tx.account) with
  | none =>
    have hp : (o.fresh flags).peek (.account tx.account) = (none, o.fresh flags) :=
      peek_of_absent (AList.lookup_empty _) hr
    unfold claimFee at run
    simp [hp] at run
  | some root =>
    rw [run_claimFee hr] at run
    generalize (if root.balance.isZero then ok true
      else if o.info.isOpen then root.balance.lt tx.fee else ok false) = refused
      at run
    by_cases hpr : root.sequence < tx.sequence
    · rw [if_pos hpr] at run
      cases run
    rw [if_neg hpr] at run
    by_cases hps : tx.sequence < root.sequence
    · rw [if_pos hps] at run
      cases run
    rw [if_neg hps] at run
    rcases refused with fault | (_ | _)
    · cases run
    · rcases hlt : root.balance.lt tx.fee with fault | short
      · rw [hlt] at run
        cases run
      rw [hlt] at run
      dsimp only at run
      rcases hsu : root.balance.sub (if short then root.balance else tx.fee) with
        fault | rest
      · rw [hsu] at run
        cases run
      · rw [hsu] at run
        cases run
        exact ⟨root, short, rest, rfl, hlt, rfl, hsu, rfl⟩
    · cases run

theorem run_claimFee_of_short (hr : o.ledger.lookup (.account tx.account) = some root)
    (hse : root.sequence = tx.sequence) (hco : o.info.isOpen = false)
    (h0 : root.balance.isZero = false) (hsh : root.balance.lt tx.fee = .ok true)
    {rest : STAmount} (hrs : root.balance.sub root.balance = .ok rest) :
    (claimFee tx).run (o.fresh flags) = (.ok (.ok root.balance),
      (o.fresh flags).setItem (.account tx.account) (some (.modify, charged tx rest root))) := by
  rw [run_claimFee hr]
  simp [hse, h0, hco, hsh, hrs]

/-! ## The types that are checked so -/

theorem standard_standard {pre : PreCheckM TER} {doApply : TxM E TER}
    (hpr : PreChecked env tx pre) : Standard env tx (standard env tx pre doApply) where
  mustHaveValidAccount := rfl
  preCheck := hpr
  baseFee _ _ := ⟨env.transactionFeeBase, rfl⟩
  checkSeq := rfl
  payFee := rfl
  checkSign := rfl

end Transactor

open Transactor

theorem SetRegularKey.standard (env : Env) (tx : STTx) (key : Option AccountID) :
    Standard env tx (processor env tx key) where
  mustHaveValidAccount := rfl
  preCheck := preChecked env tx key
  baseFee s hp := by
    have run : (processor env tx key).calculateBaseFee = calculateBaseFee env := rfl
    rw [run, calculateBaseFee]
    simp only [run_bind, run_liftM_check, run_members, bindRun_ok, CheckM.run_peek, hp, run_ite]
    split
    · exact ⟨0, rfl⟩
    · exact ⟨env.transactionFeeBase, rfl⟩
  checkSeq := rfl
  payFee := rfl
  checkSign := rfl

/-- Amendments and fee changes, which are not signed. -/
def TxBody.isChange : TxBody → Bool
  | .amendment _ => true
  | .fee _ => true
  | _ => false

def TxBody.isDividend : TxBody → Bool
  | .dividend _ => true
  | _ => false

theorem TxBody.isDividend_iff {body : TxBody} :
    body.isDividend ↔ ∃ fields, body = .dividend fields := by
  cases body <;> simp [TxBody.isDividend]

theorem standard_of_processorOf {env : Env} {tx : STTx} {p : AnyProcessor}
    (h : processorOf env tx = some p) (hch : tx.body.isChange = false)
    (hdi : tx.body.isDividend = false) : Standard env tx p.processor := by
  unfold processorOf at h
  cases hb : tx.body
  all_goals rw [hb] at h hch hdi
  all_goals cases h
  case dividend => cases hdi
  case amendment | fee => cases hch
  case accountSet fields => exact standard_standard (SetAccount.preChecked env tx fields)
  case trustSet fields => exact standard_standard (SetTrust.preChecked env tx fields)
  case offerCreate fields => exact standard_standard (CreateOffer.preChecked env tx fields)
  case offerCancel sequence => exact standard_standard (CancelOffer.preChecked env tx sequence)
  case regularKeySet key => exact standard env tx key
  case payment fields => exact standard_standard (Payment.preChecked env tx fields)
  case ticketCreate fields => exact standard_standard (CreateTicket.preChecked env tx fields)
  case ticketCancel id => exact standard_standard (CancelTicket.preChecked env tx id)
  case signerListSet fields => exact standard_standard (SetSignerList.preChecked env tx fields)

end Sand
