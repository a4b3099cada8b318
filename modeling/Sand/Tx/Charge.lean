import Sand.Tx.PreChecked

/-!
# Running the checks

What the checks come to, and what a transaction that passes them leaves in its view.
-/

namespace Sand

open PreCheckM MonoM Evolution

namespace Transactor

variable {env : Env} {tx : STTx} {E : Evolution}

def FeeLegal (tx : STTx) : Prop :=
  tx.fee.native ∧ tx.fee.negative = false ∧ tx.fee.isLegalNet

theorem feeLegal_iff :
    FeeLegal tx ↔ ¬ (!tx.fee.native || tx.fee.negative || !tx.fee.isLegalNet) := by
  simp [FeeLegal, and_assoc]

theorem scaleFeeLoad_eq_ok (env : Env) (fee baseFee : UInt64) {units : UInt32} (admin : Bool)
    (h : units ≠ 0) : ∃ due, scaleFeeLoad env fee baseFee units admin = .ok due := by
  unfold scaleFeeLoad
  rw [if_neg h]
  split <;> exact ⟨_, rfl⟩

variable {baseFee : CheckM UInt64} {s s' : TxState}

theorem run_calculateFee (env : Env) {fee : UInt64}
    (hb : baseFee.run s = (.ok fee, s')) (hu : s'.view.context.fees.units ≠ 0) :
    ∃ due, (calculateFee env baseFee).run s = (.ok (), { s' with feeDue := due }) := by
  obtain ⟨due, hd⟩ := scaleFeeLoad_eq_ok env fee s'.view.context.fees.base
    (s'.view.context.flags.has tapADMIN) hu
  refine ⟨.ofDrops due, ?_⟩
  unfold calculateFee
  simp [hb, hd]

theorem run_calculateFee_eq_ok (h : (calculateFee env baseFee).run s = (.ok (), s')) :
    ∃ fee s1 due, baseFee.run s = (.ok fee, s1) ∧ s1.view.context.fees.units ≠ 0 ∧
      s' = { s1 with feeDue := due } := by
  obtain ⟨fee, s1, hb, h⟩ := bind_eq_ok.mp h
  refine ⟨fee, s1, ?_⟩
  simp only [run_bind, run_liftM_check, run_context, bindRun_ok, run_liftM_except] at h
  by_cases hu : s1.view.context.fees.units = 0
  · simp [scaleFeeLoad, hu] at h
  obtain ⟨due, hd⟩ := scaleFeeLoad_eq_ok env fee s1.view.context.fees.base
    (s1.view.context.flags.has tapADMIN) hu
  simp only [hd, bindRun_ok, run_liftM_check, run_setMembers, Prod.mk.injEq, true_and] at h
  exact ⟨.ofDrops due, hb, hu, h.symm⟩

def sourced (s : TxState) (root : AccountRoot) : TxState :=
  { s with
    priorBalance := root.balance
    sourceBalance := root.balance
    hasAuthKey := root.regularKey.isSome }

/-- The checks have passed, the fee is worked out. -/
structure Cleared (env : Env) (tx : STTx) (P : Processor E) (s s1 s2 : TxState) : Prop where
  fee : FeeLegal tx
  preCheck : P.preCheck.run s = (.ok .tesSUCCESS, s1)
  due : (calculateFee env P.calculateBaseFee).run
    { s1 with view := (s1.view.peek (.account s1.account)).2 } = (.ok (), s2)

/-- How the checks before the body can end. -/
inductive Prepared (env : Env) (tx : STTx) (P : Processor E) (s : TxState) :
    TER × Bool → TxState → Prop
  | badFee (hf : ¬ FeeLegal tx) : Prepared env tx P s (.temBAD_FEE, false) s
  | refused {ter : TER} {s' : TxState} (hf : FeeLegal tx)
      (run : P.preCheck.run s = (.ok ter, s')) (hne : ter ≠ .tesSUCCESS) :
      Prepared env tx P s (ter, false) s'
  | noAccount {s1 s' : TxState} (hc : Cleared env tx P s s1 s')
      (hr : s1.view.get (.account s1.account) = none) (hm : P.mustHaveValidAccount) :
      Prepared env tx P s (.terNO_ACCOUNT, false) s'
  | unsourced {s1 s2 s' : TxState} {ter : TER} (hc : Cleared env tx P s s1 s2)
      (hr : s1.view.get (.account s1.account) = none) (hm : P.mustHaveValidAccount = false)
      (hch : (checks P).run s2 = (.ok ter, s')) : Prepared env tx P s (ter, false) s'
  | checked {s1 s2 s' : TxState} {ter : TER} {root : AccountRoot}
      (hc : Cleared env tx P s s1 s2)
      (hr : s1.view.get (.account s1.account) = some root)
      (hch : (checks P).run (sourced s2 root) = (.ok ter, s')) :
      Prepared env tx P s (ter, true) s'

variable {P : Processor E} {result : TER × Bool}

theorem prepared_iff :
    (prepare env tx P).run s = (.ok result, s') ↔ Prepared env tx P s result s' := by
  constructor
  · intro h
    unfold prepare at h
    by_cases hf : (!tx.fee.native || tx.fee.negative || !tx.fee.isLegalNet)
    · rw [if_pos hf] at h
      cases h
      exact .badFee fun hl => feeLegal_iff.mp hl hf
    rw [if_neg hf] at h
    have hl := feeLegal_iff.mpr hf
    obtain ⟨ter, s1, hpe, h⟩ := bind_eq_ok.mp h
    obtain rfl | hps := eq_or_ne ter .tesSUCCESS
    · simp only [ne_eq, not_true_eq_false, ↓reduceIte, run_bind, run_liftM_check,
        run_members, bindRun_ok, CheckM.run_peek, View.peek_fst] at h
      rcases hd : (calculateFee env P.calculateBaseFee).run
          { s1 with view := (s1.view.peek (.account s1.account)).2 } with ⟨fault | ⟨⟩, s2⟩
      · simp [hd] at h
      have hc : Cleared env tx P s s1 s2 := ⟨hl, hpe, hd⟩
      simp only [hd, bindRun_ok] at h
      cases hr : s1.view.get (.account s1.account) with
      | none =>
        simp only [hr, run_ite] at h
        by_cases hm : P.mustHaveValidAccount
        · rw [if_pos hm] at h
          cases h
          exact .noAccount hc hr hm
        · rw [if_neg hm] at h
          obtain ⟨ter, s3, hch, h⟩ := bind_eq_ok.mp h
          cases h
          exact .unsourced hc hr (by simpa using hm) hch
      | some root =>
        simp only [hr] at h
        obtain ⟨_, s3, hse, h⟩ := bind_eq_ok.mp h
        cases hse
        obtain ⟨ter, s4, hch, h⟩ := bind_eq_ok.mp h
        cases h
        exact .checked hc hr hch
    · rw [if_pos hps] at h
      cases h
      exact .refused hl hpe hps
  · intro h
    unfold prepare
    cases h with
    | badFee hf =>
      rw [if_pos (not_not.mp fun h => hf (feeLegal_iff.mpr h))]
      rfl
    | refused hf run hne => simp [feeLegal_iff.mp hf, run, hne]
    | noAccount hc hr hm =>
      simp [feeLegal_iff.mp hc.fee, hc.preCheck, hc.due, hr, hm, View.peek_fst]
    | unsourced hc hr hm hch =>
      simp [feeLegal_iff.mp hc.fee, hc.preCheck, hc.due, hr, hm, hch, View.peek_fst]
    | checked hc hr hch =>
      unfold sourced at hch
      simp [feeLegal_iff.mp hc.fee, hc.preCheck, hc.due, hr, hch, View.peek_fst]

variable {ter : TER} {o : OpenView} {flags : Flags} {out : Outcome}

theorem run_apply_iff [Evolution.Sub charge E] : (apply env tx P).run s = (.ok ter, s') ↔
      (∃ found, Prepared env tx P s (ter, found) s' ∧ ter ≠ .tesSUCCESS) ∨
        ∃ found s1, Prepared env tx P s (.tesSUCCESS, found) s1 ∧
          (enact P found).run s1 = (.ok ter, s') := by
  constructor
  · intro h
    obtain ⟨⟨result, found⟩, s1, hp, h⟩ := bind_eq_ok.mp h
    rw [CheckM.run_liftM_tx, prepared_iff] at hp
    rw [run_ite] at h
    obtain rfl | hps := eq_or_ne result .tesSUCCESS
    · exact .inr ⟨found, s1, hp, by simpa using h⟩
    · rw [if_pos hps] at h
      cases h
      exact .inl ⟨found, hp, hps⟩
  · rintro (⟨found, hp, hne⟩ | ⟨found, s1, hp, h⟩)
    · simp [apply, prepared_iff.mpr hp, hne]
    · simp [apply, prepared_iff.mpr hp, h]

theorem Prepared.unwritten (h : Prepared env tx P s result s')
    (hs : s.view.Unwritten) : s'.view.Unwritten := by
  have hmo := (prepare env tx P).mono s
  rw [prepared_iff.mpr h] at hmo
  exact hmo.unwritten hs

variable {found : Bool}

theorem Prepared.preCheck_of_success (h : Prepared env tx P s (.tesSUCCESS, found) s') :
    ∃ s1, P.preCheck.run s = (.ok .tesSUCCESS, s1) := by
  cases h with
  | refused _ _ hne => exact absurd rfl hne
  | unsourced hc _ _ _ => exact ⟨_, hc.preCheck⟩
  | checked hc _ _ => exact ⟨_, hc.preCheck⟩

theorem Prepared.feeLegal (h : Prepared env tx P s (ter, found) s')
    (ht : ter ≠ .temBAD_FEE) : FeeLegal tx := by
  cases h with
  | badFee _ => exact absurd rfl ht
  | refused hf _ _ => exact hf
  | noAccount hc _ _ => exact hc.fee
  | unsourced hc _ _ _ => exact hc.fee
  | checked hc _ _ => exact hc.fee

theorem Applied.feeLegal [Evolution.Sub charge E] (h : Applied env tx P o flags out) :
    FeeLegal tx := by
  have run : ∀ {ter s}, (apply env tx P).run (initial tx o flags) = (.ok ter, s) →
      (ter = .temBAD_FEE → oversize < s.view.size) → FeeLegal tx := by
    intro ter s run hsi
    rcases run_apply_iff.mp run with ⟨_, hpr, _⟩ | ⟨_, _, hpr, _⟩
    · refine hpr.feeLegal fun ht => ?_
      have hun := hpr.unwritten (OpenView.unwritten_fresh o flags)
      have hla := hsi ht
      rw [View.size_of_unwritten hun] at hla
      cases hla
    · exact hpr.feeLegal nofun
  cases h with
  | success hap _ _ => exact run hap nofun
  | uncharged hap _ _ _ => exact run hap nofun
  | claimed hap hcl _ _ =>
    refine run hap fun ht => ?_
    by_contra hsm
    rw [sizedResult_of_size_le _ (Nat.not_lt.mp hsm), ht] at hcl
    cases isTecClaim_of_claimsFee hcl

/-- It has passed preliminary checks that do not claim. -/
theorem preCheck_of_run [Evolution.Sub charge E]
    (hpe : ∀ ⦃ter : TER⦄ ⦃s1 : TxState⦄, P.preCheck.run (initial tx o flags) = (.ok ter, s1) →
      ter.isTecClaim = false) (run : (apply env tx P).run (initial tx o flags) = (.ok ter, s))
    (ht : ter = .tesSUCCESS ∨ claimsFee flags (sizedResult ter s.view)) :
    ∃ s1, P.preCheck.run (initial tx o flags) = (.ok .tesSUCCESS, s1) := by
  rcases run_apply_iff.mp run with ⟨found, hpr, hne⟩ | ⟨_, _, hpr, _⟩
  · -- a refusal has written nothing, so it would have to be a claim by itself
    have hcl := ht.resolve_left hne
    rw [sizedResult_of_unwritten _ (hpr.unwritten (OpenView.unwritten_fresh o flags))] at hcl
    have hte := isTecClaim_of_claimsFee hcl
    cases hpr with
    | badFee _ | noAccount _ _ _ => cases hte
    | refused _ hre _ =>
      rw [hpe hre] at hte
      cases hte
    | unsourced hc _ _ _ => exact ⟨_, hc.preCheck⟩
    | checked hc _ _ => exact ⟨_, hc.preCheck⟩
  · exact hpr.preCheck_of_success

theorem Applied.run [Evolution.Sub charge E] (h : Applied env tx P o flags out) :
    ∃ ter s, (apply env tx P).run (initial tx o flags) = (.ok ter, s) ∧
      (ter = .tesSUCCESS ∨ claimsFee flags (sizedResult ter s.view)) := by
  cases h with
  | success run _ _ => exact ⟨_, _, run, .inl rfl⟩
  | uncharged run _ _ _ => exact ⟨_, _, run, .inl rfl⟩
  | claimed run hcl _ _ => exact ⟨_, _, run, .inr hcl⟩

/-- It has passed those of `Transactor`. -/
theorem Applied.preCheck [Evolution.Sub charge E] (hpe : PreChecked env tx P.preCheck)
    (h : Applied env tx P o flags out) :
    ∃ s1, P.preCheck.run (initial tx o flags) = (.ok .tesSUCCESS, s1) := by
  obtain ⟨ter, s, run, ht⟩ := h.run
  exact preCheck_of_run (fun _ _ hre => hpe.not_claim hre) run ht

end Transactor

end Sand
