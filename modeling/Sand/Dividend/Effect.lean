import Sand.Tx.Charge

/-!
# What a dividend transaction does

A dividend transaction writes one entry of the ledger, or none.
-/

namespace Sand

open Evolution Transactor MonoM View LedgerM Key STAmount OpenView AList

namespace Dividend

open DividendMaster

section Effect

variable (fields : DividendTx)

/-- The root with the dividend paid and noted. -/
def credited (root : AccountRoot) : Except Fault AccountRoot := do
  let divCoins := fields.dividendCoins.getD 0
  if divCoins = 0 then
    return noteDividend fields root
  else
    return noteDividend fields { root with balance := ← root.balance.add (.ofDrops divCoins) }

/-- The entry to write, or the result it ends with. -/
def effect (ledger : Ledger) : Except Fault (Except TER (Sigma Entry)) :=
  if divOpType fields = DivType_Start then
    .ok (.ok ⟨.dividend,
      { dividendState := DivState_Start
        dividendLedger := fields.dividendLedger.getD 0
        dividendCoins := fields.dividendCoins.getD 0 }⟩)
  else if divOpType fields = DivType_Apply then
    match ledger.lookup (account (payee fields)) with
    | none => .ok (.error .tefBAD_LEDGER)
    | some root =>
      if fields.dividendLedger.getD 0 = root.dividendLedger.getD 0 then
        .ok (.error .tefFAILURE)
      else
        (credited fields root).map fun root => .ok ⟨.account (payee fields), root⟩
  else if divOpType fields = DivType_Done then
    match ledger.lookup dividend with
    | none => .ok (.error .temMALFORMED)
    | some entry => .ok (.ok ⟨.dividend, { entry with dividendState := DivState_Done }⟩)
  else
    .ok (.error .temUNKNOWN)

def createdDrops : UInt64 :=
  if divOpType fields = DivType_Apply then fields.dividendCoins.getD 0 else 0

variable {fields} {ledger : Ledger} {written : Sigma Entry}

theorem credited_frame {root root' : AccountRoot} (h : credited fields root = .ok root') :
    root' = { root with balance := root'.balance, dividendLedger := root'.dividendLedger } := by
  unfold credited at h
  by_cases hc : fields.dividendCoins.getD 0 = 0
  · rw [if_pos hc] at h
    cases h
    rfl
  rw [if_neg hc] at h
  cases had : root.balance.add (.ofDrops (fields.dividendCoins.getD 0)) with
  | error fault =>
    rw [had] at h
    cases h
  | ok balance =>
    rw [had] at h
    cases h
    rfl

theorem effect_apply_iff (hap : divOpType fields = DivType_Apply) :
    effect fields ledger = .ok (.ok written) ↔
      ∃ root root', ledger.lookup (account (payee fields)) = some root ∧
        fields.dividendLedger.getD 0 ≠ root.dividendLedger.getD 0 ∧
        credited fields root = .ok root' ∧ written = ⟨.account (payee fields), root'⟩ := by
  have hs : divOpType fields ≠ DivType_Start := by
    rw [hap]
    decide
  unfold effect
  rw [if_neg hs, if_pos hap]
  cases hr : ledger.lookup (account (payee fields)) with
  | none => simp
  | some root =>
    by_cases heq : fields.dividendLedger.getD 0 = root.dividendLedger.getD 0
    · simp [heq]
    · cases hcr : credited fields root with
      | error fault => simp [heq, hcr, Except.map]
      | ok root' => simp [heq, hcr, Except.map, eq_comm]

theorem effect_cases (h : effect fields ledger = .ok (.ok written)) :
    (divOpType fields = DivType_Start ∧ written = ⟨.dividend,
      { dividendState := DivState_Start
        dividendLedger := fields.dividendLedger.getD 0
        dividendCoins := fields.dividendCoins.getD 0 }⟩) ∨
    (divOpType fields = DivType_Apply ∧ ∃ root root',
      ledger.lookup (account (payee fields)) = some root ∧
        fields.dividendLedger.getD 0 ≠ root.dividendLedger.getD 0 ∧
        credited fields root = .ok root' ∧ written = ⟨.account (payee fields), root'⟩) ∨
    (divOpType fields = DivType_Done ∧ ∃ entry, ledger.lookup dividend = some entry ∧
      written = ⟨.dividend, { entry with dividendState := DivState_Done }⟩) := by
  by_cases hap : divOpType fields = DivType_Apply
  · exact .inr (.inl ⟨hap, (effect_apply_iff hap).mp h⟩)
  unfold effect at h
  by_cases hs : divOpType fields = DivType_Start
  · rw [if_pos hs] at h
    cases h
    exact .inl ⟨hs, rfl⟩
  rw [if_neg hs, if_neg hap] at h
  by_cases hd : divOpType fields = DivType_Done
  · rw [if_pos hd] at h
    cases hen : ledger.lookup dividend with
    | none =>
      rw [hen] at h
      cases h
    | some entry =>
      rw [hen] at h
      cases h
      exact .inr (.inr ⟨hd, entry, rfl, rfl⟩)
  · rw [if_neg hd] at h
    cases h

end Effect

/-! ## The processor -/

/-- The view a dividend transaction's body starts with. -/
def opened (o : OpenView) (flags : Flags) : View :=
  match o.ledger.lookup (account 0) with
  | none => o.fresh flags
  | some root => (o.fresh flags).setItem (.account 0) (some (.modify, root))

/-- It would leave the ledger of `o` as it is. -/
structure Neutral (o : OpenView) (v : View) : Prop where
  base : v.base = o.ledger
  lookup : ∀ k, v.commit.lookup k = o.ledger.lookup k
  dropsCreated : v.dropsCreated = 0
  dropsDestroyed : v.dropsDestroyed = 0
  size : v.size ≤ 1

theorem neutral_fresh (o : OpenView) (fgs : Flags) : Neutral o (o.fresh fgs) where
  base := rfl
  lookup _ := View.lookup_commit_of_none (lookup_empty _)
  dropsCreated := rfl
  dropsDestroyed := rfl
  size := Nat.zero_le 1

theorem neutral_opened (o : OpenView) (fgs : Flags) : Neutral o (opened o fgs) := by
  unfold opened
  cases hr : o.ledger.lookup (account 0) with
  | none => exact neutral_fresh o fgs
  | some root =>
    refine ⟨rfl, fun k => ?_, rfl, rfl, size_setItem_le _ _ _⟩
    by_cases hk : k = .account 0
    · subst hk
      rw [lookup_commit_setItem _ _ _ (by decide) (by decide), hr]
    · rw [lookup_commit_setItem_ne _ _ hk]
      exact (neutral_fresh o fgs).lookup k

variable {k : Key} {root : AccountRoot}

theorem lookup_items_opened (o : OpenView) (fgs : Flags) (hk : k ≠ .account 0) :
    (opened o fgs).items.lookup k = none := by
  unfold opened
  cases hr : o.ledger.lookup (account 0) with
  | none => exact lookup_empty k
  | some root =>
    rw [lookup_setItem_ne _ _ hk]
    exact lookup_empty k

variable {sle : Entry k}

theorem editable_opened (fgs : Flags) (h : o.ledger.lookup k = some sle) :
    ∃ w, Neutral o w ∧ View.Editable (opened o fgs) w k sle := by
  by_cases hk : k = .account 0
  · subst hk
    refine ⟨o.fresh fgs, neutral_fresh o fgs, .inr ?_⟩
    simp only [opened, h]
  · refine ⟨opened o fgs, neutral_opened o fgs, .inl ⟨lookup_items_opened o fgs hk, ?_, rfl⟩⟩
    rw [(neutral_opened o fgs).base, h]

theorem get_opened (o : OpenView) (fgs : Flags) (k : Key) :
    (opened o fgs).get k = o.ledger.lookup k := by
  by_cases hk : k = .account 0
  · subst hk
    unfold opened
    cases hr : o.ledger.lookup (account 0) with
    | none => exact (get_fresh o fgs _).trans hr
    | some root => exact get_setItem_some _ _ _
  · rw [get_of_none (lookup_items_opened o fgs hk), (neutral_opened o fgs).base]

/-- It writes one entry over the ledger of `o`. -/
structure Writes (o : OpenView) (v : View) (k : Key) (sle : Entry k) (created : UInt64) : Prop where
  lookup_self : v.commit.lookup k = some sle
  lookup_ne : ∀ k', k' ≠ k → v.commit.lookup k' = o.ledger.lookup k'
  dropsCreated : v.dropsCreated = created
  dropsDestroyed : v.dropsDestroyed = 0
  size : v.size ≤ 2

theorem Neutral.writes {w : View} (h : Neutral o w) (act : Action) (k : Key)
    (sle : Entry k) (hwr : act ≠ .cache) (hke : act ≠ .erase) :
    Writes o (w.setItem k (some (act, sle))) k sle 0 where
  lookup_self := View.lookup_commit_setItem w k sle hwr hke
  lookup_ne k' hne := (View.lookup_commit_setItem_ne w _ hne).trans (h.lookup k')
  dropsCreated := h.dropsCreated
  dropsDestroyed := h.dropsDestroyed
  size := (View.size_setItem_le w k (act, sle)).trans (Nat.succ_le_succ h.size)

theorem Writes.createDrops {v : View} (h : Writes o v k sle 0) (dr : UInt64) :
    Writes o (v.createDrops dr) k sle dr where
  lookup_self := h.lookup_self
  lookup_ne := h.lookup_ne
  dropsCreated := by simp [View.createDrops, h.dropsCreated]
  dropsDestroyed := h.dropsDestroyed
  size := h.size

variable (fields : DividendTx) (o : OpenView) (flags : Flags)

theorem run_startCalc : ∃ v, (startCalc fields).run (opened o flags) = (.ok .tesSUCCESS, v) ∧
      Writes o v .dividend
        { dividendState := DivState_Start
          dividendLedger := fields.dividendLedger.getD 0
          dividendCoins := fields.dividendCoins.getD 0 } 0 := by
  unfold startCalc
  cases hen : o.ledger.lookup dividend with
  | none =>
    have hi := lookup_items_opened o flags (k := .dividend) (by decide)
    have hbs : (opened o flags).base.lookup dividend = none := by
      rw [(neutral_opened o flags).base, hen]
    refine ⟨_, ?_, (neutral_opened o flags).writes .insert .dividend _ (by decide) (by decide)⟩
    simp [peek_of_absent hi hbs, insert_of_absent hi hbs,
      alter_setItem_insert _ dividend, update_setItem_insert _ dividend]
  | some entry =>
    obtain ⟨w, hn, hed⟩ := editable_opened flags hen
    refine ⟨_, ?_, hn.writes .modify .dividend _ (by decide) (by decide)⟩
    simp [hed.peek_fst, hed.update_alter]

/-- A run that ends with a result and writes nothing. -/
def RefusedWith (run : Except Fault TER × View) (ter : TER) : Prop :=
  run.1 = .ok ter ∧ run.2.size ≤ 2

theorem refusedWith_peek (k : Key) (ter : TER) :
    RefusedWith (.ok ter, ((opened o flags).peek k).2) ter :=
  ⟨rfl, (size_peek_le _ k).trans (Nat.succ_le_succ (neutral_opened o flags).size)⟩

theorem run_doneApply_of_none (h : o.ledger.lookup dividend = none) :
    RefusedWith (doneApply.run (opened o flags)) .temMALFORMED := by
  have hpk : ((opened o flags).peek .dividend).1 = none := by
    rw [peek_fst, get_opened, h]
  unfold doneApply
  simpa [hpk] using refusedWith_peek o flags .dividend .temMALFORMED

theorem run_doneApply_of_some {ent : DividendEntry} (h : o.ledger.lookup dividend = some ent) :
    ∃ v, doneApply.run (opened o flags) = (.ok .tesSUCCESS, v) ∧
      Writes o v .dividend { ent with dividendState := DivState_Done } 0 := by
  obtain ⟨w, hn, hed⟩ := editable_opened flags h
  refine ⟨_, ?_, hn.writes .modify .dividend _ (by decide) (by decide)⟩
  unfold doneApply
  simp [hed.peek_fst, hed.update_alter]

theorem run_applyTx_of_none (h : o.ledger.lookup (account (payee fields)) = none) :
    RefusedWith ((applyTx fields).run (opened o flags)) .tefBAD_LEDGER := by
  have hpk : ((opened o flags).peek (.account (payee fields))).1 = none := by
    rw [peek_fst, get_opened, h]
  unfold applyTx
  simpa [hpk] using refusedWith_peek o flags _ .tefBAD_LEDGER

section

variable (h : o.ledger.lookup (account (payee fields)) = some root)
include h

theorem run_applyTx_of_repeated (heq : fields.dividendLedger.getD 0 = root.dividendLedger.getD 0) :
    RefusedWith ((applyTx fields).run (opened o flags)) .tefFAILURE := by
  have hpk : ((opened o flags).peek (.account (payee fields))).1 = some root := by
    rw [peek_fst, get_opened, h]
  unfold applyTx
  simpa [hpk, heq] using refusedWith_peek o flags _ .tefFAILURE

theorem run_applyTx_of_some {root' : AccountRoot}
    (hnw : fields.dividendLedger.getD 0 ≠ root.dividendLedger.getD 0)
    (hcr : credited fields root = .ok root') :
    ∃ v, (applyTx fields).run (opened o flags) = (.ok .tesSUCCESS, v) ∧
      Writes o v (.account (payee fields)) root' (fields.dividendCoins.getD 0) := by
  obtain ⟨w, hn, hed⟩ := editable_opened flags h
  unfold credited at hcr
  unfold applyTx
  by_cases hc : fields.dividendCoins.getD 0 = 0
  · simp only [hc, ↓reduceIte] at hcr
    cases hcr
    rw [hc]
    refine ⟨_, ?_, hn.writes .modify (.account (payee fields)) _ (by decide) (by decide)⟩
    simp [hed.peek_fst, hnw, hed.update_alter]
  · simp only [hc, ↓reduceIte] at hcr
    cases hba : root.balance.add (.ofDrops (fields.dividendCoins.getD 0)) with
    | error fault => simp [hba, bind, Except.bind] at hcr
    | ok balance =>
      simp only [hba, bind, Except.bind] at hcr
      cases hcr
      refine ⟨_, ?_, (hn.writes .modify (.account (payee fields)) _ (by decide)
        (by decide)).createDrops _⟩
      simp only [run_bind, run_peek, hed.peek_fst, bindRun_ok, hnw,
        hc, ne_eq, not_false_eq_true, ↓reduceIte, run_liftM_except, hba,
        run_alter, run_createXRP, alter_createDrops, alter_alter,
        run_update, update_createDrops, hed.update_alter, Except.map,
        settle_ok, run_pure]
      rfl

theorem run_applyTx_of_fault {fault : Fault}
    (hnw : fields.dividendLedger.getD 0 ≠ root.dividendLedger.getD 0)
    (hcr : credited fields root = .error fault) :
    ((applyTx fields).run (opened o flags)).1 = .error fault := by
  have hpk : ((opened o flags).peek (.account (payee fields))).1 = some root := by
    rw [peek_fst, get_opened, h]
  unfold credited at hcr
  by_cases hc : fields.dividendCoins.getD 0 = 0
  · simp only [hc, ↓reduceIte] at hcr
    cases hcr
  simp only [hc, ↓reduceIte] at hcr
  cases hba : root.balance.add (.ofDrops (fields.dividendCoins.getD 0)) with
  | ok balance => simp [hba, bind, Except.bind, pure, Except.pure] at hcr
  | error fault' =>
    simp only [hba, bind, Except.bind] at hcr
    cases hcr
    unfold applyTx
    simp [hpk, hnw, hc, hba]

end

theorem run_doApply :
    match effect fields o.ledger with
    | .error fault => ((doApply fields).run (opened o flags)).1 = .error fault
    | .ok (.error ter) => RefusedWith ((doApply fields).run (opened o flags)) ter ∧ Refuses ter
    | .ok (.ok ⟨k, sle⟩) =>
      ∃ v, (doApply fields).run (opened o flags) = (.ok .tesSUCCESS, v) ∧
        Writes o v k sle (createdDrops fields) := by
  unfold effect doApply createdDrops
  by_cases hs : divOpType fields = DivType_Start
  · have hap : divOpType fields ≠ DivType_Apply := by
      rw [hs]
      decide
    simp only [if_pos hs, if_neg hap]
    exact run_startCalc fields o flags
  by_cases hap : divOpType fields = DivType_Apply
  · simp only [if_neg hs, if_pos hap]
    cases hr : o.ledger.lookup (account (payee fields)) with
    | none => exact ⟨run_applyTx_of_none fields o flags hr, rfl, nofun⟩
    | some root =>
      by_cases heq : fields.dividendLedger.getD 0 = root.dividendLedger.getD 0
      · simp only [if_pos heq]
        exact ⟨run_applyTx_of_repeated fields o flags hr heq, rfl, nofun⟩
      simp only [if_neg heq]
      cases hcr : credited fields root with
      | error fault => exact run_applyTx_of_fault fields o flags hr heq hcr
      | ok root' => exact run_applyTx_of_some fields o flags hr heq hcr
  by_cases hd : divOpType fields = DivType_Done
  · simp only [if_neg hs, if_neg hap, if_pos hd]
    cases hen : o.ledger.lookup dividend with
    | none => exact ⟨run_doneApply_of_none o flags hen, rfl, nofun⟩
    | some entry => exact run_doneApply_of_some o flags hen
  · simp only [if_neg hs, if_neg hap, if_neg hd]
    exact ⟨⟨rfl, (neutral_opened o flags).size.trans (Nat.le_succ 1)⟩, rfl, nofun⟩

/-! ## Application -/

/-- A dividend transaction gets through to its body. -/
structure Accepted (env : Env) (tx : STTx) (fields : DividendTx) (o : OpenView) : Prop where
  sign : tx.fee.negative = false
  refusal : refusal env tx fields = none
  units : o.fees.units ≠ 0

section Application

variable {env : Env} {tx : STTx} {fields : DividendTx} {o : OpenView} {flags : Flags}

theorem refuses_refusal : ∀ ter ∈ refusal env tx fields, Refuses ter := by
  repeat refine refuses_ite ⟨rfl, nofun⟩ ?_
  exact nofun

theorem fee_of_refusal (h : refusal env tx fields = none) :
    tx.fee.native ∧ tx.fee.mantissa = 0 := by
  unfold refusal at h
  by_cases hfe : (!tx.fee.native || !tx.fee.isZero)
  · rw [if_pos hfe] at h
    cases h
  simp only [Bool.or_eq_true, Bool.not_eq_true', not_or, Bool.not_eq_false] at hfe
  refine ⟨hfe.1, ?_⟩
  by_contra hne
  have h0 := hfe.2
  unfold isZero signum at h0
  rw [if_neg hne] at h0
  split at h0 <;> cases h0

theorem index_of_refusal (h : refusal env tx fields = none) :
    ∃ index, fields.dividendLedger = some index := by
  cases hix : fields.dividendLedger with
  | some index => exact ⟨index, rfl⟩
  | none =>
    unfold refusal at h
    simp only [hix, Option.isNone_none, ↓reduceIte] at h
    split_ifs at h

theorem Accepted.feeLegal (h : Accepted env tx fields o) : FeeLegal tx := by
  obtain ⟨hna, hma⟩ := fee_of_refusal h.refusal
  refine ⟨hna, h.sign, ?_⟩
  simp [isLegalNet, hma]

theorem Accepted.prepared (h : Accepted env tx fields o) (fgs : Flags) :
    ∃ s, Prepared env tx (processor env tx fields) (initial tx o fgs)
        (.tesSUCCESS, (o.ledger.lookup (account 0)).isSome) s ∧
      s.account = 0 ∧ s.view = ((o.fresh fgs).peek (.account 0)).2 := by
  have hpe : (processor env tx fields).preCheck.run (initial tx o fgs) =
      (.ok .tesSUCCESS, initial tx o fgs) := by
    simp [processor, preCheck, h.refusal]
  let opened : TxState := { initial tx o fgs with view := ((o.fresh fgs).peek (.account 0)).2 }
  have hdu : ∃ due, (calculateFee env (pure 0)).run opened =
      (.ok (), { opened with feeDue := due }) := by
    refine run_calculateFee _ (run_pure 0 opened) ?_
    rw [context_peek]
    exact h.units
  obtain ⟨due, hdu⟩ := hdu
  have hce : Cleared env tx (processor env tx fields) (initial tx o fgs)
      (initial tx o fgs) { opened with feeDue := due } := ⟨h.feeLegal, hpe, hdu⟩
  cases hr : o.ledger.lookup (account 0) with
  | none =>
    exact ⟨_, .unsourced hce ((get_fresh o fgs _).trans hr) rfl rfl, rfl, rfl⟩
  | some root =>
    exact ⟨_, .checked hce ((get_fresh o fgs _).trans hr) rfl, rfl, rfl⟩

variable {s : TxState}

theorem accepted_of_prepared {ter : TER} {fd : Bool}
    (h : Prepared env tx (processor env tx fields) (initial tx o flags) (ter, fd) s) :
    (ter = .tesSUCCESS ∧ Accepted env tx fields o) ∨ Refuses ter := by
  have hca : ∀ {s1 s2}, Cleared env tx (processor env tx fields) (initial tx o flags) s1 s2 →
      Accepted env tx fields o := by
    intro s1 s2 hce
    obtain ⟨hre, rfl⟩ := Prod.mk.inj hce.preCheck
    obtain ⟨_, s3, _, hbs, hu, _⟩ := run_calculateFee_eq_ok hce.due
    obtain ⟨_, rfl⟩ := Prod.mk.inj hbs
    refine ⟨hce.fee.2.1, ?_, ?_⟩
    · cases hrl : refusal env tx fields with
      | none => rfl
      | some ter =>
        rw [hrl] at hre
        exact absurd (Except.ok.inj hre) (refuses_refusal ter hrl).2
    · simp only [context_peek] at hu
      exact hu
  cases h with
  | badFee _ => exact .inr ⟨rfl, nofun⟩
  | noAccount _ _ hm => cases hm
  | refused _ hru hne =>
    obtain ⟨hre, _⟩ := Prod.mk.inj hru
    cases hrl : refusal env tx fields with
    | none =>
      rw [hrl] at hre
      exact absurd (Except.ok.inj hre).symm hne
    | some ter' =>
      rw [hrl] at hre
      obtain rfl : ter' = ter := Except.ok.inj hre
      exact .inr (refuses_refusal ter' hrl)
  | unsourced hce _ _ hch =>
    cases hch
    exact .inl ⟨rfl, hca hce⟩
  | checked hce _ hch =>
    cases hch
    exact .inl ⟨rfl, hca hce⟩

theorem Accepted.run_apply (h : Accepted env tx fields o) (flags : Flags) :
    ∃ s : TxState, (Transactor.apply env tx (processor env tx fields)).run (initial tx o flags) =
      (((doApply fields).run (opened o flags)).1,
        { s with view := ((doApply fields).run (opened o flags)).2 }) := by
  obtain ⟨s, hpr, hac, hv⟩ := h.prepared flags
  refine ⟨s, ?_⟩
  have hb : ∀ s' : TxState, s' = { s with view := opened o flags } →
      (processor env tx fields).doApply.run s' = (((doApply fields).run (opened o flags)).1,
          { s with view := ((doApply fields).run (opened o flags)).2 }) := by
    rintro s' rfl
    rfl
  have hea : (enact (processor env tx fields) (o.ledger.lookup (account 0)).isSome).run s =
      (((doApply fields).run (opened o flags)).1,
        { s with view := ((doApply fields).run (opened o flags)).2 }) := by
    unfold enact
    cases hr : o.ledger.lookup (account 0) with
    | none =>
      rw [peek_of_absent (lookup_empty _) hr] at hv
      have ho : opened o flags = s.view := by
        rw [opened, hr, hv]
      exact hb s (by rw [ho])
    | some root =>
      rw [peek_of_base (lookup_empty _) hr] at hv
      have hup : s.view.update (.account s.account) = .ok (opened o flags) := by
        rw [hv, hac, opened, hr]
        exact update_setItem_cache _ _ _
      simp only [Option.isSome_some, ↓reduceIte, run_bind, PreCheckM.run_liftM_tx,
        PreCheckM.run_members, bindRun_ok, TxM.run_liftM_ledger, run_update,
        hup, settle_ok]
      exact hb _ rfl
  rw [← hea, Transactor.apply]
  simp [prepared_iff.mpr hpr]

theorem run_apply_cases {ter : TER}
    (h : (Transactor.apply env tx (processor env tx fields)).run (initial tx o flags) =
      (.ok ter, s)) :
    (Refuses ter ∧ s.view.size ≤ oversize) ∨ (ter = .tesSUCCESS ∧ Accepted env tx fields o ∧
        ∃ k sle, effect fields o.ledger = .ok (.ok ⟨k, sle⟩) ∧
          Writes o s.view k sle (createdDrops fields)) := by
  rcases run_apply_iff.mp h with ⟨found, hpr, hne⟩ | ⟨found, s1, hpr, _⟩
  · rcases accepted_of_prepared hpr with ⟨ht, _⟩ | hrf
    · exact absurd ht hne
    · have hun := hpr.unwritten (unwritten_fresh o flags)
      exact .inl ⟨hrf, by simp [size_of_unwritten hun]⟩
  rcases accepted_of_prepared hpr with ⟨_, ha⟩ | hrf
  · obtain ⟨s2, hru⟩ := ha.run_apply flags
    rw [hru] at h
    obtain ⟨ht, rfl⟩ := Prod.mk.inj h
    have hb := run_doApply fields o flags
    rcases he : effect fields o.ledger with fault | (refused | ⟨k, sle⟩)
    · simp only [he, ht] at hb
      cases hb
    · simp only [he] at hb
      obtain ⟨⟨hre, hsi⟩, hrf⟩ := hb
      obtain rfl : ter = refused := Except.ok.inj (ht.symm.trans hre)
      exact .inl ⟨hrf, hsi.trans (by decide)⟩
    · simp only [he] at hb
      obtain ⟨v, hre, hwr⟩ := hb
      rw [hre] at ht ⊢
      exact .inr ⟨(Except.ok.inj ht).symm, ha, k, sle, rfl, hwr⟩
  · exact absurd rfl hrf.2

variable {out : Outcome}

theorem written_of_applied (h : Applied env tx (processor env tx fields) o flags out) :
    Accepted env tx fields o ∧ ∃ k sle v, effect fields o.ledger = .ok (.ok ⟨k, sle⟩) ∧
      Writes o v k sle (createdDrops fields) ∧ finish o tx v tx.fee = .ok out.view := by
  cases h with
  | success hru _ hf =>
    rcases run_apply_cases hru with ⟨hrf, _⟩ | ⟨_, ha, k, sle, he, hwr⟩
    · exact absurd rfl hrf.2
    · exact ⟨ha, k, sle, _, he, hwr, hf⟩
  | claimed hru hcl _ _ =>
    rcases run_apply_cases hru with ⟨hrf, hsi⟩ | ⟨rfl, _, _, _, _, hwr⟩
    · rw [sizedResult_of_size_le _ hsi] at hcl
      have hte := isTecClaim_of_claimsFee hcl
      rw [hrf.1] at hte
      cases hte
    · rw [sizedResult_of_size_le _ (hwr.size.trans (by decide)), claimsFee_success] at hcl
      cases hcl
  | uncharged hru hsi _ _ =>
    rcases run_apply_cases hru with ⟨hrf, _⟩ | ⟨_, _, _, _, _, hwr⟩
    · exact absurd rfl hrf.2
    · exact absurd (hwr.size.trans (by decide)) (Nat.not_le.mpr hsi)

/-- It is applied exactly when it is new, accepted and takes effect. -/
theorem applied_iff :
    (∃ out, operate env tx (processor env tx fields) o flags = .ok out ∧ out.didApply) ↔
      tx.transactionID ≠ 0 ∧ tx.transactionID ∉ o.txs ∧ Accepted env tx fields o ∧
        ∃ written, effect fields o.ledger = .ok (.ok written) := by
  constructor
  · rintro ⟨out, h, hal⟩
    obtain ⟨hid, hal⟩ := applied_of_operate h hal
    obtain ⟨ha, k, sle, v, he, _, hf⟩ := written_of_applied hal
    exact ⟨hid, (finish_eq_ok_iff.mp hf).1, ha, ⟨k, sle⟩, he⟩
  · rintro ⟨hid, hnw, ha, ⟨k, sle⟩, he⟩
    obtain ⟨s, hru⟩ := ha.run_apply flags
    have hb := run_doApply fields o flags
    simp only [he] at hb
    obtain ⟨v, hre, hwr⟩ := hb
    rw [hre] at hru
    have hf : finish o tx v tx.fee = .ok _ := finish_eq_ok_iff.mpr
      ⟨hnw, fun _ => ⟨ha.feeLegal.1, ha.feeLegal.2.1⟩, rfl⟩
    exact ⟨_, operate_of_success hid hru (hwr.size.trans (by decide)) hf, rfl⟩

theorem effect_of_applied (h : operate env tx (processor env tx fields) o flags = .ok out)
    (hal : out.didApply) :
    ∃ k sle, effect fields o.ledger = .ok (.ok ⟨k, sle⟩) ∧ out.view.ledger.lookup k = some sle ∧
      (∀ k', k' ≠ k → out.view.ledger.lookup k' = o.ledger.lookup k') ∧
      out.view.dropsCreated = o.dropsCreated + createdDrops fields ∧
      out.view.dropsDestroyed = o.dropsDestroyed ∧ out.view.drops = o.drops := by
  obtain ⟨_, hal⟩ := applied_of_operate h hal
  obtain ⟨ha, k, sle, v, he, hwr, hf⟩ := written_of_applied hal
  obtain ⟨_, _, hv⟩ := finish_eq_ok_iff.mp hf
  have hfe := (fee_of_refusal ha.refusal).2
  refine ⟨k, sle, he, ?_, fun k' hne => ?_, ?_, ?_, ?_⟩
  · rw [hv]
    exact hwr.lookup_self
  · rw [hv]
    exact hwr.lookup_ne k' hne
  · rw [hv, ← hwr.dropsCreated]
  · rw [hv, hwr.dropsDestroyed, hfe]
    simp
  · rw [hv]

/-- A new one that takes effect on the ledger. -/
structure Takes (env : Env) (tx : STTx) (fields : DividendTx) (o : OpenView) : Prop where
  id : tx.transactionID ≠ 0
  fresh : tx.transactionID ∉ o.txs
  accepted : Accepted env tx fields o
  effect : ∃ written, effect fields o.ledger = .ok (.ok written)

theorem takes_iff {fs : DividendTx} (hb : tx.body = .dividend fs) :
    Takes env tx fs o ↔ ∃ out, Sand.apply env tx o flags = some out ∧ out.didApply := by
  have hp : processorOf env tx = some ⟨unrestricted, inferInstance, processor env tx fs⟩ := by
    simp [processorOf, hb]
  have hin : invoke env tx o flags = operate env tx (processor env tx fs) o flags := by
    simp [invoke, hp]
  constructor
  · rintro ⟨hid, hnw, ha, he⟩
    obtain ⟨out, h, hal⟩ := applied_iff.mpr ⟨hid, hnw, ha, he⟩
    exact ⟨out, apply_of_invoke (hin.trans h), hal⟩
  · rintro ⟨out, h, hal⟩
    have hop := hin.symm.trans (invoke_of_apply h hal)
    obtain ⟨hid, hnw, ha, he⟩ := applied_iff.mp ⟨out, hop, hal⟩
    exact ⟨hid, hnw, ha, he⟩

def sampleDividend (fields : DividendTx) : STTx where
  body := .dividend fields
  account := 0
  sequence := 0
  fee := zeroDrops
  signingPubKey := [7]
  transactionID := 1

theorem takes_sampleDividend {led : Ledger} {written : Sigma Entry}
    (hrl : refusal sampleEnv (sampleDividend fields) fields = none)
    (he : effect fields led = .ok (.ok written)) :
    Takes sampleEnv (sampleDividend fields) fields (sampleView led) where
  id := show (1 : UInt256) ≠ 0 by decide
  fresh := List.not_mem_nil
  accepted := ⟨rfl, hrl, show (10 : UInt32) ≠ 0 by decide⟩
  effect := ⟨written, he⟩

end Application

end Dividend

end Sand
