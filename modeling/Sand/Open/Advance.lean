import Sand.Open.AccountTxnID

/-!
# Applied transactions advance their account

An applied transaction uses up a sequence number and a fee.
-/

namespace Sand

open LedgerM Evolution STAmount Option

namespace Transactor

def Deducts (tx : STTx) (balance fee rest : STAmount) : Prop :=
  (tx.fee.isZero ∧ fee = tx.fee ∧ rest = balance) ∨
    ∃ short, balance.lt tx.fee = .ok short ∧ fee = (if short then balance else tx.fee) ∧
      balance.sub fee = .ok rest

variable {E : Evolution}

/-- What was deducted before the body is destroyed. -/
def PaysFee (P : Processor E) (tx : STTx) (o : OpenView) (flags : Flags) (prior : AccountRoot)
    (out : Outcome) : Prop :=
  ∃ fee root, Deducts tx prior.balance fee root.balance ∧
    (o.info.isOpen = false → out.view.dropsDestroyed = o.dropsDestroyed + fee.mantissa) ∧
    let v := (o.fresh flags).setItem (.account tx.account) (some (.modify, root))
    out.view.ledger = v.commit ∨ ∃ s s', s.view = v ∧ P.doApply.run s = (.ok .tesSUCCESS, s') ∧
      out.view.ledger = s'.view.commit

/-- A success or a claim, and the next sequence number. -/
structure Advanced (P : Processor E) (tx : STTx) (o : OpenView) (flags : Flags)
    (prior : AccountRoot) (out : Outcome) : Prop where
  result : out.ter = .tesSUCCESS ∨ out.ter.isTecClaim
  sequence : ∃ root, out.view.ledger.lookup (.account tx.account) = some root ∧
    root.sequence.toNat = prior.sequence.toNat + 1
  fee : PaysFee P tx o flags prior out

/-- The body leaves too many entries to write. -/
def TakesTooMuch [Sub charge E] (env : Env) (tx : STTx) (P : Processor E) (o : OpenView)
    (flags : Flags) : Prop :=
  ∃ s, (apply env tx P).run (initial tx o flags) = (.ok .tesSUCCESS, s) ∧ oversize < s.view.size

variable {env : Env} {tx : STTx} {P : Processor E} {o : OpenView} {flags : Flags}

theorem deducts_of_paid {bal rest : STAmount} (h : Paid tx bal rest) :
    Deducts tx bal tx.fee rest := by
  rcases h with ⟨h0, hrs⟩ | ⟨-, hlt, hsu⟩
  · exact .inl ⟨h0, rfl, hrs⟩
  · exact .inr ⟨false, hlt, rfl, hsu⟩

theorem toNat_succ_iff {n : UInt32} : (n + 1).toNat = n.toNat + 1 ↔ n ≠ 4294967295 := by
  rw [UInt32.toNat_add, ne_eq, ← UInt32.toNat_inj]
  change (n.toNat + 1) % 4294967296 = n.toNat + 1 ↔ ¬ n.toNat = 4294967295
  have hlt := n.toNat_lt
  omega

variable {fee : STAmount} {o' : OpenView}

/-- No fee is charged to an account without a balance. -/
theorem chargeable_of_claimed {v : View} (hsn : tx.fee.negative = false)
    (hc : (claimFee tx).run (o.fresh flags) = (.ok (.ok fee), v))
    (hf : finish o tx v fee = .ok o') : Chargeable tx o.ledger := by
  intro h0 root hr
  obtain ⟨root', short, rest, hr', hlt, hfe, -, -⟩ := claimFee_charged hc
  obtain rfl : root' = root := some.inj (hr'.symm.trans hr)
  rw [run_claimFee hr] at hc
  by_contra hpo
  by_cases hba : root'.balance.isZero
  · split_ifs at hc <;> cases hc
  have hng : root'.balance.negative := by
    unfold isPositive signum at hpo
    unfold isZero signum at hba
    split_ifs at hpo hba with hm hsg
    · exact absurd rfl hba
    · exact hsg
    · exact absurd (by decide) hpo
  have hsh : short := by
    unfold lt at hlt
    split_ifs at hlt
    cases hlt
    simp [ltCore, hng, hsn]
  obtain ⟨-, hle, -⟩ := finish_eq_ok_iff.mp hf
  rw [hfe, hsh, if_pos rfl, hng] at hle
  cases ho : o.info.isOpen with
  | false => cases (hle ho).2
  | true =>
    rw [hsh] at hlt
    simp only [hba, ho, hlt, if_true] at hc
    split_ifs at hc <;> cases hc

/-- Right but for the sequence number. -/
theorem advanced_iff {pri root : AccountRoot} {out : Outcome}
    (hre : out.ter = .tesSUCCESS ∨ out.ter.isTecClaim)
    (hr : out.view.ledger.lookup (.account tx.account) = some root)
    (hs : root.sequence = pri.sequence + 1) (hfe : PaysFee P tx o flags pri out) :
    Advanced P tx o flags pri out ↔ pri.sequence ≠ 4294967295 := by
  constructor
  · intro h
    obtain ⟨root', hr', hn⟩ := h.sequence
    obtain rfl : root' = root := some.inj (hr'.symm.trans hr)
    rw [hs] at hn
    exact toNat_succ_iff.mp hn
  · intro hl
    refine ⟨hre, ⟨root, hr, ?_⟩, hfe⟩
    rw [hs]
    exact toNat_succ_iff.mpr hl

theorem destroyed_of_finish {v : View} (hf : finish o tx v fee = .ok o')
    (hno : v.dropsDestroyed = 0)
    (hco : o.info.isOpen = false) : o'.dropsDestroyed = o.dropsDestroyed + fee.mantissa := by
  obtain ⟨-, -, rfl⟩ := finish_eq_ok_iff.mp hf
  simp [hno, hco]

/-- What can go wrong: the last sequence number, and a transaction without a fee from an empty
account whose body grows too large. -/
theorem advances_iff (env : Env) (tx : STTx) (p : AnyProcessor) (o : OpenView) (flags : Flags)
    (out : Outcome) (hp : processorOf env tx = some p) (hch : tx.body.isChange = false)
    (hd : tx.body.isDividend = false) (run : operate env tx p.processor o flags = .ok out) :
    (out.didApply = false → out.view = o) ∧
      (out.didApply = true → ∃ prior, o.ledger.lookup (.account tx.account) = some prior ∧
        (Advanced p.processor tx o flags prior out ↔ prior.sequence ≠ 4294967295 ∧
            (TakesTooMuch env tx p.processor o flags → Chargeable tx o.ledger))) := by
  refine ⟨view_of_not_applied run, fun ha => ?_⟩
  obtain ⟨-, ha⟩ := applied_of_operate run ha
  have hst := standard_of_processorOf hp hch hd
  cases ha with
  | @success s o' hb hsi hf =>
    obtain ⟨prior, hpr, hs⟩ := hst.presented_of_run hb (.inl rfl)
    rcases hst.start_of_apply hb with
      ⟨hne, -⟩ | ⟨prior', balance, s0, hpr', hpa, -, -, hv, -, hdo⟩
    · exact absurd rfl hne
    obtain rfl : prior' = prior := some.inj (hpr'.root.symm.trans hpr.root)
    have hk := numbered_of_processorOf hp hch hd hdo
    have hno : s.view.dropsDestroyed = 0 := by
      rw [hk.dropsDestroyed, hv]
      rfl
    rw [hv] at hk
    obtain ⟨root, hr, hn⟩ := (usedUp_of_evolves hpr.root rfl hk).source
    refine ⟨prior', hpr.root, (advanced_iff (.inl rfl)
      (hr ▸ congrArg _ (ledger_of_finish hf)) (hs ▸ hn)
      ⟨tx.fee, paidRoot tx balance prior', deducts_of_paid hpa,
        destroyed_of_finish hf hno, .inr ⟨s0, s, hv, hdo,
          ledger_of_finish hf⟩⟩).trans (and_iff_left ?_).symm⟩
    rintro ⟨s', hb', hla⟩
    cases hb.symm.trans hb'
    omega
  | @claimed ter s v fee o' hb hcl hc hf =>
    obtain ⟨prior, hpr, hs⟩ := hst.presented_of_run hb (.inr hcl)
    have hca := chargeable_of_claimed hpr.fee.2.1 hc hf
    obtain ⟨root, short, rest, hr, hlt, hfe, hsu, rfl⟩ := claimFee_charged hc
    obtain rfl : root = prior := some.inj (hr.symm.trans hpr.root)
    refine ⟨root, hr, (advanced_iff (.inr (isTecClaim_of_claimsFee hcl))
      ((congrArg _ (ledger_of_finish hf)).trans (lookup_commit_modified _))
      (hs ▸ rfl : (charged tx rest root).sequence = _)
      ⟨fee, charged tx rest root, .inr ⟨short, hlt, hfe, hsu⟩,
        destroyed_of_finish hf rfl, .inl (ledger_of_finish hf)⟩).trans
      (and_iff_left fun _ => hca).symm⟩
  | @uncharged s v refusal o' hb hsi hc hf =>
    obtain ⟨prior, hpr, hs⟩ := hst.presented_of_run hb (.inl rfl)
    refine ⟨prior, hpr.root, iff_of_false (fun h => ?_) fun h => ?_⟩
    · rcases h.result with hsc | ht
      · exact refusal_of_claimFee hc hsc
      · rw [isTecClaim_of_refused hpr.root hc] at ht
        cases ht
    · rcases hst.start_of_apply hb with ⟨hne, -⟩ | ⟨prior', balance, -, hpr', hpa, -⟩
      · exact absurd rfl hne
      obtain rfl : prior' = prior := some.inj (hpr'.root.symm.trans hpr.root)
      exact claimFee_not_refused hpr hs hpa (h.2 ⟨s, hb, hsi⟩) hc

variable (n : UInt32)

def numberedRoot : AccountRoot where
  sequence := n
  balance := .ofDrops 1000

def numberedIdle : STTx := { idleTx with sequence := n }

def numberedProcessor : AnyProcessor :=
  ⟨settings, instSubChargeSettings, SetAccount.processor sampleEnv (numberedIdle n) { }⟩

def numberedView : OpenView :=
  sampleView (AList.insert (.account 1) (numberedRoot n) ∅)

theorem first_advances : ∃ out,
    operate sampleEnv (numberedIdle 1) (numberedProcessor 1).processor (numberedView 1) 0 =
      .ok out ∧ out.didApply = true ∧
    Advanced (numberedProcessor 1).processor (numberedIdle 1) (numberedView 1) 0
      (numberedRoot 1) out := by
  obtain ⟨out, run, ha⟩ := exists_ok_of_toOption_map
    (show (operate sampleEnv (numberedIdle 1) (numberedProcessor 1).processor (numberedView 1) 0
      ).toOption.map Outcome.didApply = some true by decide +kernel)
  obtain ⟨prior, hpi, hi⟩ := (advances_iff sampleEnv (numberedIdle 1) (numberedProcessor 1)
    (numberedView 1) 0 out rfl rfl rfl run).2 ha
  obtain rfl : numberedRoot 1 = prior := some.inj hpi
  exact ⟨out, run, ha, hi.mpr ⟨by decide, fun _ h0 => by cases h0⟩⟩

/-- After the last number comes zero. -/
theorem last_starts_again : ∃ out,
    operate sampleEnv (numberedIdle 4294967295) (numberedProcessor 4294967295).processor
      (numberedView 4294967295) 0 = .ok out ∧ out.didApply = true ∧
    ¬ Advanced (numberedProcessor 4294967295).processor (numberedIdle 4294967295)
      (numberedView 4294967295) 0 (numberedRoot 4294967295) out := by
  obtain ⟨out, run, hse⟩ := exists_ok_of_toOption_map
    (show (operate sampleEnv (numberedIdle 4294967295) (numberedProcessor 4294967295).processor
      (numberedView 4294967295) 0).toOption.map (fun out => (out.didApply,
        (out.view.ledger.lookup (.account 1)).map AccountRoot.sequence)) = some (true, some 0) by
      decide +kernel)
  obtain ⟨ha, hn⟩ := Prod.mk.inj hse
  refine ⟨out, run, ha, fun h => ?_⟩
  obtain ⟨root, hr, hs⟩ := h.sequence
  rw [show (numberedIdle 4294967295).account = 1 from rfl] at hr
  rw [hr] at hn
  rw [some.inj hn] at hs
  cases hs

end Transactor

end Sand
