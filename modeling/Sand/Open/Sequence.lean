import Sand.Tx.KeptSettings

/-!
# Sequence numbers

A transaction is applied only with its account's number, which is one higher afterwards.
-/

namespace Sand

open LedgerM STAmount View

namespace Evolution

abbrev numbered : Evolution := kept AccountRoot.sequence

end Evolution

open Evolution Transactor

theorem numbered_of_processorOf {env : Env} {tx : STTx} {p : AnyProcessor}
    (hp : processorOf env tx = some p) (hch : tx.body.isChange = false)
    (hd : tx.body.isDividend = false) {s s' : TxState} {ter : TER}
    (h : p.processor.doApply.run s = (.ok ter, s')) : View.Evolves numbered s.view s'.view := by
  exact kept_of_processorOf hp hch hd (fun _ _ _ => rfl) (fun _ _ _ => rfl) h

/-! ## Applied transactions -/

namespace Transactor

variable {env : Env} {tx : STTx} {E : Evolution} {P : Processor E} {o : OpenView} {flags : Flags}
  [Sub charge E]

/-- What succeeds or claims its fee has its account's number. -/
theorem Standard.presented_of_run (hst : Standard env tx P) {ter : TER} {s : TxState}
    (run : (apply env tx P).run (initial tx o flags) = (.ok ter, s))
    (hte : ter = .tesSUCCESS ∨ claimsFee flags (sizedResult ter s.view)) :
    ∃ prior, Presented tx P o flags prior ∧ prior.sequence = tx.sequence := by
  obtain ⟨ter', found, s', hpe, hps⟩ : ∃ ter' found s',
      Prepared env tx P (initial tx o flags) (ter', found) s' ∧ ¬ Refuses ter' := by
    rcases run_apply_iff.mp run with ⟨found, hpe, hne⟩ | ⟨found, s1, hpe, _⟩
    · refine ⟨ter, found, s, hpe, fun hre => ?_⟩
      have hcl := hte.resolve_left hne
      -- the checks write nothing, so the size of the view is no matter
      rw [sizedResult_of_unwritten _ (hpe.unwritten (OpenView.unwritten_fresh o flags))] at hcl
      have ht := isTecClaim_of_claimsFee hcl
      rw [hre.1] at ht
      cases ht
    · exact ⟨.tesSUCCESS, found, s1, hpe, fun hre => hre.2 rfl⟩
  obtain ⟨_, prior, hpr, hck⟩ := hst.checked_of_prepared hpe hps
  refine ⟨prior, hpr, ?_⟩
  cases hck with
  | refused hre => exact absurd hre hps
  | shortOfFee hse _ _ _ => exact sequence_of_seqRefusal hse
  | judged hse _ _ _ => exact sequence_of_seqRefusal hse

/-- The number is used up, and no other has changed. -/
structure UsedUp (tx : STTx) (ledger ledger' : Ledger) : Prop where
  source : ∃ root, ledger'.lookup (.account tx.account) = some root ∧
    root.sequence = tx.sequence + 1
  others : ∀ id, id ≠ tx.account →
    numbered.rel (.account id) (ledger.lookup (.account id)) (ledger'.lookup (.account id))

variable {v : View} {balance : STAmount}

/-- The charged root, with numbers kept, uses up the number. -/
theorem usedUp_of_evolves {pri root : AccountRoot}
    (hpi : o.ledger.lookup (.account tx.account) = some pri)
    (hr : root.sequence = tx.sequence + 1)
    (h : View.Evolves numbered
      ((o.fresh flags).setItem (.account tx.account) (some (.modify, root))) v) :
    UsedUp tx o.ledger v.commit := by
  constructor
  · have hw : v.Writes (.account tx.account) := by
      refine h.writes _ ?_ ((writes_setItem _ _ _).mpr nofun)
      exact ne_of_eq_of_ne hpi nofun
    have hkp := h.entries (.account tx.account)
    rw [get_setItem_some] at hkp
    obtain ⟨root', hr', hs⟩ := hkp root rfl
    exact ⟨root', hw.lookup_commit.trans hr', hs.trans hr⟩
  · intro id hne
    have hke : Key.account id ≠ Key.account tx.account := fun heq => hne (Key.account.inj heq)
    rcases View.lookup_commit v (.account id) with hvi | hbs
    · have hkp := h.entries (.account id)
      rw [get_setItem_ne _ _ hke, OpenView.get_fresh] at hkp
      rwa [hvi]
    · rw [hbs, h.base, base_setItem]
      exact numbered.refl _ _

/-- Without a fee, the account has a positive balance. -/
def Chargeable (tx : STTx) (ledger : Ledger) : Prop :=
  tx.fee.isZero → ∀ root, ledger.lookup (.account tx.account) = some root → root.balance.isPositive

variable {fee : STAmount} {short : Bool}

theorem lt_of_isZero (h0 : balance.isZero) (hsi : fee.negative = false)
    (hf : fee.isZero = false) (h : balance.lt fee = .ok short) : short := by
  have hm : balance.mantissa = 0 := by
    by_contra hne
    unfold isZero signum at h0
    rw [if_neg hne] at h0
    split at h0 <;> cases h0
  have hne : fee.mantissa ≠ 0 := by
    intro hm
    simp [isZero, signum, hm] at hf
  unfold lt at h
  split_ifs at h
  cases h
  unfold ltCore
  cases hn : balance.negative <;> simp [hsi, hm, hne]

theorem not_lt_of_isPositive (hpo : balance.isPositive) (hsi : fee.negative = false)
    (hf : fee.isZero) (h : balance.lt fee = .ok short) : short = false := by
  have h0 : fee.mantissa = 0 := by
    by_contra hne
    simp [isZero, signum, hne, hsi] at hf
  have hba : balance.mantissa ≠ 0 ∧ balance.negative = false := by
    unfold isPositive signum at hpo
    split_ifs at hpo with hm hn
    · cases hpo
    · cases hpo
    · exact ⟨hm, by simpa using hn⟩
  unfold lt at h
  split_ifs at h
  cases h
  simp [ltCore, hsi, hba, h0]

variable {refusal : TER}

/-- At its number the fee is refused only for lack of funds. -/
theorem claimFee_refused {root : AccountRoot}
    (hr : o.ledger.lookup (.account tx.account) = some root)
    (hs : root.sequence = tx.sequence)
    (h : (claimFee tx).run (o.fresh flags) = (.ok (.error refusal), v)) :
    root.balance.isZero ∨ root.balance.lt tx.fee = .ok true := by
  rw [run_claimFee hr, hs] at h
  simp only [UInt32.lt_irrefl, ↓reduceIte] at h
  by_cases h0 : root.balance.isZero
  · exact .inl h0
  refine .inr ?_
  rw [if_neg h0] at h
  rcases hlt : root.balance.lt tx.fee with fault | (_ | _)
  · rw [hlt] at h
    by_cases ho : o.info.isOpen
    · rw [if_pos ho] at h
      cases h
    · rw [if_neg ho] at h
      cases h
  · simp only [hlt, ite_self] at h
    split at h <;> cases h
  · rfl

omit [Sub charge E] in
theorem claimFee_not_refused {pri : AccountRoot}
    (hpr : Presented tx P o flags pri) (hs : pri.sequence = tx.sequence)
    (hpa : Paid tx pri.balance balance) (hc : Chargeable tx o.ledger) :
    (claimFee tx).run (o.fresh flags) ≠ (.ok (.error refusal), v) := by
  intro run
  have hsi := hpr.fee.2.1
  rcases hpa with ⟨hf, _⟩ | ⟨hf, hlt, _⟩
  · have hpo := hc hf pri hpr.root
    rcases claimFee_refused hpr.root hs run with h0 | hsh
    · simp only [isPositive, isZero, decide_eq_true_eq, beq_iff_eq] at hpo h0
      omega
    · cases not_lt_of_isPositive hpo hsi hf hsh
  · rcases claimFee_refused hpr.root hs run with h0 | hsh
    · cases lt_of_isZero h0 hsi hf hlt
    · rw [hlt] at hsh
      cases hsh

/-- If applied, a chargeable transaction uses up its number. -/
theorem Standard.usedUp (hst : Standard env tx P)
    (hb : ∀ ⦃s s' : TxState⦄ ⦃ter : TER⦄, P.doApply.run s = (.ok ter, s') →
      View.Evolves numbered s.view s'.view) (hc : Chargeable tx o.ledger) {out : Outcome}
    (h : Applied env tx P o flags out) : UsedUp tx o.ledger out.view.ledger := by
  cases h with
  | success run _ hfi =>
    rw [ledger_of_finish hfi]
    rcases hst.start_of_apply run with
      ⟨hne, _⟩ | ⟨prior, balance, s, hpr, _, _, _, hv, _, run⟩
    · exact absurd rfl hne
    have hkp := hb run
    rw [hv] at hkp
    exact usedUp_of_evolves hpr.root rfl hkp
  | claimed _ _ hcr hfi =>
    rw [ledger_of_finish hfi]
    obtain ⟨root, _, rest, hr, _, _, _, rfl⟩ := claimFee_charged hcr
    exact usedUp_of_evolves hr (rfl : (charged tx rest root).sequence = _) (View.Evolves.refl _ _)
  | uncharged run _ hcr _ =>
    obtain ⟨prior, hpr, hs⟩ := hst.presented_of_run run (.inl rfl)
    rcases hst.start_of_apply run with ⟨hne, _⟩ | ⟨prior', balance, _, hpr', hpa, _⟩
    · exact absurd rfl hne
    obtain rfl : prior' = prior := Option.some.inj (hpr'.root.symm.trans hpr.root)
    exact absurd hcr (claimFee_not_refused hpr hs hpa hc)

end Transactor

namespace Event.Takes

variable {e : Event} {ledger ledger' : Ledger}

theorem usedUp (h : e.Takes ledger ledger') (hch : e.tx.body.isChange = false)
    (hd : e.tx.body.isDividend = false) (hc : Chargeable e.tx ledger) :
    UsedUp e.tx ledger ledger' := by
  obtain ⟨p, hp, _, ha⟩ := h.applied_cases
  have hst := standard_of_processorOf hp hch hd
  rw [← h.before] at hc ⊢
  rw [← h.after]
  exact hst.usedUp (fun _ _ _ run => numbered_of_processorOf hp hch hd run) hc ha

theorem numbered_dividend (h : e.Takes ledger ledger') {fs : DividendTx}
    (hb : e.tx.body = .dividend fs) (k : Key) :
    numbered.rel k (ledger.lookup k) (ledger'.lookup k) := by
  obtain ⟨_, k', sle, he, hsl, hne⟩ := h.dividend hb
  obtain rfl | hk := eq_or_ne k k'
  · rcases Dividend.effect_cases he with ⟨_, hwr⟩ |
      ⟨_, root, root', hr, _, hce, hwr⟩ | ⟨_, _, _, hwr⟩
    · cases hwr
      trivial
    · cases hwr
      rw [hr, hsl]
      refine kept_rel_some _ ?_
      rw [Dividend.credited_frame hce]
      rfl
    · cases hwr
      trivial
  · rw [hne k hk]
    exact numbered.refl k _

end Event.Takes

end Sand
