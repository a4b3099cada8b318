import Sand.Open.Sequence

/-!
# The identifier of an account's last transaction

A root may hold the identifier of the account's last transaction, and a transaction demand to
follow it.
-/

namespace Sand

open LedgerM Evolution Transactor View SetAccount Option

/-- The transaction removes the field from its account. -/
def TxBody.clearsTxnID : TxBody → Bool
  | .accountSet fields => fields.clearFlag == asfAccountTxnID
  | _ => false

/-! ## The body of an `AccountSet` -/

namespace SetAccount

variable {tx : STTx} {fields : AccountSetTx} {root : AccountRoot}

theorem refusal_ne_success {s : TxState} {ter : TER}
    (h : (flagRefusal tx fields s root).or (profileRefusal fields) = some ter) :
    ter ≠ .tesSUCCESS := by
  rintro rfl
  unfold flagRefusal profileRefusal at h
  split_ifs at h <;> cases h

theorem view_of_success {w : View} {s s' : TxState}
    (hv : s.view = w.setItem (.account s.account) (some (.modify, root)))
    (h : (doApply tx fields).run s = (.ok .tesSUCCESS, s')) :
    s'.view = w.setItem (.account s.account) (some (.modify, changed tx fields root)) := by
  obtain ⟨root', v1, hl, h3⟩ := TxM.run_source_eq_ok h
  have heq : v1 = s.view := by
    have hpk := peek_setItem w (.account s.account) (.modify, root)
    rw [← hv] at hpk
    exact (congrArg Prod.snd hl).symm.trans (congrArg Prod.snd hpk)
  cases hre : (flagRefusal tx fields s root').or (profileRefusal fields) with
  | some refusal =>
    simp only [hre] at h3
    cases h3
    exact absurd rfl (refusal_ne_success hre)
  | none =>
    simp only [hre] at h3
    obtain ⟨_, s3, hal, h4⟩ := MonoM.bind_eq_ok.mp h3
    cases hal
    cases h4
    rw [heq, hv]
    exact alter_setItem_modify _ _ _ _

end SetAccount

/-! ## Applied transactions -/

namespace Transactor

variable {env : Env} {tx : STTx} {o : OpenView} {flags : Flags}

theorem lookup_commit_modified {w : View} {k : Key} (sle : Entry k) :
    (w.setItem k (some (.modify, sle))).commit.lookup k = some sle := by
  have hwr : (Action.modify, sle).1 ≠ .cache := nofun
  rw [lookup_commit_of_item (lookup_setItem _ _ _) hwr, get_setItem_some]
  rfl

def TakesEffect {E : Evolution} [Sub charge E] (env : Env) (tx : STTx) (P : Processor E)
    (o : OpenView) (flags : Flags) : Prop :=
  ∃ s, (apply env tx P).run (initial tx o flags) = (.ok .tesSUCCESS, s) ∧ s.view.size ≤ oversize

/-- The root holds the identifier; demands for another are rejected. -/
def Follows (id : UInt256) (root : AccountRoot) : Prop :=
  root.accountTxnID = some id ∧
    ∀ (next : STTx) (demanded : UInt256) (s : TxState), next.accountTxnID = some demanded →
      demanded ≠ id → s.view.get (.account s.account) = some root →
        ∃ ter s', (checkSeq next).run s = (.ok ter, s') ∧ ter ≠ .tesSUCCESS

variable {root : AccountRoot}

theorem follows_iff {id : UInt256} : Follows id root ↔ root.accountTxnID = some id := by
  refine ⟨And.left, fun hr => ⟨hr, fun next demanded s hde hne hg => ?_⟩⟩
  have hw : (next.accountTxnID.any fun id => root.accountTxnID.getD 0 != id) := by
    simp [hde, hr, Ne.symm hne]
  cases hrf : seqRefusal next s.view.context root with
  | none =>
    unfold seqRefusal at hrf
    split_ifs at hrf
  | some ter =>
    have run : (checkSeq next).run s =
        (.ok ter, { s with view := (s.view.peek (.account s.account)).2 }) := by
      unfold checkSeq
      simp only [MonoM.run_bind, PreCheckM.run_liftM_check, PreCheckM.run_members,
        MonoM.bindRun_ok, CheckM.run_peek, peek_fst, hg, hrf]
      rfl
    exact ⟨ter, _, run, (refuses_seqRefusal _ root ter hrf).2⟩

theorem lookup_commit_of_kept {α : Type} {f : AccountRoot → α} {pri : AccountRoot} {v : View}
    (hpr : o.ledger.lookup (.account tx.account) = some pri)
    (h : View.Evolves (kept f)
      ((o.fresh flags).setItem (.account tx.account) (some (.modify, root))) v) :
    ∃ root', v.commit.lookup (.account tx.account) = some root' ∧
      f root'.settings = f root.settings := by
  have hwr : v.Writes (.account tx.account) := by
    refine h.writes _ ?_ ((writes_setItem _ _ _).mpr nofun)
    exact ne_of_eq_of_ne hpr nofun
  have hk := h.entries (.account tx.account)
  rw [get_setItem_some] at hk
  obtain ⟨root', hr', heq⟩ := hk root rfl
  exact ⟨root', hwr.lookup_commit.trans hr', heq⟩

variable {s : TxState}

theorem txnID_of_success {p : AnyProcessor} (hp : processorOf env tx = some p)
    (hch : tx.body.isChange = false) (hd : tx.body.isDividend = false)
    {prior : AccountRoot} (hpr : o.ledger.lookup (.account tx.account) = some prior)
    (hh : prior.accountTxnID.isSome)
    (run : (apply env tx p.processor).run (initial tx o flags) = (.ok .tesSUCCESS, s)) :
    ∃ root, s.view.commit.lookup (.account tx.account) = some root ∧
      root.accountTxnID = if tx.body.clearsTxnID then none else some tx.transactionID := by
  have hsd := standard_of_processorOf hp hch hd
  rcases hsd.start_of_apply run with
    ⟨hne, _⟩ | ⟨prior', balance, s0, hpe, _, hac, _, hv, _, hb⟩
  · exact absurd rfl hne
  obtain rfl : prior' = prior := some.inj (hpe.root.symm.trans hpr)
  have hpa : (paidRoot tx balance prior').accountTxnID = some tx.transactionID := by
    obtain ⟨old, hold⟩ := isSome_iff_exists.mp hh
    simp [paidRoot, useSequence, hold]
  by_cases hst : ∃ fields, tx.body = .accountSet fields
  · obtain ⟨fields, hfs⟩ := hst
    unfold processorOf at hp
    rw [hfs] at hp
    cases hp
    rw [← hac] at hv
    rw [view_of_success hv hb, hac, hfs]
    refine ⟨_, lookup_commit_modified _, ?_⟩
    simp [changed, TxBody.clearsTxnID, hpa, beq_iff_eq, getD_some, ite_self]
  · have hk : View.Evolves (kept AccountRoot.accountTxnID) s0.view s.view :=
      kept_of_processorOf hp hch hd (fun _ _ _ => rfl)
        (fun fields hfs => absurd ⟨fields, hfs⟩ hst) hb
    rw [hv] at hk
    obtain ⟨root, hr, heq⟩ := lookup_commit_of_kept hpr hk
    refine ⟨root, hr, ?_⟩
    have hce : tx.body.clearsTxnID = false := by
      unfold TxBody.clearsTxnID
      split
      · next fields hfs => exact absurd ⟨fields, hfs⟩ hst
      · rfl
    rw [hce]
    exact heq.trans hpa

theorem isTecClaim_of_refused {rf : TER} {v : View}
    (hr : o.ledger.lookup (.account tx.account) = some root)
    (h : (claimFee tx).run (o.fresh flags) = (.ok (.error rf), v)) :
    rf.isTecClaim = false := by
  rw [run_claimFee hr] at h
  dsimp only at h
  split at h
  · cases h
    rfl
  split at h
  · cases h
    rfl
  split at h
  · cases h
  · cases h
    rfl
  · split at h
    · cases h
    · split at h <;> cases h

theorem not_takesEffect {E : Evolution} [Sub charge E] {P : Processor E} {ter : TER}
    (run : (apply env tx P).run (initial tx o flags) = (.ok ter, s))
    (hcl : claimsFee flags (sizedResult ter s.view)) :
    ¬ TakesEffect env tx P o flags := by
  rintro ⟨s', run', hs⟩
  obtain ⟨ht, rfl⟩ := Prod.mk.inj (run.symm.trans run')
  cases ht
  rw [sizedResult_of_size_le _ hs, claimsFee_success] at hcl
  cases hcl

/-- After an applied transaction its account holds its identifier exactly if it took its full
effect and did not remove the field, or only its fee was claimed and the identifier was there
already. -/
theorem follows_after_applied_iff (env : Env) (tx : STTx) (p : AnyProcessor) (o : OpenView)
    (flags : Flags) (out : Outcome) (prior : AccountRoot) (hp : processorOf env tx = some p)
    (hch : tx.body.isChange = false) (hd : tx.body.isDividend = false)
    (hpr : o.ledger.lookup (.account tx.account) = some prior)
    (hh : prior.accountTxnID.isSome = true) (run : operate env tx p.processor o flags = .ok out)
    (ha : out.didApply = true) (ht : out.ter = .tesSUCCESS ∨ out.ter.isTecClaim = true) :
    (∃ root, out.view.ledger.lookup (.account tx.account) = some root ∧
        Follows tx.transactionID root) ↔
      (TakesEffect env tx p.processor o flags → tx.body.clearsTxnID = false) ∧
        (¬ TakesEffect env tx p.processor o flags →
          prior.accountTxnID = some tx.transactionID) := by
  simp only [follows_iff]
  obtain ⟨_, ha⟩ := applied_of_operate run ha
  cases ha with
  | success hb hs hfi =>
    have hta : TakesEffect env tx p.processor o flags := ⟨_, hb, hs⟩
    obtain ⟨root, hr, hid⟩ := txnID_of_success hp hch hd hpr hh hb
    rw [ledger_of_finish hfi, hr]
    cases hce : tx.body.clearsTxnID <;> simp [hid, hce, hta]
  | claimed hb hcl hc hfi =>
    have hn := not_takesEffect hb hcl
    obtain ⟨root, _, rest, hr, _, _, _, rfl⟩ := claimFee_charged hc
    obtain rfl : prior = root := some.inj (hpr.symm.trans hr)
    rw [ledger_of_finish hfi, lookup_commit_modified]
    simp [charged, hn]
  | uncharged _ _ hc _ =>
    rcases ht with hsu | hte
    · exact absurd hsu (refusal_of_claimFee hc)
    · rw [isTecClaim_of_refused hpr hc] at hte
      cases hte

def trackedLedger (drops : UInt64) : Ledger :=
  AList.insert (.account 1) { sequence := 1, balance := .ofDrops drops, accountTxnID := some 7 } ∅

def idleTx : STTx := { sampleTx (.accountSet { }) with transactionID := 8 }

def idleProcessor : AnyProcessor :=
  ⟨settings, instSubChargeSettings, processor sampleEnv idleTx { }⟩

def Outcome.seen (out : Outcome) : TER × Bool × Option UInt256 :=
  (out.ter, out.didApply, (out.view.ledger.lookup (.account 1)).bind AccountRoot.accountTxnID)

theorem idleTx_followed : ∃ out root,
    operate sampleEnv idleTx idleProcessor.processor (sampleView (trackedLedger 1000)) 0 = .ok out ∧
    out.view.ledger.lookup (.account 1) = some root ∧ Follows 8 root ∧
    TakesEffect sampleEnv idleTx idleProcessor.processor (sampleView (trackedLedger 1000)) 0 := by
  obtain ⟨out, run, hse⟩ := exists_ok_of_toOption_map
    (show (operate sampleEnv idleTx idleProcessor.processor (sampleView (trackedLedger 1000)) 0
      ).toOption.map Outcome.seen = some (.tesSUCCESS, true, some 8) by decide +kernel)
  obtain ⟨ht, ha, hid⟩ := Prod.mk.inj hse |>.imp_right Prod.mk.inj
  obtain ⟨root, hr, hr'⟩ := bind_eq_some_iff.mp hid
  have hf : Follows 8 root := follows_iff.mpr hr'
  have hi := follows_after_applied_iff sampleEnv idleTx idleProcessor
    (sampleView (trackedLedger 1000)) 0 out _ rfl rfl rfl rfl rfl run ha (.inl ht)
  refine ⟨out, root, run, hr, hf, ?_⟩
  by_contra hn
  cases (hi.mp ⟨root, hr, hf⟩).2 hn

/-- Five drops do not pay the fee, and are claimed. -/
theorem idleTx_not_followed : ∃ out,
    operate sampleEnv idleTx idleProcessor.processor (sampleView (trackedLedger 5)) 0 = .ok out ∧
    out.didApply = true ∧ out.ter = .tecINSUFF_FEE ∧
    ¬ ∃ root, out.view.ledger.lookup (.account 1) = some root ∧ Follows 8 root := by
  obtain ⟨out, run, hse⟩ := exists_ok_of_toOption_map
    (show (operate sampleEnv idleTx idleProcessor.processor (sampleView (trackedLedger 5)) 0
      ).toOption.map Outcome.seen = some (.tecINSUFF_FEE, true, some 7) by decide +kernel)
  obtain ⟨ht, ha, hid⟩ := Prod.mk.inj hse |>.imp_right Prod.mk.inj
  refine ⟨out, run, ha, ht, ?_⟩
  rintro ⟨root, hr, hf⟩
  rw [hr] at hid
  cases hid.symm.trans hf.1

end Transactor

end Sand
