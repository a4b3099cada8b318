import Sand.Security.Signature

/-!
# Authorization of applied transactions

A transaction is meant to be applied only if its key may act for the source account.
-/

namespace Sand

open Transactor STAmount Evolution OpenView

variable {env : Env} {tx : STTx} {o : OpenView} {flags : Flags}

/-- As it comes to check the signing key. -/
def presenting (tx : STTx) (o : OpenView) (flags : Flags) : TxState where
  view := o.fresh flags
  account := tx.account
  signingPubKey := tx.signingPubKey
  hasAuthKey := (o.ledger.lookup (.account tx.account)).any fun root => root.regularKey.isSome

/-- The signing key may act for the source account. -/
def Authorized (env : Env) (tx : STTx) (o : OpenView) (flags : Flags) : Prop :=
  ((checkSign env tx).run (presenting tx o flags)).1 = .ok .tesSUCCESS

theorem authorized_iff {root : AccountRoot} (hfl : flags.has tapENABLE_TESTING = false)
    (hr : o.ledger.lookup (.account tx.account) = some root) :
    Authorized env tx o flags ↔
      singleSignResult env tx.account tx.signingPubKey root.regularKey.isSome (some root) =
        .ok .tesSUCCESS := by
  have hg : (presenting tx o flags).view.get (.account tx.account) = some root :=
    (get_fresh o flags _).trans hr
  have hau : (presenting tx o flags).hasAuthKey = root.regularKey.isSome := by
    simp only [presenting, hr]
    rfl
  rw [Authorized, checkSign_of_not_testing env tx hfl, run_checkSingleSign, hau,
    show (presenting tx o flags).view.get (.account (presenting tx o flags).account) = some root
      from hg]
  rfl

/-- It gets as far as its fee in a closed ledger, and is short. -/
structure ShortOfFee (env : Env) (tx : STTx) (o : OpenView) (flags : Flags) : Prop where
  id : tx.transactionID ≠ 0
  fresh : tx.transactionID ∉ o.txs
  closed : o.info.isOpen = false
  final : flags.has tapRETRY = false
  short : ∃ p root, processorOf env tx = some p ∧ Presented tx p.processor o flags root ∧
    seqRefusal tx ⟨o.info, o.fees, flags, o.txs⟩ root = none ∧
    root.balance.isPositive ∧ root.balance.lt tx.fee = .ok true

theorem authorized_of_checkSign {pri root : AccountRoot} {s s' : TxState} {ter : TER}
    (hfl : flags.has tapENABLE_TESTING = false)
    (hpi : o.ledger.lookup (.account tx.account) = some pri)
    (hr : uncharged root = uncharged pri)
    (h : Sourced tx o flags pri root s) (run : (checkSign env tx).run s = (.ok ter, s')) :
    Refuses ter ∨ (ter = .tesSUCCESS ∧ Authorized env tx o flags) := by
  have hts : s.view.context.flags.has tapENABLE_TESTING = false := by
    rw [h.context]
    exact hfl
  have hg : s.view.get (.account s.account) = some root := by
    rw [← View.peek_fst, h.holding.peek]
  have hres := run_checkSingleSign env s
  rw [← checkSign_of_not_testing env tx hts, run, hg, h.account, h.signingPubKey,
    h.hasAuthKey] at hres
  have heq : singleSignResult env tx.account tx.signingPubKey pri.regularKey.isSome
      (some pri) = .ok ter := by
    refine Eq.trans ?_ hres.symm
    have hf : root.flags = pri.flags := by
      rw [show root.flags = (uncharged root).flags from rfl, hr]
      rfl
    have hk : root.regularKey = pri.regularKey := by
      rw [show root.regularKey = (uncharged root).regularKey from rfl, hr]
      rfl
    simp only [singleSignResult, AccountRoot.isFlag, hf, hk]
    rfl
  obtain rfl | ht := eq_or_ne ter .tesSUCCESS
  · exact .inr ⟨rfl, (authorized_iff hfl hpi).mpr heq⟩
  · exact .inl (refuses_singleSignResult heq ht)

theorem authorized_or_short {p : AnyProcessor} {out : Outcome}
    (hfl : flags.has tapENABLE_TESTING = false) (hp : processorOf env tx = some p)
    (hs : Standard env tx p.processor) (hid : tx.transactionID ≠ 0)
    (h : Applied env tx p.processor o flags out) :
    Authorized env tx o flags ∨ ShortOfFee env tx o flags := by
  -- the checks passed, or ended in a result that claims the fee
  have hc : ∀ {ter found s'}, Prepared env tx p.processor (initial tx o flags) (ter, found) s' →
      ¬ Refuses ter → (ter = .tesSUCCESS ∨ claimsFee flags ter) →
      tx.transactionID ∉ o.txs → Authorized env tx o flags ∨ ShortOfFee env tx o flags := by
    intro ter found s' hpr ht hfn hfr
    obtain ⟨_, prior, hpe, hc⟩ := hs.checked_of_prepared hpr ht
    cases hc with
    | refused hre => exact absurd hre ht
    | shortOfFee hse hco hpo hsh =>
      simp only [claimsFee, reduceCtorEq, false_or, Bool.or_eq_true, beq_iff_eq,
        Bool.and_eq_true, Bool.not_eq_true'] at hfn
      exact .inr ⟨hid, hfr, hco, hfn.2, p, prior, hp, hpe, hse, hpo, hsh⟩
    | judged _ _ hsr hsi =>
      rcases authorized_of_checkSign hfl hpe.root (uncharged_paidRoot tx _ _) hsr hsi with
        hre | ⟨_, ha⟩
      · exact absurd hre ht
      · exact .inl ha
  have hsu : ∀ {s o' v fee},
      (Transactor.apply env tx p.processor).run (initial tx o flags) = (.ok .tesSUCCESS, s) →
      finish o tx v fee = .ok o' → Authorized env tx o flags ∨ ShortOfFee env tx o flags := by
    intro s o' v fee run hfi
    rcases run_apply_iff.mp run with ⟨_, _, hne⟩ | ⟨_, _, hpr, _⟩
    · exact absurd rfl hne
    · exact hc hpr (fun hre => hre.2 rfl) (.inl rfl) (finish_eq_ok_iff.mp hfi).1
  cases h with
  | success run _ hfi => exact hsu run hfi
  | uncharged run _ _ hfi => exact hsu run hfi
  | claimed run hcl _ hfi =>
    have hfr := (finish_eq_ok_iff.mp hfi).1
    rcases run_apply_iff.mp run with ⟨_, hpr, hne⟩ | ⟨_, _, hpr, _⟩
    · rw [sizedResult_of_unwritten _ (hpr.unwritten (unwritten_fresh o flags))] at hcl
      have hte := isTecClaim_of_claimsFee hcl
      refine hc hpr (fun hre => ?_) (.inr hcl) hfr
      rw [hre.1] at hte
      cases hte
    · exact hc hpr (fun hre => hre.2 rfl) (.inl rfl) hfr

/-- Short of its fee it is applied, to claim the balance. -/
theorem ShortOfFee.applied (h : ShortOfFee env tx o flags) (hch : tx.body.isChange = false)
    (hd : tx.body.isDividend = false) :
    ∃ out, invoke env tx o flags = .ok out ∧ out.didApply ∧ out.ter = .tecINSUFF_FEE := by
  obtain ⟨hid, hfr, hco, hfn, p, root, hp, hpe, hse, hpo, hsh⟩ := h
  have hs := standard_of_processorOf hp hch hd
  obtain ⟨s, hsr, hpr⟩ := hs.prepared_of_presented hpe
  have h0 := isZero_eq_false_of_isPositive hpo
  have hn := (native_eq_of_lt hsh).trans hpe.fee.1
  have hfe := isZero_eq_false_of_lt hpo hpe.fee.2.1 hsh
  obtain ⟨s', hce⟩ := hs.run_checks_of_short hpe.fee hsr hse hco hpo hfe hsh
  have run := run_apply_iff.mpr (.inl ⟨true, hpr hce, by decide⟩)
  have hres : sizedResult .tecINSUFF_FEE s'.view = .tecINSUFF_FEE := sizedResult_of_unwritten _
    ((hpr hce).unwritten (unwritten_fresh o flags))
  obtain ⟨rest, hrs⟩ := sub_self_eq_ok hn h0
  have hcl : claimsFee flags (sizedResult .tecINSUFF_FEE s'.view) := by
    rw [hres, claimsFee, hfn]
    rfl
  have hcr : (claimFee tx).run (o.fresh flags) = _ := run_claimFee_of_short hpe.root
    (sequence_of_seqRefusal hse) hco h0 hsh hrs
  obtain ⟨o', hfi⟩ : ∃ o', finish o tx ((o.fresh flags).setItem (.account tx.account)
      (some (.modify, charged tx rest root))) root.balance = .ok o' :=
    ⟨_, finish_eq_ok_iff.mpr ⟨hfr, fun _ => ⟨hn, (isPositive_iff.mp hpo).2⟩, rfl⟩⟩
  have hop := operate_of_claimed hid run (by decide) hcl hcr hfi
  have hi : invoke env tx o flags = .ok ⟨sizedResult .tecINSUFF_FEE s'.view, true, o'⟩ := by
    simp only [invoke, hp]
    exact hop
  exact ⟨_, hi, rfl, hres⟩

/-- Applied transactions are authorized, with one exception: one that is short of its fee is
applied whoever has signed it. -/
theorem applied_authorized_iff (hfl : flags.has tapENABLE_TESTING = false)
    (hch : tx.body.isChange = false) (hd : tx.body.isDividend = false) :
    (∀ out, invoke env tx o flags = .ok out → out.didApply = true → Authorized env tx o flags) ↔
      (ShortOfFee env tx o flags → Authorized env tx o flags) := by
  constructor
  · intro h hsh
    obtain ⟨out, hi, hap, _⟩ := hsh.applied hch hd
    exact h out hi hap
  · intro h out hi hap
    obtain ⟨p, hp, hid, hca⟩ := applied_of_invoke hi hap
    have hs := standard_of_processorOf hp hch hd
    rcases authorized_or_short hfl hp hs hid hca with ha | hsh
    · exact ha
    · exact h hsh

/-- For account 1, signed by the key of account 9. -/
def foreignTx : STTx :=
  { sampleTx (.accountSet {}) with signingPubKey := [9], txnSignature := some [9] }

theorem foreignTx_shortOfFee : ShortOfFee sampleEnv foreignTx (sampleView poorLedger) 0 where
  id := by decide
  fresh := by decide
  closed := rfl
  final := by decide
  short := by
    refine ⟨_, _, rfl, ⟨⟨by decide, by decide, by decide⟩, ⟨_, rfl⟩, by decide,
      AList.lookup_insert _⟩, by decide, by decide, by decide⟩

theorem foreignTx_applied : foreignTx.body.isChange = false ∧ foreignTx.body.isDividend = false ∧
      (∃ out, invoke sampleEnv foreignTx (sampleView poorLedger) 0 = .ok out ∧
        out.didApply = true ∧ out.ter = .tecINSUFF_FEE) ∧
      ¬ Authorized sampleEnv foreignTx (sampleView poorLedger) 0 := by
  refine ⟨rfl, rfl, foreignTx_shortOfFee.applied rfl rfl, ?_⟩
  rw [authorized_iff (by decide) (AList.lookup_insert _)]
  decide

theorem applied_authorized_iff_foreignTx :
    (∀ out, invoke sampleEnv foreignTx (sampleView poorLedger) 0 = .ok out →
        out.didApply = true → Authorized sampleEnv foreignTx (sampleView poorLedger) 0) ↔
      (ShortOfFee sampleEnv foreignTx (sampleView poorLedger) 0 →
        Authorized sampleEnv foreignTx (sampleView poorLedger) 0) :=
  applied_authorized_iff (by decide) rfl rfl

end Sand
