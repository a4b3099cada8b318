import Sand.Tx.Dispatch

/-!
# What passing the preliminary checks means

All preliminary checks are meant to end in those of `Transactor`.
-/

namespace Sand

open PreCheckM MonoM

namespace Transactor

theorem run_preCheckAccount (tx : STTx) (s : TxState) : (preCheckAccount tx).run s =
      (.ok (if tx.account = 0 then .temBAD_SRC_ACCOUNT else .tesSUCCESS),
        { s with account := tx.account }) :=
  rfl

theorem run_preCheckSigningKey (env : Env) (tx : STTx) (s : TxState) :
    (preCheckSigningKey env tx).run s =
      if s.sigState = some true then
        (.ok .tesSUCCESS, { s with signingPubKey := tx.signingPubKey })
      else if refusesSignature env tx s.view.context.flags s.sigState then
        (.ok .temINVALID, { s with signingPubKey := tx.signingPubKey, sigState := some false })
      else
        (.ok .tesSUCCESS, { s with signingPubKey := tx.signingPubKey, sigState := some true }) := by
  unfold preCheckSigningKey
  simp [run_bind, run_setMembers, run_members, bindRun_ok, run_ite, run_context, run_pure]

def Refuses (ter : TER) : Prop := ter.isTecClaim = false ∧ ter ≠ .tesSUCCESS

/-- They have come to the signing key, with the account set. -/
def ReachesSigningKey (env : Env) (tx : STTx) (s s' : TxState) (ter : TER) : Prop :=
  ∃ s1 : TxState, s1.account = tx.account ∧ s1.view = s.view ∧ s1.sigState = s.sigState ∧
    (preCheckSigningKey env tx).run s1 = (.ok ter, s')

/-- Preliminary checks that end in those of `Transactor`. -/
def PreChecked (env : Env) (tx : STTx) (pre : PreCheckM TER) : Prop :=
  ∀ ⦃s s' : TxState⦄ ⦃ter : TER⦄, pre.run s = (.ok ter, s') →
    Refuses ter ∨ ReachesSigningKey env tx s s' ter

variable {env : Env} {tx : STTx} {s s' : TxState}

theorem preCheckSigningKey_cases {ter : TER}
    (h : (preCheckSigningKey env tx).run s = (.ok ter, s')) :
    s'.account = s.account ∧ s'.signingPubKey = tx.signingPubKey ∧
      (ter = .temINVALID ∨ ter = .tesSUCCESS ∧ (s.sigState ≠ some true →
          refusesSignature env tx s.view.context.flags s.sigState = false)) := by
  rw [run_preCheckSigningKey] at h
  split_ifs at h with hkn hre
  · cases h
    exact ⟨rfl, rfl, .inr ⟨rfl, fun hne => absurd hkn hne⟩⟩
  · cases h
    exact ⟨rfl, rfl, .inl rfl⟩
  · cases h
    exact ⟨rfl, rfl, .inr ⟨rfl, fun _ => by simpa using hre⟩⟩

namespace PreChecked

variable {pre : PreCheckM TER}

section

variable (hp : PreChecked env tx pre)
include hp

theorem not_claim {ter : TER} (run : pre.run s = (.ok ter, s')) : ter.isTecClaim = false := by
  rcases hp run with ⟨hc, _⟩ | ⟨s1, _, _, _, hk⟩
  · exact hc
  · rcases (preCheckSigningKey_cases hk).2.2 with rfl | ⟨rfl, _⟩ <;> rfl

section

variable (run : pre.run s = (.ok .tesSUCCESS, s'))
include run

theorem reaches : ReachesSigningKey env tx s s' .tesSUCCESS := by
  rcases hp run with ⟨_, hne⟩ | hra
  · exact absurd rfl hne
  · exact hra

theorem account : s'.account = tx.account := by
  obtain ⟨s1, ha, _, _, hk⟩ := hp.reaches run
  exact (preCheckSigningKey_cases hk).1.trans ha

theorem signingPubKey : s'.signingPubKey = tx.signingPubKey := by
  obtain ⟨s1, _, _, _, hk⟩ := hp.reaches run
  exact (preCheckSigningKey_cases hk).2.1

theorem signature (hkn : s.sigState ≠ some true) :
    refusesSignature env tx s.view.context.flags s.sigState = false := by
  obtain ⟨s1, _, hv, hs, hk⟩ := hp.reaches run
  rcases (preCheckSigningKey_cases hk).2.2 with hb | ⟨_, hsi⟩
  · cases hb
  · rw [← hv, ← hs]
    exact hsi (by rwa [hs])

end

end

end PreChecked

theorem preChecked_preCheck : PreChecked env tx (preCheck env tx) := by
  intro s s' ter h
  unfold preCheck at h
  simp only [run_bind, run_preCheckAccount, bindRun_ok, run_ite, run_pure] at h
  by_cases h0 : tx.account = 0
  · simp only [h0, ↓reduceIte, ne_eq, reduceCtorEq, not_false_eq_true] at h
    cases h
    exact .inl ⟨rfl, by decide⟩
  · simp only [h0, ↓reduceIte, ne_eq, not_true_eq_false] at h
    exact .inr ⟨{ s with account := tx.account }, rfl, rfl, rfl, h⟩

variable {refusal : Context → Option TER}

theorem preChecked_preCheckWith (hrf : ∀ context, ∀ ter ∈ refusal context, Refuses ter) :
    PreChecked env tx (preCheckWith env tx refusal) := by
  intro s s' ter h
  unfold preCheckWith at h
  simp only [run_bind, run_context, bindRun_ok] at h
  cases hr : refusal s.view.context with
  | some refused =>
    simp only [hr] at h
    cases h
    exact .inl (hrf _ _ hr)
  | none =>
    simp only [hr] at h
    exact preChecked_preCheck h

theorem refusal_eq_none (hrf : ∀ context, ∀ ter ∈ refusal context, Refuses ter)
    (h : (preCheckWith env tx refusal).run s = (.ok .tesSUCCESS, s')) :
    refusal s.view.context = none := by
  unfold preCheckWith at h
  simp only [run_bind, run_context, bindRun_ok] at h
  cases hr : refusal s.view.context with
  | some refused =>
    simp only [hr] at h
    cases h
    exact absurd rfl (hrf _ _ hr).2
  | none => rfl

end Transactor

open Transactor

/-! ## The transaction types -/

theorem refuses_ite {c : Prop} [Decidable c] {refused : TER} {rest : Option TER}
    (hre : Refuses refused) (hrs : ∀ ter ∈ rest, Refuses ter) :
    ∀ ter ∈ (if c then some refused else rest), Refuses ter := by
  intro ter h
  split_ifs at h
  · cases h
    exact hre
  · exact hrs ter h

section Types

variable (env : Env) (tx : STTx)

theorem SetAccount.preChecked (fs : AccountSetTx) :
    PreChecked env tx (SetAccount.processor env tx fs).preCheck := by
  refine preChecked_preCheckWith fun context => ?_
  repeat refine refuses_ite ⟨rfl, nofun⟩ ?_
  exact nofun

theorem SetRegularKey.preChecked (regularKey : Option AccountID) :
    PreChecked env tx (SetRegularKey.processor env tx regularKey).preCheck := by
  refine preChecked_preCheckWith fun context => ?_
  exact refuses_ite ⟨rfl, nofun⟩ nofun

theorem SetTrust.preChecked (fs : TrustSetTx) :
    PreChecked env tx (SetTrust.processor env tx fs).preCheck := by
  refine preChecked_preCheckWith fun context => ?_
  repeat refine refuses_ite ⟨rfl, nofun⟩ ?_
  exact nofun

theorem CreateOffer.preChecked (fs : OfferCreateTx) :
    PreChecked env tx (CreateOffer.processor env tx fs).preCheck := by
  refine preChecked_preCheckWith fun context => ?_
  repeat refine refuses_ite ⟨rfl, nofun⟩ ?_
  exact nofun

theorem CancelOffer.preChecked (offerSequence : UInt32) :
    PreChecked env tx (CancelOffer.processor env tx offerSequence).preCheck := by
  refine preChecked_preCheckWith fun context => ?_
  repeat refine refuses_ite ⟨rfl, nofun⟩ ?_
  exact nofun

theorem refuses_disabledUnlessTesting (ctx : Context) :
    ∀ ter ∈ disabledUnlessTesting ctx, Refuses ter := by
  intro ter h
  unfold disabledUnlessTesting at h
  split_ifs at h <;> cases h
  exact ⟨rfl, nofun⟩

theorem CreateTicket.preChecked (fs : TicketCreateTx) :
    PreChecked env tx (CreateTicket.processor env tx fs).preCheck := by
  refine preChecked_preCheckWith fun context ter h => ?_
  unfold refusal at h
  rw [Option.mem_def, Option.or_eq_some_iff] at h
  rcases h with h | ⟨_, h⟩
  · exact refuses_disabledUnlessTesting context ter h
  · have he : ∀ ter ∈ (if fs.expiration = some 0 then some TER.temBAD_EXPIRATION
        else none), Refuses ter := refuses_ite ⟨rfl, nofun⟩ nofun
    exact he ter h

theorem CancelTicket.preChecked (ticketID : Key) :
    PreChecked env tx (CancelTicket.processor env tx ticketID).preCheck :=
  preChecked_preCheckWith refuses_disabledUnlessTesting

variable (fields : PaymentTx)

theorem Payment.refuses_deliverMinRefusal (ctx : Context) (deliverMin : STAmount) :
    ∀ ter ∈ deliverMinRefusal tx fields ctx deliverMin, Refuses ter := by
  repeat refine refuses_ite ⟨rfl, nofun⟩ ?_
  exact nofun

theorem Payment.refuses_amountRefusal (acc : AccountID) (maxSource : STAmount) (ctx : Context) :
    ∀ ter ∈ amountRefusal tx fields acc maxSource ctx, Refuses ter := by
  repeat refine refuses_ite ⟨rfl, nofun⟩ ?_
  intro ter h
  obtain ⟨deliverMin, _, h⟩ := Option.bind_eq_some_iff.mp h
  exact refuses_deliverMinRefusal tx fields ctx deliverMin ter h

theorem Payment.preCheck_cases {env : Env} {tx : STTx} {fs : PaymentTx} {s s' : TxState}
    {ter : TER} (h : (preCheck env tx fs).run s = (.ok ter, s')) :
    tx.flags.has tfPaymentMask ∧ ter = .temINVALID_FLAG ∨ tx.flags.has tfPaymentMask = false ∧
      ∃ maxSource, maxSourceAmount fs s.account = .ok maxSource ∧
        (preCheckWith env tx (amountRefusal tx fs s.account maxSource)).run s = (.ok ter, s') := by
  unfold preCheck at h
  split_ifs at h with hfl
  · cases h
    exact .inl ⟨hfl, rfl⟩
  obtain ⟨s1, s1', hme, h⟩ := bind_eq_ok.mp h
  obtain ⟨maxSource, s2, hm, h⟩ := bind_eq_ok.mp h
  obtain ⟨rfl, rfl⟩ : s = s1 ∧ s = s1' := by simpa using hme
  obtain ⟨hm, rfl⟩ := Prod.mk.inj hm
  exact .inr ⟨by simpa using hfl, maxSource, by simpa using hm, h⟩

theorem Payment.preChecked : PreChecked env tx (Payment.processor env tx fields).preCheck := by
  intro s s' ter h
  obtain ⟨_, rfl⟩ | ⟨_, maxSource, _, hw⟩ := preCheck_cases h
  · exact .inl ⟨rfl, nofun⟩
  · exact preChecked_preCheckWith (refuses_amountRefusal tx fields s.account maxSource) hw

theorem Payment.amount_of_preCheck {env : Env} {tx : STTx} {fs : PaymentTx} {s s' : TxState}
    (h : (preCheck env tx fs).run s = (.ok .tesSUCCESS, s')) :
    fs.amount.isLegalNet ∧ fs.amount.isPositive := by
  obtain ⟨_, ht⟩ | ⟨_, maxSource, _, hw⟩ := preCheck_cases h
  · cases ht
  have hno := refusal_eq_none (refuses_amountRefusal tx fs s.account maxSource) hw
  unfold amountRefusal at hno
  grind

theorem SetSignerList.refuses_operation (fs : SignerListSetTx) {ter : TER}
    (h : operation tx fs = .error ter) : Refuses ter := by
  have hva : ∀ account quorum signers,
      ∀ ter ∈ validateQuorumAndSignerEntries account quorum signers, Refuses ter := by
    intro account quorum signers
    repeat refine refuses_ite ⟨rfl, nofun⟩ ?_
    exact nofun
  unfold operation at h
  cases hes : fs.signerEntries with
  | none =>
    simp only [hes] at h
    split_ifs at h
    cases h
    exact ⟨rfl, nofun⟩
  | some entries =>
    simp only [hes] at h
    split_ifs at h
    · cases h
      exact ⟨rfl, nofun⟩
    split at h
    · next hre =>
        cases h
        exact hva _ _ _ _ hre
    · cases h

theorem SetSignerList.preChecked (fs : SignerListSetTx) :
    PreChecked env tx (SetSignerList.processor env tx fs).preCheck := by
  intro s s' ter h
  change (preCheck env tx fs).run s = (.ok ter, s') at h
  unfold preCheck preCheckFor at h
  simp only [run_bind, run_context, bindRun_ok] at h
  cases hd : disabledUnlessTesting s.view.context with
  | some refused =>
    simp only [hd] at h
    cases h
    exact .inl (refuses_disabledUnlessTesting _ _ hd)
  | none =>
    simp only [hd, run_bind, run_preCheckAccount, bindRun_ok] at h
    cases hop : operation tx fs with
    | error refused =>
      simp only [hop] at h
      cases h
      exact .inl (refuses_operation tx fs hop)
    | ok op =>
      simp only [hop, run_bind, run_setMembers, bindRun_ok] at h
      exact .inr ⟨{ s with account := tx.account, signerListOp := op }, rfl, rfl, rfl, h⟩

end Types

end Sand
