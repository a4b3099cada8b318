import Sand.Tx.Charge

/-!
# Payments to oneself

The source account is compared with the destination before it is set.
-/

namespace Sand.Payment

open Transactor PreCheckM MonoM

section

variable (tx : STTx) (fields : PaymentTx)

/-- From an account to itself, in one currency and without paths. -/
def Redundant : Prop :=
  fields.destination = tx.account ∧ fields.paths = none ∧
    (fields.sendMax.getD fields.amount).getCurrency = fields.amount.getCurrency

def refusedEarlier : Bool :=
  tx.flags.has tfPaymentMask ||
    match maxSourceAmount fields 0 with
    | .error _ => true
    | .ok maxSource =>
      !fields.amount.isLegalNet || !maxSource.isLegalNet || fields.destination == 0 ||
        fields.sendMax.isSome && !maxSource.isPositive || !fields.amount.isPositive ||
        maxSource.getCurrency == badCurrency || fields.amount.getCurrency == badCurrency

end

variable {env : Env} {tx : STTx} {fields : PaymentTx} {o : OpenView} {flags : Flags}

theorem refusedEarlier_of_preCheck {s s' : TxState} (h0 : s.account = 0)
    (h : (preCheck env tx fields).run s = (.ok .tesSUCCESS, s')) :
    refusedEarlier tx fields = false := by
  obtain ⟨_, ht⟩ | ⟨hfl, maxSource, hma, hw⟩ := preCheck_cases h
  · cases ht
  rw [h0] at hma hw
  have hno := refusal_eq_none (refuses_amountRefusal tx fields 0 maxSource) hw
  unfold amountRefusal at hno
  simp only [reduceCtorEq, ite_eq_iff, not_or, Bool.or_eq_true, Bool.not_eq_true',
    Bool.not_eq_false] at hno
  unfold refusedEarlier
  grind

theorem preCheck_ne_redundant {s s' : TxState} (h0 : s.account = 0) :
    (preCheck env tx fields).run s ≠ (.ok .temREDUNDANT, s') := by
  intro h
  obtain ⟨_, ht⟩ | ⟨_, maxSource, _, hw⟩ := preCheck_cases h
  · cases ht
  rw [h0] at hw
  unfold preCheckWith at hw
  simp only [run_bind, run_context, bindRun_ok] at hw
  cases hr : amountRefusal tx fields 0 maxSource s.view.context with
  | some refused =>
    simp only [hr] at hw
    cases hw
    have hm : fields.deliverMin.bind (deliverMinRefusal tx fields s.view.context) ≠
        some .temREDUNDANT := by
      unfold deliverMinRefusal
      cases fields.deliverMin <;> grind
    unfold amountRefusal at hr
    simp only [ite_eq_iff, Option.some.injEq, reduceCtorEq, and_false, false_or, or_false,
      and_true, hm] at hr
    obtain ⟨_, hd, _, _, _, h0, _⟩ := hr
    exact hd h0.symm
  | none =>
    simp only [hr] at hw
    unfold Transactor.preCheck at hw
    simp only [run_bind, run_preCheckAccount, bindRun_ok, run_ite, run_pure,
      run_preCheckSigningKey] at hw
    grind

/-- A payment to oneself in one currency without paths is refused as redundant, or by an earlier
check, exactly when an earlier check refuses it: the check for redundancy never does. -/
theorem redundant_refused_iff (hb : tx.body = .payment fields) :
    (Redundant tx fields → (∀ out, apply env tx o flags = some out → out.didApply = false) ∧
        ((∃ s, (preCheck env tx fields).run (initial tx o flags) = (.ok .temREDUNDANT, s)) ∨
          refusedEarlier tx fields)) ↔
      (Redundant tx fields → refusedEarlier tx fields) := by
  refine imp_congr_right fun _ => ⟨?_, fun he => ⟨fun out hap => ?_, .inr he⟩⟩
  · rintro ⟨_, ⟨s, run⟩ | he⟩
    · exact absurd run (preCheck_ne_redundant rfl)
    · exact he
  · by_contra ha
    rw [Bool.not_eq_false] at ha
    obtain ⟨p, hp, _, h⟩ := applied_of_invoke (invoke_of_apply hap ha) ha
    simp only [processorOf, hb, Option.some.injEq] at hp
    subst hp
    obtain ⟨s, run⟩ := h.preCheck (preChecked env tx fields)
    have hno := refusedEarlier_of_preCheck rfl run
    rw [he] at hno
    cases hno

def selfTx (drops : UInt64) : STTx :=
  sampleTx (.payment { destination := 1, amount := .ofDrops drops })

def selfLedger : Ledger :=
  AList.insert (.account 1) { sequence := 1, balance := .ofDrops 1000 } ∅

theorem selfTx_applied : Redundant (selfTx 300) { destination := 1, amount := .ofDrops 300 } ∧
      (apply sampleEnv (selfTx 300) (sampleView selfLedger) 0).any (·.didApply) := by
  refine ⟨⟨rfl, rfl, rfl⟩, ?_⟩
  decide +kernel

theorem selfTx_zero_refused : Redundant (selfTx 0) { destination := 1, amount := .ofDrops 0 } ∧
      ((∀ out, apply sampleEnv (selfTx 0) (sampleView selfLedger) 0 = some out →
          out.didApply = false) ∧
        ((∃ s, (preCheck sampleEnv (selfTx 0) { destination := 1, amount := .ofDrops 0 }).run
            (initial (selfTx 0) (sampleView selfLedger) 0) = (.ok .temREDUNDANT, s)) ∨
          refusedEarlier (selfTx 0) { destination := 1, amount := .ofDrops 0 })) :=
  ⟨⟨rfl, rfl, rfl⟩, (redundant_refused_iff rfl).mpr (fun _ => by decide) ⟨rfl, rfl, rfl⟩⟩

end Sand.Payment
