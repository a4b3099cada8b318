import Sand.Dividend.Effect
import Sand.Tx.Standard

/-!
# Signatures of applied transactions

A transaction is meant to be applied only if its signature is good.
-/

namespace Sand

open Transactor Dividend

variable {env : Env} {tx : STTx} {o : OpenView} {flags : Flags}

/-- It carries a signature accepted for its content. -/
def Signed (env : Env) (tx : STTx) (flags : Flags) : Prop :=
  tx.checkSign env (flags.has tapENABLE_TESTING)

theorem signed_of_applied {p : AnyProcessor} {out : Outcome}
    (hpr : PreChecked env tx p.processor.preCheck) (hfl : flags.has tapNO_CHECK_SIGN = false)
    (hk : tx.sigState ≠ some true) (h : Applied env tx p.processor o flags out) :
    Signed env tx flags := by
  obtain ⟨s1, run⟩ := h.preCheck hpr
  have hr : refusesSignature env tx flags tx.sigState = false := hpr.signature run hk
  unfold refusesSignature at hr
  rw [hfl] at hr
  simp only [Bool.not_false, Bool.true_and, Bool.or_eq_false_iff, Bool.not_eq_false'] at hr
  exact hr.2

/-- Applied transactions are signed, with one exception: a dividend that takes effect is applied
whatever its signature. -/
theorem applied_signed_iff (hfl : flags.has tapNO_CHECK_SIGN = false)
    (hch : tx.body.isChange = false) (hk : tx.sigState ≠ some true) :
    (∀ out, apply env tx o flags = some out → out.didApply = true → Signed env tx flags) ↔
      ∀ fields, tx.body = .dividend fields → Dividend.Takes env tx fields o →
        Signed env tx flags := by
  constructor
  · intro h fields hb ht
    obtain ⟨out, hap, ha⟩ := (takes_iff hb).mp ht
    exact h out hap ha
  · intro h out hap ha
    by_cases hd : tx.body.isDividend
    · obtain ⟨fields, hb⟩ := TxBody.isDividend_iff.mp hd
      exact h fields hb ((takes_iff hb).mpr ⟨out, hap, ha⟩)
    · obtain ⟨p, hp, _, hc⟩ := applied_of_invoke (invoke_of_apply hap ha) ha
      have hs := standard_of_processorOf hp hch (by simpa using hd)
      exact signed_of_applied hs.preCheck hfl hk hc

/-- It names the key and carries no signature. -/
def forgedDividend : STTx :=
  sampleDividend ⟨some DividendMaster.DivType_Start, some 5, some 100, none⟩

theorem forgedDividend_applied :
    forgedDividend.body.isChange = false ∧ forgedDividend.sigState ≠ some true ∧
      (∃ out, apply sampleEnv forgedDividend (sampleView ∅) 0 = some out ∧ out.didApply = true) ∧
      ¬ Signed sampleEnv forgedDividend 0 := by
  refine ⟨rfl, by decide, (takes_iff rfl).mp ?_, ?_⟩
  · exact takes_sampleDividend rfl rfl
  · unfold Signed
    decide

theorem applied_signed_iff_forgedDividend :
    (∀ out, apply sampleEnv forgedDividend (sampleView ∅) 0 = some out → out.didApply = true →
        Signed sampleEnv forgedDividend 0) ↔
      ∀ fields, forgedDividend.body = .dividend fields →
        Dividend.Takes sampleEnv forgedDividend fields (sampleView ∅) →
        Signed sampleEnv forgedDividend 0 :=
  applied_signed_iff (by decide) rfl (by decide)

end Sand
