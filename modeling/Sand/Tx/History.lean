import Sand.Dividend.Effect
import Sand.Library.Run
import Sand.Tx.Standard

/-!
# Histories

A ledger changes by the transactions that are applied to it.
-/

namespace Sand

open Evolution Transactor Dividend

structure Event where
  env : Env
  tx : STTx
  flags : Flags
  before : OpenView
  out : Outcome

structure Event.Takes (e : Event) (ledger ledger' : Ledger) : Prop where
  before : e.before.ledger = ledger
  apply : apply e.env e.tx e.before e.flags = some e.out
  applied : e.out.didApply
  after : e.out.view.ledger = ledger'

abbrev History := Run Event.Takes

theorem settings_of_processorOf {env : Env} {tx : STTx} {p : AnyProcessor}
    (h : processorOf env tx = some p) (hd : tx.body.isDividend = false) :
    Sub p.evolution settings := by
  unfold processorOf at h
  cases hb : tx.body
  all_goals rw [hb] at h hd
  all_goals cases h
  case dividend => cases hd
  all_goals exact inferInstance

namespace Event.Takes

variable {e : Event} {ledger ledger' : Ledger}

theorem applied_cases (h : e.Takes ledger ledger') :
    ∃ p, processorOf e.env e.tx = some p ∧ e.tx.transactionID ≠ 0 ∧
      Applied e.env e.tx p.processor e.before e.flags e.out :=
  applied_of_invoke (invoke_of_apply h.apply h.applied) h.applied

theorem settings (h : e.Takes ledger ledger') (hd : e.tx.body.isDividend = false) (k : Key) :
    settings.rel k (ledger.lookup k) (ledger'.lookup k) := by
  obtain ⟨p, hp, _, ha⟩ := h.applied_cases
  have hsu := settings_of_processorOf hp hd
  have hr := hsu.sub k _ _ (ha.rel k)
  rwa [h.before, h.after] at hr

theorem dividend (h : e.Takes ledger ledger') {fs : DividendTx} (hb : e.tx.body = .dividend fs) :
    Dividend.Accepted e.env e.tx fs e.before ∧
      ∃ k sle, effect fs ledger = .ok (.ok ⟨k, sle⟩) ∧ ledger'.lookup k = some sle ∧
        ∀ k', k' ≠ k → ledger'.lookup k' = ledger.lookup k' := by
  have hop : operate e.env e.tx (processor e.env e.tx fs) e.before e.flags = .ok e.out := by
    have hi := invoke_of_apply h.apply h.applied
    simpa only [invoke, processorOf, hb] using hi
  have hac := (applied_iff.mp ⟨e.out, hop, h.applied⟩).2.2.1
  obtain ⟨k, sle, hef, hs, hne, _⟩ := effect_of_applied hop h.applied
  rw [h.before] at hef hne
  rw [h.after] at hs hne
  exact ⟨hac, k, sle, hef, hs, hne⟩

end Event.Takes

/-- The transaction is applied, and leaves a ledger with the property. -/
def leaves (tx : STTx) (led : Ledger) (P : Ledger → Bool) : Bool :=
  match invoke sampleEnv tx (sampleView led) 0 with
  | .ok out => out.didApply && P out.view.ledger
  | .error _ => false

section

variable (tx : STTx) (led : Ledger) (P : Ledger → Bool) (h : leaves tx led P)
include h

theorem event_of_invoke :
    ∃ out : Outcome, Event.Takes ⟨sampleEnv, tx, 0, sampleView led, out⟩ led
      out.view.ledger ∧ P out.view.ledger := by
  unfold leaves at h
  cases hi : invoke sampleEnv tx (sampleView led) 0 with
  | error fault =>
    rw [hi] at h
    cases h
  | ok out =>
    simp only [hi, Bool.and_eq_true] at h
    exact ⟨out, ⟨rfl, apply_of_invoke hi, h.1, rfl⟩, h.2⟩

theorem takes_of_invoke :
    ∃ (e : Event) (led' : Ledger), e.Takes led led' ∧ e.tx = tx ∧ P led' := by
  obtain ⟨out, ht, hl⟩ := event_of_invoke tx led P h
  exact ⟨_, _, ht, rfl, hl⟩

end

theorem takes_of_effect {led : Ledger} {fs : DividendTx} {k : Key} {sle : Entry k}
    (hre : refusal sampleEnv (sampleDividend fs) fs = none)
    (hef : effect fs led = .ok (.ok ⟨k, sle⟩)) :
    ∃ (e : Event) (led' : Ledger), e.Takes led led' ∧ e.tx.body = .dividend fs ∧
      led'.lookup k = some sle ∧ ∀ k', k' ≠ k → led'.lookup k' = led.lookup k' := by
  obtain ⟨out, hap, ha⟩ : ∃ out, apply sampleEnv (sampleDividend fs) (sampleView led) 0 = some out ∧
        out.didApply :=
    (takes_iff rfl).mp (takes_sampleDividend hre hef)
  have he : Event.Takes ⟨sampleEnv, sampleDividend fs, 0, sampleView led, out⟩
      led out.view.ledger := ⟨rfl, hap, ha, rfl⟩
  obtain ⟨_, k', sle', hef', hs, hne⟩ := he.dividend rfl
  rw [hef] at hef'
  cases hef'
  exact ⟨_, _, he, rfl, hs, hne⟩

end Sand
