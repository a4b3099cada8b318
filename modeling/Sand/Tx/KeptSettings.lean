import Sand.Tx.History

/-!
# What the bodies of transactions keep of an account

Accounts stay, and only an `AccountSet` changes more than the flags and the regular key.
-/

namespace Sand

open LedgerM View.Evolves

variable {α : Type} {f : AccountRoot → α}

namespace Evolution

def keptRel (f : AccountRoot → α) : ∀ k, Option (Entry k) → Option (Entry k) → Prop
  | .account _, old, new =>
    ∀ root, old = some root → ∃ root', new = some root' ∧ f root'.settings = f root.settings
  | _, _, _ => True

/-- Accounts keep what `f` reads. -/
def kept (f : AccountRoot → α) : Evolution where
  rel := keptRel f
  refl k e := by
    cases k with
    | account id => exact fun root hr => ⟨root, hr, rfl⟩
    | _ => trivial
  trans k e1 e2 e3 h12 h23 := by
    cases k with
    | account id =>
      intro root hr
      obtain ⟨root', hr', hk⟩ := h12 root hr
      obtain ⟨root'', hr'', hk'⟩ := h23 root' hr'
      exact ⟨root'', hr'', hk'.trans hk⟩
    | _ => trivial

theorem kept_rel_some (id : AccountID) {root root' : AccountRoot}
    (h : f root'.settings = f root.settings) :
    (kept f).rel (.account id) (some root) (some root') := by
  rintro _ ⟨⟩
  exact ⟨root', rfl, h⟩

theorem kept_rel_none (id : AccountID) (new : Option AccountRoot) :
    (kept f).rel (.account id) none new :=
  fun _ hr => nomatch hr

theorem kept_rel_of_settings {id : AccountID} {old new : Option AccountRoot}
    (h : new.map AccountRoot.settings = old.map AccountRoot.settings) :
    (kept f).rel (.account id) old new := by
  rintro root rfl
  obtain ⟨root', rfl, hs⟩ := Option.map_eq_some_iff.mp h
  exact ⟨root', rfl, by rw [hs]⟩

instance (marks : SettableMarks) : Sub (transferWith marks) (kept f) where
  sub k e e' h := by
    cases k with
    | account id => exact kept_rel_of_settings h
    | _ => trivial
  mints h := h

instance : Sub ownerObjects (kept f) where
  sub k e e' h := by
    cases k with
    | account id => exact kept_rel_of_settings h
    | _ => trivial
  mints h := h

end Evolution

open Evolution Transactor

variable {ter : TER}

theorem SetTrust.kept_setLine {tx : STTx} {fs : TrustSetTx} {s : TxState} {v v' : View}
    (h : (setLine tx fs s).run v = (.ok ter, v')) : View.Evolves (kept f) v v' := by
  obtain ⟨sle, w, _, hlo, hca⟩ := setLine_cases h
  refine (weaken hlo).trans ?_
  rcases hca with rfl | ⟨state, low, high, currency, run⟩ |
    ⟨_, reserveCreate, sleDst, state, run⟩ | ⟨_, _, run⟩
  · exact refl _ _
  · have hde := MonoM.rel_of_run run
    exact hde.weaken
  · have hm := MonoM.rel_of_run run
    exact hm.weaken
  · have hcr := MonoM.rel_of_run run
    exact hcr.weaken

variable {s s' : TxState}

theorem kept_of_ledger {E E' : Evolution} [Sub E' E] [Sub E' (kept f)] {x : LedgerM E' TER}
    (h : (liftM (LedgerM.lift x : LedgerM E TER) : TxM E TER).run s = (.ok ter, s')) :
    View.Evolves (kept f) s.view s'.view := by
  obtain ⟨v, run, rfl⟩ := TxM.run_liftM_ledger_eq_ok h
  have hmo : View.Evolves E' s.view v := MonoM.rel_of_run (x := x) run
  exact hmo.weaken

/-- A signed body keeps what depends on neither flags nor regular key, if an `AccountSet` does. -/
theorem kept_of_processorOf {env : Env} {tx : STTx} {p : AnyProcessor}
    (hp : processorOf env tx = some p) (hc : tx.body.isChange = false)
    (hd : tx.body.isDividend = false)
    (hf : ∀ (root : AccountRoot) (flags : Flags) (key : Option AccountID),
      f { root with flags := flags, regularKey := key } = f root)
    (hse : ∀ fields, tx.body = .accountSet fields → ∀ root : AccountRoot,
      f (SetAccount.changed tx fields root).settings = f root.settings)
    (h : p.processor.doApply.run s = (.ok ter, s')) : View.Evolves (kept f) s.view s'.view := by
  unfold processorOf at hp
  cases hb : tx.body
  all_goals rw [hb] at hp hc hd
  all_goals cases hp
  case dividend => cases hd
  case amendment | fee => cases hc
  case accountSet fields =>
    refine SetAccount.evolves_doApply (fun root => ?_) h
    exact kept_rel_some _ (hse fields hb root)
  case trustSet fields =>
    have hl : (SetTrust.setLine tx fields s).run s.view = (.ok ter, s'.view) :=
      congrArg (fun result => (result.1, result.2.view)) h
    exact SetTrust.kept_setLine hl
  case regularKeySet key =>
    refine SetRegularKey.evolves_doApply (fun root => ?_) h
    exact kept_rel_some _ (hf root.settings _ _)
  case payment fields =>
    refine Payment.evolves_doApply (fun id => kept_rel_none id _) (fun id balance root => ?_)
      (fun id balance root => ?_) h
    · exact kept_rel_some _ rfl
    · exact kept_rel_some _ (hf root.settings _ _)
  case offerCreate | offerCancel | ticketCreate =>
    exact kept_of_ledger h
  case ticketCancel id =>
    cases id with
    | ticket owner sequence => exact kept_of_ledger h
    | _ =>
      cases h
      exact refl _ _
  case signerListSet fields =>
    obtain ⟨_, _, hme, h1⟩ := MonoM.bind_eq_ok.mp h
    cases hme
    cases hop : s.signerListOp with
    | set quorum signers | destroy =>
      simp only [id_eq, hop] at h1
      exact kept_of_ledger h1
    | unknown =>
      simp only [id_eq, hop] at h1
      cases h1
      exact refl _ _

end Sand
