import Sand.Tx.History

/-!
# How often a dividend is paid

An account remembers its last dividend only.
-/

namespace Sand

open DividendMaster

/-- The account and dividend of an Apply transaction. -/
def TxBody.credit : TxBody → Option (AccountID × UInt32)
  | .dividend fields =>
    if Dividend.divOpType fields = DivType_Apply then
      some (Dividend.payee fields, fields.dividendLedger.getD 0)
    else
      none
  | _ => none

def Ledger.lastDividend (ledger : Ledger) (id : AccountID) : UInt32 :=
  ((ledger.lookup (Key.account id)).bind AccountRoot.dividendLedger).getD 0

open Dividend

variable {e : Event} {ledger ledger' : Ledger} {id : AccountID} {index : UInt32}

theorem credit_eq_some_iff {body : TxBody} : body.credit = some (id, index) ↔
      ∃ fields, body = .dividend fields ∧ divOpType fields = DivType_Apply ∧
        payee fields = id ∧ fields.dividendLedger.getD 0 = index := by
  unfold TxBody.credit
  cases body with
  | dividend fields =>
    by_cases hap : divOpType fields = DivType_Apply
    · simp [hap]
    · simp [hap]
  | _ => simp

variable {root root' : AccountRoot}

theorem dividendLedger_of_credited {fs : DividendTx}
    (hi : fs.dividendLedger = some index) (h : credited fs root = .ok root') :
    root'.dividendLedger = some index := by
  unfold credited at h
  by_cases hc : fs.dividendCoins.getD 0 = 0
  · simp only [hc, ↓reduceIte] at h
    cases h
    simp [noteDividend, hi]
  simp only [hc, ↓reduceIte] at h
  cases hba : root.balance.add (.ofDrops (fs.dividendCoins.getD 0)) with
  | error fault => simp [hba, bind, Except.bind] at h
  | ok balance =>
    simp only [hba, bind, Except.bind] at h
    cases h
    simp [noteDividend, hi]

theorem lastDividend_of_credit (h : e.Takes ledger ledger')
    (hcr : e.tx.body.credit = some (id, index)) :
    index ≠ ledger.lastDividend id ∧ ledger'.lastDividend id = index := by
  obtain ⟨fields, hb, hap, rfl, rfl⟩ := credit_eq_some_iff.mp hcr
  obtain ⟨ha, k, sle, hef, hse, _⟩ := h.dividend hb
  obtain ⟨root, root', hr, hn, hce, hwr⟩ := (effect_apply_iff hap).mp hef
  cases hwr
  obtain ⟨index, hi⟩ := index_of_refusal ha.refusal
  refine ⟨?_, ?_⟩
  · simpa [Ledger.lastDividend, hr] using hn
  · simp [Ledger.lastDividend, hse, dividendLedger_of_credited hi hce, hi]

theorem lastDividend_of_other (h : e.Takes ledger ledger')
    (hcr : ∀ index, e.tx.body.credit ≠ some (id, index)) :
    ledger'.lastDividend id = ledger.lastDividend id := by
  cases hd : e.tx.body.isDividend with
  | false =>
    obtain ⟨_, hke⟩ := h.settings hd (.account id)
    exact congrArg (Option.getD · 0) hke
  | true =>
    obtain ⟨fields, hb⟩ := TxBody.isDividend_iff.mp hd
    obtain ⟨_, k, sle, hef, _, hne⟩ := h.dividend hb
    have hk : Key.account id ≠ k := by
      rcases effect_cases hef with ⟨_, hwr⟩ | ⟨hap, _, _, _, _, _, hwr⟩ | ⟨_, _, _, hwr⟩
      · cases hwr
        simp
      · cases hwr
        rintro hid
        cases hid
        exact hcr _ (credit_eq_some_iff.mpr ⟨fields, hb, hap, rfl, rfl⟩)
      · cases hwr
        simp
    simp [Ledger.lastDividend, hne _ hk]

/-- None is older than the account's last one. -/
def Event.InOrder (e : Event) : Prop :=
  ∀ id index, e.tx.body.credit = some (id, index) → e.before.ledger.lastDividend id ≤ index

/-- The account is at its dividend, or beyond. -/
def Event.Settled (e : Event) (ledger : Ledger) : Prop :=
  ∀ id index, e.tx.body.credit = some (id, index) → index ≤ ledger.lastDividend id

theorem settled_of_takes (h : e.Takes ledger ledger') : e.Settled ledger' := by
  intro id index hcr
  rw [(lastDividend_of_credit h hcr).2]
  exact UInt32.le_refl index

theorem lastDividend_le (ho : e.InOrder) (h : e.Takes ledger ledger') (id : AccountID) :
    ledger.lastDividend id ≤ ledger'.lastDividend id := by
  by_cases hcr : ∃ index, e.tx.body.credit = some (id, index)
  · obtain ⟨index, hcr⟩ := hcr
    have hle := ho id index hcr
    rw [h.before] at hle
    rwa [(lastDividend_of_credit h hcr).2]
  · rw [lastDividend_of_other h fun index hi => hcr ⟨index, hi⟩]
    exact UInt32.le_refl _

theorem credit_ne_of_settled {e' : Event} (ho : e'.InOrder) (h : e'.Takes ledger ledger')
    (hs : e.Settled ledger) : ∀ c ∈ e.tx.body.credit, ∀ c' ∈ e'.tx.body.credit, c ≠ c' := by
  rintro ⟨id, index⟩ hcr c' hcr' rfl
  have hle := ho id index hcr'
  rw [h.before] at hle
  have heq := UInt32.le_antisymm (hs id index hcr) hle
  exact (lastDividend_of_credit h hcr').1 heq

/-- In order, every dividend is paid to an account at most once. -/
theorem credits_nodup_of_inOrder {es : List Event} (h : History ledger es ledger')
    (ho : ∀ e ∈ es, e.InOrder) : (es.filterMap fun e => e.tx.body.credit).Nodup := by
  have hp : es.Pairwise fun e e' => ∀ c ∈ e.tx.body.credit, ∀ c' ∈ e'.tx.body.credit,
      c ≠ c' := by
    refine h.pairwise Event.Settled ho (fun e _ _ _ hst => settled_of_takes hst) ?_
    intro e e' ledger ledger' hin hst hs
    refine ⟨?_, credit_ne_of_settled hin hst hs⟩
    intro id index hcr
    exact UInt32.le_trans (hs id index hcr) (lastDividend_le hin hst id)
  exact List.pairwise_filterMap.mpr hp

def dropFields (index : UInt32) : DividendTx :=
  ⟨some DivType_Apply, some index, some 1, some 1⟩

theorem dropFields_takes (idx : UInt32) (hce : credited (dropFields idx) root = .ok root')
    (hr : ledger.lookup (Key.account 1) = some root)
    (hn : idx ≠ root.dividendLedger.getD 0) :
    ∃ (e : Event) (ledger' : Ledger), e.Takes ledger ledger' ∧
      e.tx.body = .dividend (dropFields idx) ∧
      ledger'.lookup (Key.account 1) = some root' := by
  have hef : effect (dropFields idx) ledger = .ok (.ok ⟨.account 1, root'⟩) :=
    (effect_apply_iff rfl).mpr ⟨root, root', hr, hn, hce, rfl⟩
  obtain ⟨e, ledger', h, hb, hr', _⟩ := takes_of_effect rfl hef
  exact ⟨e, ledger', h, hb, hr'⟩

def paidRoot5 : AccountRoot := { sequence := 1, balance := .ofDrops 6, dividendLedger := some 5 }

def paidRoot6 : AccountRoot := { sequence := 1, balance := .ofDrops 7, dividendLedger := some 6 }

theorem five_then_six : ∃ (e1 e2 : Event) (ledger1 ledger2 : Ledger), e1.Takes poorLedger ledger1 ∧
    e2.Takes ledger1 ledger2 ∧ e1.tx.body = .dividend (dropFields 5) ∧
    e2.tx.body = .dividend (dropFields 6) ∧ ledger1.lookup (Key.account 1) = some paidRoot5 ∧
    ledger2.lookup (Key.account 1) = some paidRoot6 := by
  have hcredited1 : credited (dropFields 5) { sequence := 1, balance := .ofDrops 5 } =
      .ok paidRoot5 := rfl
  have hcredited2 : credited (dropFields 6) paidRoot5 = .ok paidRoot6 := rfl
  obtain ⟨e1, ledger1, h1, hbody1, hroot1⟩ :=
    dropFields_takes 5 hcredited1 (AList.lookup_insert _) (by decide)
  obtain ⟨e2, ledger2, h2, hbody2, hroot2⟩ := dropFields_takes 6 hcredited2 hroot1 (by decide)
  exact ⟨e1, e2, ledger1, ledger2, h1, h2, hbody1, hbody2, hroot1, hroot2⟩

/-- Dividend 5, dividend 6 and dividend 5 again. -/
theorem paid_twice : ∃ (es : List Event) (ledger' : Ledger), History poorLedger es ledger' ∧
      ¬ (es.filterMap fun e => e.tx.body.credit).Nodup := by
  obtain ⟨e1, e2, ledger1, ledger2, h1, h2, hbody1, hbody2, -, hroot2⟩ := five_then_six
  have hcredited3 : credited (dropFields 5) paidRoot6 =
      .ok { paidRoot6 with balance := .ofDrops 8, dividendLedger := some 5 } := rfl
  obtain ⟨e3, ledger3, h3, hbody3, _⟩ := dropFields_takes 5 hcredited3 hroot2 (by decide)
  refine ⟨[e1, e2, e3], ledger3, .cons h1 (.cons h2 (.cons h3 (.nil _))), ?_⟩
  simp [hbody1, hbody2, hbody3, TxBody.credit, dropFields, divOpType, payee]

theorem paid_once_in_order : ∃ (es : List Event) (ledger' : Ledger), History poorLedger es ledger' ∧
      (∀ e ∈ es, e.InOrder) ∧ (es.filterMap fun e => e.tx.body.credit) = [(1, 5), (1, 6)] ∧
      (es.filterMap fun e => e.tx.body.credit).Nodup := by
  obtain ⟨e1, e2, ledger1, ledger2, h1, h2, hbody1, hbody2, hroot1, -⟩ := five_then_six
  have hrun : History poorLedger [e1, e2] ledger2 := .cons h1 (.cons h2 (.nil _))
  have horder : ∀ e ∈ [e1, e2], e.InOrder := by
    simp only [List.forall_mem_cons, Event.InOrder, hbody1, hbody2, h1.before, h2.before]
    refine ⟨?_, ?_, List.forall_mem_nil _⟩
    · rintro id index ⟨⟩
      show poorLedger.lastDividend 1 ≤ 5
      decide
    · rintro id index ⟨⟩
      show ledger1.lastDividend 1 ≤ 6
      rw [Ledger.lastDividend, hroot1]
      decide
  refine ⟨[e1, e2], ledger2, hrun, horder, ?_, credits_nodup_of_inOrder hrun horder⟩
  simp [hbody1, hbody2, TxBody.credit, dropFields, divOpType, payee]

end Sand
