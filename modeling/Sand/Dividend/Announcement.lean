import Sand.Dividend.Once

/-!
# Announced dividends

A dividend is announced after the last one is done, and paid from a table of incentives.
-/

namespace Sand

open List Key

namespace DividendMaster

/-- What a server knows before it looks at a ledger. -/
structure Server where
  hasPrivateKey : Bool
  isNeedNetworkLedger : Bool

variable (server : Server) (ledger : Ledger)

/-- The last dividend is done, and an earlier one. -/
def launchable (ledgerIndex : UInt32) : Bool :=
  match ledger.lookup dividend with
  | none => true
  | some entry =>
    if entry.dividendState ≠ DivType_Done then false
    else decide (entry.dividendLedger < ledgerIndex)

def launchDividend (ledgerIndex : UInt32) (dividendCoins : UInt64) : Option DividendTx :=
  if !server.hasPrivateKey || server.isNeedNetworkLedger then
    none
  else if launchable ledger ledgerIndex then
    some ⟨some DivType_Start, some ledgerIndex, some dividendCoins, some 0⟩
  else
    none

end DividendMaster

open DividendMaster

/-! ## What the server intends -/

/-- Payments for each ledger, no account twice. -/
structure Plan where
  rows : UInt32 → List (AccountID × UInt64)
  nodup : ∀ index, ((rows index).map Prod.fst).Nodup

def Plan.total (plan : Plan) (index : UInt32) : Nat :=
  ((plan.rows index).map fun row => row.2.toNat).sum

open Dividend

/-- How far the announcements have come. -/
inductive Phase where
  | idle
  | paying (index : UInt32)
  | done (index : UInt32)
  deriving DecidableEq

namespace Phase

def admits : Phase → UInt32 → Bool
  | idle, _ => true
  | paying _, _ => false
  | done last, index => decide (last < index)

variable (plan : Plan) (phase : Phase)

/-- A Start that covers the plan, payments of the plan, and Done, all of one index. -/
def next (fields : DividendTx) : Option Phase :=
  let index := fields.dividendLedger.getD 0
  let coins := fields.dividendCoins.getD 0
  if divOpType fields = DivType_Start then
    if phase.admits index ∧ plan.total index ≤ coins.toNat then some (paying index) else none
  else if divOpType fields = DivType_Apply then
    if phase = paying index ∧ (payee fields, coins) ∈ plan.rows index then some phase else none
  else
    if phase = paying index then some (done index) else none

/-- Other transactions may come at any time. -/
def step : TxBody → Option Phase
  | .dividend fields => phase.next plan fields
  | _ => some phase

/-- What the dividend entry is then. -/
def Stands : Phase → Option DividendEntry → Prop
  | idle, entry => entry = none
  | paying index, entry =>
    ∃ sle ∈ entry, sle.dividendState = DivState_Start ∧ sle.dividendLedger = index
  | done index, entry =>
    ∃ sle ∈ entry, sle.dividendState = DivState_Done ∧ sle.dividendLedger = index

end Phase

/-- The dividend transactions come in blocks of rising index. -/
def InBlocks (plan : Plan) (es : List Event) : Prop :=
  (es.foldlM (fun (phase : Phase) e => phase.step plan e.tx.body) .idle).isSome

/-- The entry it is applied with is that of a phase which lets it pass. -/
def Event.Current (plan : Plan) (e : Event) : Prop :=
  ∃ phase phase', Phase.Stands phase (e.before.ledger.lookup dividend) ∧
    phase.step plan e.tx.body = some phase'

variable {plan : Plan} {e : Event} {ledger ledger' : Ledger} {phase phase' : Phase}

variable {fields : DividendTx} {index : UInt32} {id : AccountID} {es : List Event}

namespace Phase

theorem step_start (hb : e.tx.body = .dividend fields) (hop : divOpType fields = DivType_Start)
    (h : phase.step plan e.tx.body = some phase') :
    phase.admits (fields.dividendLedger.getD 0) ∧
      plan.total (fields.dividendLedger.getD 0) ≤ (fields.dividendCoins.getD 0).toNat ∧
      phase' = paying (fields.dividendLedger.getD 0) := by
  simp only [step, hb, next] at h
  rw [if_pos hop, Option.ite_none_right_eq_some] at h
  exact ⟨h.1.1, h.1.2, (Option.some.inj h.2).symm⟩

theorem step_apply (hb : e.tx.body = .dividend fields) (hop : divOpType fields = DivType_Apply)
    (h : phase.step plan e.tx.body = some phase') :
    phase = paying (fields.dividendLedger.getD 0) ∧ phase' = phase ∧
      (payee fields, fields.dividendCoins.getD 0) ∈ plan.rows (fields.dividendLedger.getD 0) := by
  simp only [step, hb, next] at h
  rw [if_neg (by rw [hop]; decide), if_pos hop, Option.ite_none_right_eq_some] at h
  exact ⟨h.1.1, (Option.some.inj h.2).symm, h.1.2⟩

theorem step_done (hb : e.tx.body = .dividend fields) (hop : divOpType fields = DivType_Done)
    (h : phase.step plan e.tx.body = some phase') :
    phase = paying (fields.dividendLedger.getD 0) ∧
      phase' = done (fields.dividendLedger.getD 0) := by
  simp only [step, hb, next] at h
  rw [if_neg (by rw [hop]; decide), if_neg (by rw [hop]; decide),
    Option.ite_none_right_eq_some] at h
  exact ⟨h.1, (Option.some.inj h.2).symm⟩

end Phase

theorem Event.Current.apply (h : e.Current plan) (hb : e.tx.body = .dividend fields)
    (hop : divOpType fields = DivType_Apply) :
    (∃ entry, e.before.ledger.lookup dividend = some entry ∧ entry.dividendState = DivState_Start ∧
      entry.dividendLedger = fields.dividendLedger.getD 0) ∧
      (payee fields, fields.dividendCoins.getD 0) ∈ plan.rows (fields.dividendLedger.getD 0) := by
  obtain ⟨phase, phase', hstands, hnext⟩ := h
  obtain ⟨rfl, _, hrow⟩ := Phase.step_apply hb hop hnext
  exact ⟨hstands, hrow⟩

theorem Event.Current.start (h : e.Current plan) (hb : e.tx.body = .dividend fields)
    (hop : divOpType fields = DivType_Start) :
    (e.before.ledger.lookup dividend = none ∨ ∃ entry, e.before.ledger.lookup dividend = some entry ∧
        entry.dividendState = DivState_Done ∧
        entry.dividendLedger < fields.dividendLedger.getD 0) ∧
      plan.total (fields.dividendLedger.getD 0) ≤ (fields.dividendCoins.getD 0).toNat := by
  obtain ⟨phase, phase', hstands, hnext⟩ := h
  obtain ⟨hadmits, htotal, _⟩ := Phase.step_start hb hop hnext
  refine ⟨?_, htotal⟩
  cases phase with
  | idle => exact .inl hstands
  | paying => cases hadmits
  | done last =>
    obtain ⟨entry, hentry, hdone, rfl⟩ := hstands
    exact .inr ⟨entry, hentry, hdone, of_decide_eq_true hadmits⟩

/-! ## The entry follows the phase -/

/-- The server launches a dividend where the order admits it. -/
theorem launchable_iff_admits (hstands : phase.Stands (ledger.lookup dividend)) :
    launchable ledger index ↔ phase.admits index := by
  unfold launchable
  cases phase with
  | idle =>
    rw [show ledger.lookup dividend = none from hstands]
    simp [Phase.admits]
  | paying started =>
    obtain ⟨entry, hentry, hstate, _⟩ := hstands
    rw [show ledger.lookup dividend = some entry from hentry]
    simp [hstate, Phase.admits, DivState_Start, DivType_Done]
  | done last =>
    obtain ⟨entry, hentry, hstate, rfl⟩ := hstands
    rw [show ledger.lookup dividend = some entry from hentry]
    simp [hstate, Phase.admits, DivState_Done, DivType_Done]

theorem dividend_of_takes (h : e.Takes ledger ledger') :
    (∃ fields, e.tx.body = .dividend fields ∧ divOpType fields = DivType_Start ∧
      ledger'.lookup dividend = some
        { dividendState := DivState_Start
          dividendLedger := fields.dividendLedger.getD 0
          dividendCoins := fields.dividendCoins.getD 0 }) ∨
    (∃ fields entry, e.tx.body = .dividend fields ∧ divOpType fields = DivType_Done ∧
      ledger.lookup dividend = some entry ∧
      ledger'.lookup dividend = some { entry with dividendState := DivState_Done }) ∨
    ((∀ fields, e.tx.body = .dividend fields → divOpType fields = DivType_Apply) ∧
      ledger'.lookup dividend = ledger.lookup dividend) := by
  cases hdi : e.tx.body.isDividend with
  | false =>
    refine .inr (.inr ⟨fun fields hbody => ?_, h.settings hdi .dividend⟩)
    rw [hbody] at hdi
    cases hdi
  | true =>
    obtain ⟨fields, hb⟩ := TxBody.isDividend_iff.mp hdi
    obtain ⟨_, k, sle, hef, hsl, hne⟩ := h.dividend hb
    rcases effect_cases hef with ⟨hs, hwr⟩ | ⟨hap, _, _, _, _, _, hwr⟩ | ⟨hd, entry, hen, hwr⟩
    · cases hwr
      exact .inl ⟨fields, hb, hs, hsl⟩
    · cases hwr
      refine .inr (.inr ⟨fun fields' hbody => ?_, hne _ (by simp)⟩)
      rw [hb] at hbody
      cases hbody
      exact hap
    · cases hwr
      exact .inr (.inl ⟨fields, entry, hb, hd, hen, hsl⟩)

theorem stands_of_takes (hnext : phase.step plan e.tx.body = some phase')
    (h : e.Takes ledger ledger') (hstands : phase.Stands (ledger.lookup dividend)) :
    phase'.Stands (ledger'.lookup dividend) ∧ e.Current plan := by
  refine ⟨?_, phase, phase', by rwa [h.before], hnext⟩
  rcases dividend_of_takes h with ⟨fields, hb, hop, hnew⟩ | ⟨fields, entry, hb, hop, hold, hnew⟩ |
    ⟨hother, hkept⟩
  · obtain ⟨_, _, rfl⟩ := Phase.step_start hb hop hnext
    exact ⟨_, hnew, rfl, rfl⟩
  · obtain ⟨rfl, rfl⟩ := Phase.step_done hb hop hnext
    obtain ⟨entry', hentry, _, hindex⟩ := hstands
    rw [hold] at hentry
    cases hentry
    exact ⟨_, hnew, rfl, hindex⟩
  · rw [hkept]
    cases hb : e.tx.body with
    | dividend fields =>
      obtain ⟨_, rfl, _⟩ := Phase.step_apply hb (hother fields hb) hnext
      exact hstands
    | _ =>
      simp only [Phase.step, hb] at hnext
      cases hnext
      exact hstands

theorem current_of_inBlocks (h : History ledger es ledger')
    (hnone : ledger.lookup dividend = none) (hblocks : InBlocks plan es) :
    ∀ e ∈ es, e.Current plan := by
  obtain ⟨last, hlast⟩ := Option.isSome_iff_exists.mp hblocks
  let Inv (phase : Phase) (ledger : Ledger) : Prop := phase.Stands (ledger.lookup dividend)
  exact h.forall_monitored (I := Inv) hlast (fun _ _ _ _ _ => stands_of_takes) hnone

/-! ## No account is paid twice -/

theorem dividendLedger_of_takes {ent : DividendEntry} (hcur : e.Current plan)
    (h : e.Takes ledger ledger') (hen : ledger.lookup dividend = some ent) :
    ∃ ent', ledger'.lookup dividend = some ent' ∧ (ent'.dividendLedger = ent.dividendLedger ∨
        ent.dividendLedger < ent'.dividendLedger) := by
  rcases dividend_of_takes h with ⟨fields, hb, hs, hen'⟩ | ⟨_, entry0, _, _, hentry0, hen'⟩ |
    ⟨_, hkept⟩
  · refine ⟨_, hen', .inr ?_⟩
    have hfree := (hcur.start hb hs).1
    rw [h.before, hen] at hfree
    rcases hfree with hno | ⟨entry0, hso, _, hlt⟩
    · cases hno
    · cases hso
      exact hlt
  · obtain rfl : ent = entry0 := Option.some.inj (hen.symm.trans hentry0)
    exact ⟨_, hen', .inl rfl⟩
  · exact ⟨ent, hkept.trans hen, .inl rfl⟩

/-- The account is at the dividend, the entry there or beyond. -/
def Ledger.Past (ledger : Ledger) (id : AccountID) (index : UInt32) : Prop :=
  ∃ entry, ledger.lookup dividend = some entry ∧ index ≤ entry.dividendLedger ∧
    (entry.dividendLedger = index → ledger.lastDividend id = index)

section

variable (hcur : e.Current plan)
include hcur

section

variable (h : e.Takes ledger ledger')
include h

theorem entry_of_credit (hcredit : e.tx.body.credit = some (id, index)) :
    ∃ entry, ledger.lookup dividend = some entry ∧
      ledger'.lookup dividend = some entry ∧ entry.dividendLedger = index := by
  obtain ⟨fields, hb, hap, rfl, rfl⟩ := credit_eq_some_iff.mp hcredit
  obtain ⟨⟨entry, hen, _, hi⟩, _⟩ := hcur.apply hb hap
  rw [h.before] at hen
  refine ⟨entry, hen, ?_, hi⟩
  obtain ⟨_, k, sle, hef, _, hne⟩ := h.dividend hb
  obtain ⟨_, _, _, _, _, hwr⟩ := (effect_apply_iff hap).mp hef
  cases hwr
  rw [hne _ (by simp), hen]

theorem past_of_credit (hcredit : e.tx.body.credit = some (id, index)) : ledger'.Past id index := by
  obtain ⟨entry, _, hen', rfl⟩ := entry_of_credit hcur h hcredit
  exact ⟨entry, hen', UInt32.le_refl _, fun _ => (lastDividend_of_credit h hcredit).2⟩

theorem past_of_past (hpast : ledger.Past id index) : ledger'.Past id index := by
  obtain ⟨entry, hen, hle, hl⟩ := hpast
  by_cases hcredit : ∃ index', e.tx.body.credit = some (id, index')
  · obtain ⟨index', hcredit⟩ := hcredit
    obtain ⟨entry', hbefore, ha, rfl⟩ := entry_of_credit hcur h hcredit
    obtain rfl : entry = entry' := Option.some.inj (hen.symm.trans hbefore)
    refine ⟨entry, ha, hle, fun hi => ?_⟩
    rw [(lastDividend_of_credit h hcredit).2, hi]
  · have hk := lastDividend_of_other h fun index' hi => hcredit ⟨index', hi⟩
    obtain ⟨entry', hen', hi | hlr⟩ := dividendLedger_of_takes hcur h hen
    · refine ⟨entry', hen', by rwa [hi], fun heq => ?_⟩
      rw [hk, hl (hi.symm.trans heq)]
    · refine ⟨entry', hen', UInt32.le_trans hle (UInt32.le_of_lt hlr), fun heq => ?_⟩
      rw [heq] at hlr
      exact absurd hle (UInt32.not_le.mpr hlr)

theorem credit_ne_of_past (hpast : ledger.Past id index) : e.tx.body.credit ≠ some (id, index) := by
  intro hcredit
  obtain ⟨entry, hen, _, hl⟩ := hpast
  obtain ⟨entry', hbefore, _, hi⟩ := entry_of_credit hcur h hcredit
  obtain rfl : entry = entry' := Option.some.inj (hen.symm.trans hbefore)
  exact (lastDividend_of_credit h hcredit).1 (hl hi).symm

end

end

theorem credits_pairwise (h : History ledger es ledger') (hcur : ∀ e ∈ es, e.Current plan) :
    es.Pairwise fun e e' => ∀ c ∈ e.tx.body.credit, ∀ c' ∈ e'.tx.body.credit, c ≠ c' := by
  let Mark (e : Event) (ledger : Ledger) : Prop :=
    ∀ id index, e.tx.body.credit = some (id, index) → ledger.Past id index
  refine h.pairwise Mark hcur ?_ ?_
  · intro e ledger ledger' hcur hstep id index hcredit
    exact past_of_credit hcur hstep hcredit
  intro e e' ledger ledger' hcur hstep hmark
  refine ⟨fun id index hcredit => past_of_past hcur hstep (hmark id index hcredit), ?_⟩
  rintro ⟨id, index⟩ hcredit c' hcr' rfl
  exact credit_ne_of_past hcur hstep (hmark id index hcredit) hcr'

/-! ## Dividends within their announcement -/

/-- What a transaction pays of a dividend, and to whom. -/
def TxBody.payout (index : UInt32) : TxBody → Option (AccountID × UInt64)
  | .dividend fields =>
    if divOpType fields = DivType_Apply ∧ fields.dividendLedger.getD 0 = index then
      some (payee fields, fields.dividendCoins.getD 0)
    else
      none
  | _ => none

def paidCoins (es : List Event) (index : UInt32) : Nat :=
  ((es.filterMap fun e => e.tx.body.payout index).map fun payout => payout.2.toNat).sum

/-- Every dividend is announced, after the last one is done, before it is paid, and paid within
that. -/
structure WithinAnnouncement (es : List Event) : Prop where
  current : ∀ e ∈ es, ∀ fields, e.tx.body = .dividend fields → divOpType fields = DivType_Apply →
    ∃ entry, e.before.ledger.lookup dividend = some entry ∧ entry.dividendState = DivState_Start ∧
      entry.dividendLedger = fields.dividendLedger.getD 0
  ordered : ∀ e ∈ es, ∀ fields, e.tx.body = .dividend fields → divOpType fields = DivType_Start →
    e.before.ledger.lookup dividend = none ∨ ∃ entry, e.before.ledger.lookup dividend = some entry ∧
        entry.dividendState = DivState_Done ∧
        entry.dividendLedger < fields.dividendLedger.getD 0
  announced : ∀ e ∈ es, ∀ fields, e.tx.body = .dividend fields →
    divOpType fields = DivType_Apply → ∃ e' ∈ es, ∃ fields', e'.tx.body = .dividend fields' ∧
      divOpType fields' = DivType_Start ∧
      fields'.dividendLedger.getD 0 = fields.dividendLedger.getD 0
  bounded : ∀ e ∈ es, ∀ fields, e.tx.body = .dividend fields → divOpType fields = DivType_Start →
    paidCoins es (fields.dividendLedger.getD 0) ≤ (fields.dividendCoins.getD 0).toNat

theorem payout_eq_some_iff {body : TxBody} {coins : UInt64} : body.payout index = some (id, coins) ↔
      ∃ fields, body = .dividend fields ∧ divOpType fields = DivType_Apply ∧
        fields.dividendLedger.getD 0 = index ∧ payee fields = id ∧
        fields.dividendCoins.getD 0 = coins := by
  unfold TxBody.payout
  cases body with
  | dividend fields =>
    by_cases hap : divOpType fields = DivType_Apply ∧ fields.dividendLedger.getD 0 = index
    · simp [hap]
    dsimp only
    rw [if_neg hap]
    constructor
    · exact nofun
    · rintro ⟨fields', hb, hki, hi, _⟩
      cases hb
      exact absurd ⟨hki, hi⟩ hap
  | _ => simp

theorem paidCoins_le (h : History ledger es ledger') (hcur : ∀ e ∈ es, e.Current plan)
    (index : UInt32) : paidCoins es index ≤ plan.total index := by
  have hnd : (es.filterMap fun e => e.tx.body.payout index).Nodup := by
    refine pairwise_filterMap.mpr ((credits_pairwise h hcur).imp ?_)
    rintro e e' hne ⟨id, coins⟩ hp ⟨id', coins'⟩ hp' heq
    cases heq
    obtain ⟨fields, hb, hap, hi, hid, _⟩ := payout_eq_some_iff.mp hp
    obtain ⟨fields', hb', hap', hi', hid', _⟩ := payout_eq_some_iff.mp hp'
    exact hne (id, index) (credit_eq_some_iff.mpr ⟨fields, hb, hap, hid, hi⟩) (id, index)
      (credit_eq_some_iff.mpr ⟨fields', hb', hap', hid', hi'⟩) rfl
  have hss : (es.filterMap fun e => e.tx.body.payout index) ⊆ plan.rows index := by
    rintro ⟨id, coins⟩ hm
    obtain ⟨e, he, hp⟩ := mem_filterMap.mp hm
    obtain ⟨fields, hb, hap, rfl, rfl, rfl⟩ := payout_eq_some_iff.mp hp
    exact ((hcur e he).apply hb hap).2
  obtain ⟨payments, hpe, hsb⟩ := hnd.subperm hss
  unfold paidCoins Plan.total
  rw [← (hpe.map _).sum_eq]
  exact (hsb.map _).sum_le_sum fun _ _ => Nat.zero_le _

theorem announced_of_apply (h : History ledger es ledger')
    (hcur : ∀ e ∈ es, e.Current plan) (he : e ∈ es)
    (hb : e.tx.body = .dividend fields) (hap : divOpType fields = DivType_Apply) :
    (∃ entry, ledger.lookup dividend = some entry ∧
      entry.dividendLedger = fields.dividendLedger.getD 0) ∨
      ∃ e' ∈ es, ∃ fields', e'.tx.body = .dividend fields' ∧ divOpType fields' = DivType_Start ∧
        fields'.dividendLedger.getD 0 = fields.dividendLedger.getD 0 := by
  induction h with
  | nil => cases he
  | @cons e0 es s s' _ hstep _ ih =>
    rcases mem_cons.mp he with rfl | he
    · obtain ⟨⟨entry, hen, _, hi⟩, _⟩ := (hcur _ mem_cons_self).apply hb hap
      rw [hstep.before] at hen
      exact .inl ⟨entry, hen, hi⟩
    rcases ih (fun e he => hcur e (mem_cons_of_mem _ he)) he with
      ⟨entry, hen, hi⟩ | ⟨e', he', hs⟩
    · rcases dividend_of_takes hstep with ⟨fields', hb', hs, hen'⟩ |
        ⟨_, entry0, _, _, hentry0, hen'⟩ | ⟨_, hkept⟩
      · rw [hen] at hen'
        cases hen'
        exact .inr ⟨e0, mem_cons_self, fields', hb', hs, hi⟩
      · rw [hen] at hen'
        cases hen'
        exact .inl ⟨entry0, hentry0, hi⟩
      · exact .inl ⟨entry, hkept.symm.trans hen, hi⟩
    · exact .inr ⟨e', mem_cons_of_mem _ he', hs⟩

/-- Dividends submitted in blocks stay within their announcement. -/
theorem within_announcement_of_inBlocks (h : History ledger es ledger')
    (hnone : ledger.lookup dividend = none) (hblocks : InBlocks plan es) :
    WithinAnnouncement es where
  current e he fields hb hap := ((current_of_inBlocks h hnone hblocks e he).apply hb hap).1
  ordered e he fields hb hs := ((current_of_inBlocks h hnone hblocks e he).start hb hs).1
  announced e he fields hb hap := by
    have hcur := current_of_inBlocks h hnone hblocks
    rcases announced_of_apply h hcur he hb hap with ⟨entry, hentry, _⟩ | hstart
    · rw [hnone] at hentry
      cases hentry
    · exact hstart
  bounded e he fields hb hs :=
    have hcur := current_of_inBlocks h hnone hblocks
    (paidCoins_le h hcur _).trans ((hcur e he).start hb hs).2

/-- What nobody announced is paid. -/
theorem unannounced_paid : ∃ (es : List Event) (ledger' : Ledger), History poorLedger es ledger' ∧
      poorLedger.lookup dividend = none ∧ ¬ WithinAnnouncement es := by
  have hc : credited (dropFields 5) { sequence := 1, balance := .ofDrops 5 } =
      .ok { sequence := 1, balance := .ofDrops 6, dividendLedger := some 5 } := rfl
  obtain ⟨e, ledger', h, hb, _⟩ := dropFields_takes 5 hc (AList.lookup_insert _) (by decide)
  refine ⟨[e], ledger', .cons h (.nil _), rfl, fun hwi => ?_⟩
  obtain ⟨entry, hen, _⟩ := hwi.current e mem_cons_self _ hb rfl
  rw [h.before] at hen
  cases hen

def dropPlan : Plan where
  rows index := if index = 5 then [(1, 1)] else []
  nodup index := by
    split <;> simp

/-- The dividend of one drop is announced, paid and closed. -/
theorem drop_within_announcement :
    ∃ (es : List Event) (ledger' : Ledger), History poorLedger es ledger' ∧
      poorLedger.lookup dividend = none ∧ InBlocks dropPlan es ∧
      es.length = 3 ∧ WithinAnnouncement es := by
  let startFields : DividendTx := ⟨some DivType_Start, some 5, some 1, some 0⟩
  let doneFields : DividendTx := ⟨some DivType_Done, some 5, some 1, none⟩
  have hstart : effect startFields poorLedger =
      .ok (.ok ⟨.dividend, ⟨DivState_Start, 5, 1⟩⟩) := rfl
  have hc : credited (dropFields 5) { sequence := 1, balance := .ofDrops 5 } =
      .ok { sequence := 1, balance := .ofDrops 6, dividendLedger := some 5 } := rfl
  have hr : poorLedger.lookup (account 1) =
      some { sequence := 1, balance := .ofDrops 5 } := AList.lookup_insert _
  obtain ⟨e1, ledger1, h1, hbody1, hentry1, hne⟩ := takes_of_effect rfl hstart
  have hpaid : effect (dropFields 5) ledger1 = .ok (.ok ⟨.account 1, _⟩) :=
    (effect_apply_iff rfl).mpr ⟨_, _, (hne _ (by decide)).trans hr, by decide, hc, rfl⟩
  obtain ⟨e2, ledger2, h2, hbody2, _, hne⟩ := takes_of_effect rfl hpaid
  have hdone : effect doneFields ledger2 = .ok (.ok ⟨.dividend, ⟨DivState_Done, 5, 1⟩⟩) := by
    simp only [effect, (hne dividend (by decide)).trans hentry1]
    rfl
  obtain ⟨e3, ledger3, h3, hbody3, _⟩ := takes_of_effect rfl hdone
  have hrun : History poorLedger [e1, e2, e3] ledger3 := .cons h1 (.cons h2 (.cons h3 (.nil _)))
  have hblocks : InBlocks dropPlan [e1, e2, e3] := by
    simp only [InBlocks, foldlM_cons, foldlM_nil, hbody1, hbody2, hbody3]
    decide
  exact ⟨_, _, hrun, rfl, hblocks, rfl, within_announcement_of_inBlocks hrun rfl hblocks⟩

end Sand
