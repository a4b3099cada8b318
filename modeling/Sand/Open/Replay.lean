import Sand.Dividend.Once
import Sand.Open.Advance

/-!
# Applying transactions again

An open view ends the process when a transaction is written to it a second time.
-/

namespace Sand

open Evolution Transactor Change

/-! ## Up to the write -/

namespace Transactor

def destroyFee (o : OpenView) (v : View) (fee : STAmount) : Except Fault View :=
  if o.info.isOpen then
    .ok v
  else if !fee.native || fee.negative then
    .error .exception
  else if fee.isZero then
    .ok v
  else
    .ok { v with dropsDestroyed := v.dropsDestroyed + fee.mantissa }

theorem finish_eq (o : OpenView) (tx : STTx) (v : View) (fee : STAmount) :
    finish o tx v fee = destroyFee o v fee >>= o.accept tx := by
  unfold finish destroyFee
  split_ifs <;> rfl

section Operator

variable (env : Env) (tx : STTx) {E : Evolution} [Sub charge E]

/-- Before it writes: the result and the view to write. -/
def resolve (P : Processor E) (o : OpenView) (flags : Flags) :
    Except Fault (TER × Option View) :=
  if tx.transactionID = 0 then
    .ok (.temINVALID_FLAG, none)
  else
    match (apply env tx P).run (initial tx o flags) with
    | (.error fault, _) => .error fault
    | (.ok ter, s) =>
      if ter = .temUNKNOWN then
        .ok (.temUNKNOWN, none)
      else
        let result := sizedResult ter s.view
        if claimsFee flags result then
          match (claimFee tx).run (o.fresh flags) with
          | (.error fault, _) => .error fault
          | (.ok (.ok fee), v) => (destroyFee o v fee).map fun v => (result, some v)
          | (.ok (.error refusal), v) =>
            if ter.isTesSuccess then
              (destroyFee o v tx.fee).map fun v => (refusal, some v)
            else
              .ok (refusal, none)
        else if ter.isTesSuccess then
          (destroyFee o s.view tx.fee).map fun v => (result, some v)
        else
          .ok (result, none)

def conclude (o : OpenView) : TER × Option View → Except Fault Outcome
  | (ter, none) => .ok ⟨ter, false, o⟩
  | (ter, some v) => (o.accept tx v).map fun o' => ⟨ter, true, o'⟩

variable {env tx} {P : Processor E} {o : OpenView} {flags : Flags}

theorem map_finish_eq (v : View) (fee : STAmount) (ter : TER) :
    ((finish o tx v fee).map fun o' => (⟨ter, true, o'⟩ : Outcome)) =
      ((destroyFee o v fee).map fun v => (ter, some v)) >>= conclude tx o := by
  rw [finish_eq]
  cases destroyFee o v fee <;> rfl

theorem operate_eq : operate env tx P o flags = resolve env tx P o flags >>= conclude tx o := by
  unfold operate resolve
  by_cases hid : tx.transactionID = 0
  · rw [if_pos hid, if_pos hid]
    rfl
  rw [if_neg hid, if_neg hid]
  rcases (apply env tx P).run (initial tx o flags) with ⟨fault | ter, s⟩
  · rfl
  dsimp only
  by_cases hu : ter = .temUNKNOWN
  · rw [if_pos hu, if_pos hu]
    rfl
  rw [if_neg hu, if_neg hu]
  by_cases hcl : claimsFee flags (sizedResult ter s.view)
  · rw [if_pos hcl, if_pos hcl]
    rcases (claimFee tx).run (o.fresh flags) with ⟨fault | (refusal | fee), v⟩
    · rfl
    · dsimp only
      by_cases hsu : ter.isTesSuccess
      · rw [if_pos hsu, if_pos hsu]
        exact map_finish_eq v tx.fee refusal
      · rw [if_neg hsu, if_neg hsu]
        rfl
    · exact map_finish_eq v fee _
  · rw [if_neg hcl, if_neg hcl]
    by_cases hsu : ter.isTesSuccess
    · rw [if_pos hsu, if_pos hsu]
      exact map_finish_eq s.view tx.fee _
    · rw [if_neg hsu, if_neg hsu]
      rfl

theorem run_of_resolve {res : TER} {v : View} (h : resolve env tx P o flags = .ok (res, some v)) :
    ∃ ter s, (apply env tx P).run (initial tx o flags) = (.ok ter, s) ∧
      (ter = .tesSUCCESS ∨ claimsFee flags (sizedResult ter s.view)) := by
  unfold resolve at h
  by_cases hid : tx.transactionID = 0
  · rw [if_pos hid] at h
    cases h
  rw [if_neg hid] at h
  rcases run : (apply env tx P).run (initial tx o flags) with ⟨fault | ter, s⟩
  · rw [run] at h
    cases h
  refine ⟨ter, s, rfl, ?_⟩
  simp only [run] at h
  by_cases hu : ter = .temUNKNOWN
  · rw [if_pos hu] at h
    cases h
  rw [if_neg hu] at h
  by_cases hcl : claimsFee flags (sizedResult ter s.view)
  · exact .inr hcl
  rw [if_neg hcl] at h
  by_cases hsu : ter.isTesSuccess
  · exact .inl (by simpa [TER.isTesSuccess] using hsu)
  · rw [if_neg hsu] at h
    cases h

end Operator

end Transactor

/-- Before it writes: the result and the view to write. -/
def resolve (env : Env) (tx : STTx) (o : OpenView) (flags : Flags) :
    Except Fault (TER × Option View) :=
  match processorOf env tx with
  | none => .ok (.temUNKNOWN, none)
  | some p => Transactor.resolve env tx p.processor o flags

variable {tx : STTx} {o o' : OpenView} {flags : Flags} {ter : TER}

theorem invoke_eq (env : Env) (tx : STTx) (o : OpenView) (fgs : Flags) :
    invoke env tx o fgs = resolve env tx o fgs >>= conclude tx o := by
  unfold invoke resolve
  cases processorOf env tx with
  | none => rfl
  | some p => exact operate_eq

theorem apply_of_duplicate {env : Env} {v : View} (h : resolve env tx o flags = .ok (ter, some v))
    (hm : tx.transactionID ∈ o.txs) : apply env tx o flags = none := by
  have hiv : invoke env tx o flags = .error .crash := by
    rw [invoke_eq, h]
    show (o.accept tx v).map _ = _
    rw [OpenView.accept, if_pos hm]
    rfl
  rw [apply, hiv]

/-! ## What keeps a transaction from being written again -/

/-- The paid account is at its dividend, or the source beyond its number. -/
def Spent (tx : STTx) (ledger : Ledger) : Prop :=
  match tx.body.credit with
  | some (id, index) => index ≤ ledger.lastDividend id
  | none => ∃ root, ledger.lookup (.account tx.account) = some root ∧ tx.sequence < root.sequence

/-- It uses up its number, if it has one. -/
structure Numbered (tx : STTx) (o : OpenView) : Prop where
  change : tx.body.isChange → o.info.isOpen
  sequence : tx.body.isDividend = false → tx.sequence ≠ 0xFFFFFFFF
  chargeable : tx.body.isDividend = false → Chargeable tx o.ledger

/-- Its trace keeps it from being applied again. -/
structure Guarded (tx : STTx) (o : OpenView) : Prop extends Numbered tx o where
  dividend : tx.body.isDividend → ∃ id index, tx.body.credit = some (id, index) ∧
    o.ledger.lastDividend id ≤ index

theorem credit_of_not_dividend {body : TxBody} (h : body.isDividend = false) :
    body.credit = none := by
  cases body with
  | dividend fields => cases h
  | _ => rfl

theorem Change.preCheck_of_open (ho : o.info.isOpen) {s : TxState}
    (h : (preCheck tx).run (initial tx o flags) = (.ok ter, s)) :
    ter.isTecClaim = false ∧ ter ≠ .tesSUCCESS := by
  have hif : (o.fresh flags).context.info.isOpen := ho
  unfold preCheck at h
  split_ifs at h
  · cases h
    exact ⟨rfl, by rintro ⟨⟩⟩
  · simp [PreCheckM.run_context, initial, hif] at h
    rw [← h.1]
    exact ⟨rfl, by rintro ⟨⟩⟩

def Succeeds (env : Env) (tx : STTx) (o : OpenView) (flags : Flags) : Prop :=
  ∃ p ter s, processorOf env tx = some p ∧
    (Transactor.apply env tx p.processor).run (initial tx o flags) = (.ok ter, s) ∧
    (ter = .tesSUCCESS ∨ claimsFee flags (sizedResult ter s.view))

section Guards

variable {env : Env}

theorem succeeds_of_resolve {v : View}
    (h : resolve env tx o flags = .ok (ter, some v)) : Succeeds env tx o flags := by
  unfold resolve at h
  cases hp : processorOf env tx with
  | none =>
    rw [hp] at h
    cases h
  | some p =>
    rw [hp] at h
    obtain ⟨ter', s, run, ht⟩ := run_of_resolve h
    exact ⟨p, ter', s, hp, run, ht⟩

theorem Event.Takes.succeeds {e : Event} {led led' : Ledger} (h : e.Takes led led') :
    Succeeds e.env e.tx e.before e.flags := by
  obtain ⟨p, hp, _, ha⟩ := h.applied_cases
  obtain ⟨ter, s, run, ht⟩ := ha.run
  exact ⟨p, ter, s, hp, run, ht⟩

namespace Succeeds

section

variable (h : Succeeds env tx o flags)
include h

theorem isOpen_of_change (hc : tx.body.isChange) : o.info.isOpen = false := by
  by_contra ho
  rw [Bool.not_eq_false] at ho
  obtain ⟨p, ter, s, hp, run, ht⟩ := h
  obtain ⟨s1, hpre⟩ : ∃ s1, (preCheck tx).run (initial tx o flags) = (.ok .tesSUCCESS, s1) := by
    have hca : ∀ ⦃ter : TER⦄ ⦃s1 : TxState⦄,
        (preCheck tx).run (initial tx o flags) = (.ok ter, s1) → ter.isTecClaim = false :=
      fun _ _ hrs => (preCheck_of_open ho hrs).1
    unfold processorOf at hp
    cases hb : tx.body with
    | amendment amendment | fee settings =>
      rw [hb] at hp
      cases hp
      exact preCheck_of_run hca run ht
    | _ =>
      rw [hb] at hc
      cases hc
  exact (preCheck_of_open ho hpre).2 rfl

theorem sequence (hc : tx.body.isChange = false) (hd : tx.body.isDividend = false) :
    ∃ root, o.ledger.lookup (.account tx.account) = some root ∧ root.sequence = tx.sequence := by
  obtain ⟨p, ter, s, hp, run, ht⟩ := h
  obtain ⟨prior, hpe, hse⟩ := (standard_of_processorOf hp hc hd).presented_of_run run ht
  exact ⟨prior, hpe.root, hse⟩

theorem credit_ne {id : AccountID} {idx : UInt32}
    (hcr : tx.body.credit = some (id, idx)) : idx ≠ o.ledger.lastDividend id := by
  obtain ⟨p, ter, s, hp, run, ht⟩ := h
  obtain ⟨fields, hb, hap, rfl, rfl⟩ := credit_eq_some_iff.mp hcr
  rw [processorOf, hb] at hp
  cases hp
  rcases Dividend.run_apply_cases run with ⟨hrf, hsi⟩ | ⟨_, _, k, sle, hef, _⟩
  · rw [sizedResult_of_size_le _ hsi] at ht
    rcases ht with rfl | hcl
    · exact absurd rfl hrf.2
    · have hte := isTecClaim_of_claimsFee hcl
      rw [hrf.1] at hte
      cases hte
  · obtain ⟨root, _, hr, hne, _, _⟩ := (Dividend.effect_apply_iff hap).mp hef
    simpa [Ledger.lastDividend, hr] using hne

theorem not_spent (hgd : Guarded tx o) : ¬ Spent tx o.ledger := by
  intro hs
  unfold Spent at hs
  cases hd : tx.body.isDividend with
  | true =>
    obtain ⟨id, index, hcr, hle⟩ := hgd.dividend hd
    rw [hcr] at hs
    exact h.credit_ne hcr (UInt32.le_antisymm hs hle)
  | false =>
    rw [credit_of_not_dividend hd] at hs
    cases hc : tx.body.isChange with
    | true =>
      have hco := h.isOpen_of_change hc
      rw [hgd.change hc] at hco
      cases hco
    | false =>
      obtain ⟨root, hr, hse⟩ := h.sequence hc hd
      obtain ⟨root', hr', hlt⟩ := hs
      rw [hr] at hr'
      cases hr'
      rw [hse] at hlt
      exact UInt32.lt_irrefl _ hlt

end

end Succeeds

end Guards

theorem lt_succ_sequence {sq : UInt32} (h : sq ≠ 0xFFFFFFFF) : sq < sq + 1 := by
  rw [UInt32.lt_iff_toNat_lt, toNat_succ_iff.mpr h]
  exact Nat.lt_succ_self _

def Event.numbers (a : AccountID) (e : Event) : Bool :=
  !e.tx.body.isDividend && e.tx.account == a

namespace Event.Takes

variable {e : Event} {ledger ledger' : Ledger}

theorem inOrder_of_guarded (hgd : Guarded e.tx e.before) : e.InOrder := by
  intro id index hcr
  obtain ⟨fields, hb, _⟩ := credit_eq_some_iff.mp hcr
  obtain ⟨id', index', hcr', hle⟩ := hgd.dividend (TxBody.isDividend_iff.mpr ⟨fields, hb⟩)
  rw [hcr] at hcr'
  cases hcr'
  exact hle

section

variable (h : e.Takes ledger ledger')
include h

section

variable (hnum : Numbered e.tx e.before)
include hnum

theorem not_change : e.tx.body.isChange = false := by
  cases hc : e.tx.body.isChange with
  | false => rfl
  | true =>
    have hco := h.succeeds.isOpen_of_change hc
    rw [hnum.change hc] at hco
    cases hco

theorem usedUp_of_numbered (hd : e.tx.body.isDividend = false) : UsedUp e.tx ledger ledger' := by
  have hch := hnum.chargeable hd
  rw [h.before] at hch
  exact h.usedUp (h.not_change hnum) hd hch

variable {id : AccountID}

theorem numbered_of_other (ho : e.numbers id = false) :
    numbered.rel (.account id) (ledger.lookup (.account id)) (ledger'.lookup (.account id)) := by
  cases hd : e.tx.body.isDividend with
  | true =>
    obtain ⟨fields, hb⟩ := TxBody.isDividend_iff.mp hd
    exact h.numbered_dividend hb _
  | false =>
    refine (h.usedUp_of_numbered hnum hd).others id ?_
    rintro rfl
    simp [Event.numbers, hd] at ho

variable {root : AccountRoot} (hr : ledger.lookup (.account id) = some root)
include hr

theorem toNat_succ_of_numbers (ho : e.numbers id) : root.sequence = e.tx.sequence ∧
    ∃ root', ledger'.lookup (.account id) = some root' ∧
      root'.sequence.toNat = root.sequence.toNat + 1 := by
  simp only [Event.numbers, Bool.and_eq_true, Bool.not_eq_true', beq_iff_eq] at ho
  obtain ⟨hd, rfl⟩ := ho
  obtain ⟨prior, hpr, hse⟩ := h.succeeds.sequence (h.not_change hnum) hd
  rw [h.before, hr] at hpr
  cases hpr
  obtain ⟨root', hr', hse'⟩ := (h.usedUp_of_numbered hnum hd).source
  refine ⟨hse, root', hr', ?_⟩
  rw [hse', toNat_succ_iff.mpr (hnum.sequence hd), hse]

theorem sequence_le :
    ∃ root', ledger'.lookup (.account id) = some root' ∧ root.sequence ≤ root'.sequence := by
  cases ho : e.numbers id with
  | false =>
    obtain ⟨root', hr', hse⟩ := h.numbered_of_other hnum ho root hr
    exact ⟨root', hr', hse ▸ UInt32.le_refl _⟩
  | true =>
    obtain ⟨-, root', hr', hse⟩ := h.toNat_succ_of_numbers hnum hr ho
    exact ⟨root', hr', UInt32.le_iff_toNat_le.mpr (by omega)⟩

end

variable (hgd : Guarded e.tx e.before)
include hgd

theorem spent : Spent e.tx ledger' := by
  unfold Spent
  cases hd : e.tx.body.isDividend with
  | true =>
    obtain ⟨id, index, hcr, _⟩ := hgd.dividend hd
    rw [hcr]
    dsimp only
    rw [(lastDividend_of_credit h hcr).2]
    exact UInt32.le_refl index
  | false =>
    rw [credit_of_not_dividend hd]
    obtain ⟨root, hr, hse⟩ := (h.usedUp_of_numbered hgd.toNumbered hd).source
    refine ⟨root, hr, ?_⟩
    rw [hse]
    exact lt_succ_sequence (hgd.sequence hd)

theorem spent_of_spent (hs : Spent tx ledger) : Spent tx ledger' := by
  unfold Spent at hs ⊢
  cases hcr : tx.body.credit with
  | none =>
    rw [hcr] at hs
    obtain ⟨root, hr, hlt⟩ := hs
    obtain ⟨root', hr', hle⟩ := h.sequence_le hgd.toNumbered hr
    exact ⟨root', hr', UInt32.lt_of_lt_of_le hlt hle⟩
  | some credit =>
    rw [hcr] at hs
    exact UInt32.le_trans hs (lastDividend_le (inOrder_of_guarded hgd) h credit.1)

end

end Event.Takes

/-! ## Sequences of calls -/

/-- A call of `ripple::apply` that returns a view. -/
structure Event.Calls (e : Event) (o o' : OpenView) : Prop where
  before : e.before = o
  apply : apply e.env e.tx e.before e.flags = some e.out
  after : e.out.view = o'

theorem Event.Calls.unchanged_or_takes {e : Event} (h : e.Calls o o') :
    o' = o ∨ (e.Takes o.ledger o'.ledger ∧ o'.txs = e.tx.transactionID :: o.txs) := by
  cases ha : e.out.didApply with
  | false =>
    refine .inl ?_
    rw [← h.after, ← h.before]
    exact view_of_apply h.apply ha
  | true =>
    refine .inr ⟨⟨by rw [h.before], h.apply, ha, by rw [h.after]⟩, ?_⟩
    obtain ⟨p, _, _, hcs⟩ := applied_of_invoke (invoke_of_apply h.apply ha) ha
    rw [← h.after, ← h.before]
    exact hcs.txs.2

/-- Each listed one came by an event and left its trace. -/
def Accounted (es : List Event) (o : OpenView) : Prop :=
  ∀ id ∈ o.txs, ∃ e ∈ es, e.tx.transactionID = id ∧ Spent e.tx o.ledger

theorem accounted_of_calls {es : List Event} (hi : o.txs = []) (h : Run Event.Calls o es o')
    (hgd : ∀ e ∈ es, Guarded e.tx e.before) : Accounted es o' := by
  have hok : ∀ e ∈ es, e ∈ es ∧ Guarded e.tx e.before := fun e he => ⟨he, hgd e he⟩
  refine Run.invariant (Accounted es) h hok ?_ ?_
  · rintro e o1 o2 ⟨he, hg⟩ hcal hin id hid
    rcases hcal.unchanged_or_takes with rfl | ⟨hta, htx⟩
    · exact hin id hid
    rw [htx] at hid
    rcases List.mem_cons.mp hid with rfl | hid
    · exact ⟨e, he, rfl, hta.spent hg⟩
    · obtain ⟨e', he', hid', hs⟩ := hin id hid
      exact ⟨e', he', hid', hta.spent_of_spent hg hs⟩
  · intro id hid
    rw [hi] at hid
    cases hid

/-- After guarded calls on a new view, a call that comes to write its transaction does not find it
there. `his`: an identifier is a hash. -/
theorem transactionID_not_mem_of_calls {es : List Event} (hi : o.txs = [])
    (h : Run Event.Calls o es o') (hgd : ∀ e ∈ es, Guarded e.tx e.before) {env : Env}
    (hg : Guarded tx o')
    (his : ∀ e ∈ es, e.tx.transactionID = tx.transactionID →
      e.tx.body = tx.body ∧ e.tx.account = tx.account ∧ e.tx.sequence = tx.sequence) {v :
    View} (hre : resolve env tx o' flags = .ok (ter, some v)) : tx.transactionID ∉ o'.txs := by
  intro hm
  obtain ⟨e, he, hid, hs⟩ := accounted_of_calls hi h hgd _ hm
  obtain ⟨hb, hac, hse⟩ := his e he hid
  refine (succeeds_of_resolve hre).not_spent hg ?_
  unfold Spent at hs ⊢
  rwa [hb, hac, hse] at hs

def payerTx (sequence : UInt32) (drops : UInt64) : STTx where
  body := .payment { destination := 2, amount := .ofDrops drops }
  account := 1
  sequence := sequence
  fee := .ofDrops 10
  signingPubKey := [1]
  txnSignature := some [1]
  transactionID := .ofNat 256 sequence.toNat

def payerLedger : Ledger :=
  AList.insert (.account 1) { sequence := 1, balance := .ofDrops 1000 } ∅

theorem payerTx_guarded (sq : UInt32) (dr : UInt64) (hl : sq ≠ 0xFFFFFFFF)
    (o : OpenView) : Guarded (payerTx sq dr) o where
  change := nofun
  dividend := nofun
  sequence _ := hl
  chargeable _ h0 := by cases h0

theorem payerTx_new : ∃ (e : Event) (o' : OpenView) (ter : TER) (v : View),
      Run Event.Calls (sampleView payerLedger) [e] o' ∧ e.tx = payerTx 1 300 ∧
        e.out.didApply = true ∧
        resolve sampleEnv (payerTx 2 100) o' 0 = .ok (ter, some v) ∧
        (payerTx 2 100).transactionID ∉ o'.txs := by
  have hrn : (apply sampleEnv (payerTx 1 300) (sampleView payerLedger) 0).any (fun out =>
      out.didApply &&
        ((resolve sampleEnv (payerTx 2 100) out.view 0).toOption.bind Prod.snd).isSome) = true := by
    decide +kernel
  cases hap : apply sampleEnv (payerTx 1 300) (sampleView payerLedger) 0 with
  | none =>
    rw [hap] at hrn
    cases hrn
  | some out =>
    simp only [hap, Option.any_some, Bool.and_eq_true] at hrn
    obtain ⟨ha, hrn⟩ := hrn
    rcases hre : resolve sampleEnv (payerTx 2 100) out.view 0 with fault | ⟨ter, _ | v⟩
    · rw [hre] at hrn
      cases hrn
    · rw [hre] at hrn
      cases hrn
    · let e : Event := ⟨sampleEnv, payerTx 1 300, 0, sampleView payerLedger, out⟩
      have run : Run Event.Calls (sampleView payerLedger) [e] out.view :=
        .cons ⟨rfl, hap, rfl⟩ (.nil _)
      have hgd : ∀ e' ∈ [e], Guarded e'.tx e'.before := by
        intro e' he'
        obtain rfl := List.mem_singleton.mp he'
        exact payerTx_guarded 1 300 (by decide) _
      have his : ∀ e' ∈ [e], e'.tx.transactionID = (payerTx 2 100).transactionID →
          e'.tx.body = (payerTx 2 100).body ∧ e'.tx.account = (payerTx 2 100).account ∧
            e'.tx.sequence = (payerTx 2 100).sequence := by
        intro e' he' hid
        obtain rfl := List.mem_singleton.mp he'
        have hne : (payerTx 1 300).transactionID ≠ (payerTx 2 100).transactionID := by decide
        exact absurd hid hne
      exact ⟨e, out.view, ter, v, run, rfl, ha, hre,
        transactionID_not_mem_of_calls rfl run hgd (payerTx_guarded 2 100 (by decide) _) his hre⟩

/-- The transactions of an account have consecutive numbers, from its own on. -/
theorem sequences_consecutive {es : List Event} {ledger ledger' : Ledger}
    (h : History ledger es ledger') (hnum : ∀ e ∈ es, Numbered e.tx e.before) {a : AccountID}
    {root : AccountRoot} (hr : ledger.lookup (.account a) = some root) :
    (es.filter (Event.numbers a)).map (fun e => e.tx.sequence.toNat) =
        List.range' root.sequence.toNat (es.countP (Event.numbers a)) ∧
      ∃ root', ledger'.lookup (.account a) = some root' ∧
        root'.sequence.toNat = root.sequence.toNat + es.countP (Event.numbers a) := by
  induction h generalizing root with
  | nil s => exact ⟨rfl, root, hr, rfl⟩
  | @cons e es s s1 s2 hst _ ih =>
    have hn := hnum e List.mem_cons_self
    have ih := @ih fun e he => hnum e (List.mem_cons_of_mem _ he)
    cases ho : e.numbers a with
    | false =>
      obtain ⟨root1, hr1, hse⟩ := hst.numbered_of_other hn ho root hr
      change root1.sequence = root.sequence at hse
      rw [List.filter_cons_of_neg (by simp [ho]), List.countP_cons_of_neg (by simp [ho]), ← hse]
      exact ih hr1
    | true =>
      obtain ⟨hse, root1, hr1, hto⟩ := hst.toNat_succ_of_numbers hn hr ho
      obtain ⟨hl, root', hr', hse'⟩ := ih hr1
      rw [List.filter_cons_of_pos ho, List.countP_cons_of_pos ho, List.map_cons, hl,
        List.range'_succ, ← hto, ← hse]
      exact ⟨rfl, root', hr', by omega⟩

theorem payerTx_consecutive : ∃ (e1 e2 : Event) (ledger' : Ledger), e1.tx = payerTx 1 300 ∧
    e2.tx = payerTx 2 100 ∧ History payerLedger [e1, e2] ledger' ∧
    ∃ root', ledger'.lookup (.account 1) = some root' ∧ root'.sequence.toNat = 1 + 2 := by
  obtain ⟨e1, led1, ht1, he1, hnext⟩ := takes_of_invoke (payerTx 1 300) payerLedger
    (fun led => leaves (payerTx 2 100) led fun _ => true) (by decide +kernel)
  obtain ⟨e2, led2, ht2, he2, _⟩ := takes_of_invoke (payerTx 2 100) led1 (fun _ => true) hnext
  have hrun : History payerLedger [e1, e2] led2 := .cons ht1 (.cons ht2 (.nil _))
  have hnum : ∀ e ∈ [e1, e2], Numbered e.tx e.before := by
    simp only [List.forall_mem_cons, he1, he2]
    exact ⟨(payerTx_guarded 1 300 (by decide) _).toNumbered,
      (payerTx_guarded 2 100 (by decide) _).toNumbered, List.forall_mem_nil _⟩
  have hroot : payerLedger.lookup (.account 1) =
      some { sequence := 1, balance := .ofDrops 1000 } := rfl
  have hcount : [e1, e2].countP (Event.numbers 1) = 2 := by
    simp [Event.numbers, he1, he2, payerTx, TxBody.isDividend]
  obtain ⟨root', hroot', hseq⟩ := (sequences_consecutive hrun hnum hroot).2
  rw [hcount] at hseq
  exact ⟨e1, e2, led2, he1, he2, hrun, root', hroot', hseq⟩

end Sand
