import Sand.Tx.Transactor

/-!
# Processing against an open view

A transaction runs on a fresh view over the open view, which is written if it applies.
-/

namespace Sand

open LedgerM MonoM Evolution

structure OpenView where
  info : LedgerInfo
  fees : Fees
  /-- The drops in the ledger's header. -/
  drops : UInt64
  ledger : Ledger
  txs : List UInt256
  dropsCreated : UInt64
  dropsDestroyed : UInt64

namespace OpenView

variable (o : OpenView)

def fresh (flags : Flags) : View where
  context := ⟨o.info, o.fees, flags, o.txs⟩
  base := o.ledger
  items := ∅
  dropsCreated := 0
  dropsDestroyed := 0
  tab := none
  parents := []

theorem get_fresh (fgs : Flags) (k : Key) : (o.fresh fgs).get k = o.ledger.lookup k := by
  have hi : (o.fresh fgs).items.lookup k = none := AList.lookup_empty k
  rfl

theorem unwritten_fresh (fgs : Flags) : (o.fresh fgs).Unwritten := by
  intro k item hi
  cases hi

def accept (tx : STTx) (v : View) : Except Fault OpenView :=
  if tx.transactionID ∈ o.txs then
    .error .crash
  else
    .ok { o with
      ledger := v.commit
      txs := tx.transactionID :: o.txs
      dropsCreated := o.dropsCreated + v.dropsCreated
      dropsDestroyed := o.dropsDestroyed + v.dropsDestroyed }

theorem accept_eq_ok_iff {o o' : OpenView} {tx : STTx} {v : View} : o.accept tx v = .ok o' ↔
      tx.transactionID ∉ o.txs ∧ o' = { o with
          ledger := v.commit
          txs := tx.transactionID :: o.txs
          dropsCreated := o.dropsCreated + v.dropsCreated
          dropsDestroyed := o.dropsDestroyed + v.dropsDestroyed } := by
  unfold accept
  by_cases hme : tx.transactionID ∈ o.txs
  · simp [hme]
  · simp only [hme, ↓reduceIte, Except.ok.injEq, not_false_eq_true, true_and]
    exact eq_comm

def totalDrops : UInt64 :=
  o.drops + o.dropsCreated - o.dropsDestroyed

end OpenView

namespace Transactor

/-- The number used up, and the balance that remains. -/
def charged (tx : STTx) (rest : STAmount) (root : AccountRoot) : AccountRoot :=
  { root with balance := rest, sequence := tx.sequence + 1 }

theorem uncharged_charged (tx : STTx) (rest : STAmount) (root : AccountRoot) :
    uncharged (charged tx rest root) = uncharged root :=
  rfl

/-- The fee only, up to the balance. -/
def claimFee (tx : STTx) : LedgerM charge (Except TER STAmount) := do
  match ← peek (.account tx.account) with
  | none => return .error .terNO_ACCOUNT
  | some root =>
    if root.sequence < tx.sequence then
      return .error .terPRE_SEQ
    else if tx.sequence < root.sequence then
      return .error .tefPAST_SEQ
    else
      let balance := root.balance
      let isOpen := (← context).info.isOpen
      if ← (if balance.isZero then .ok true
          else if isOpen then balance.lt tx.fee else .ok false : Except Fault Bool) then
        return .error .terINSUF_FEE_B
      let fee := if ← balance.lt tx.fee then balance else tx.fee
      let rest ← balance.sub fee
      alter (.account tx.account) (charged tx rest) fun root =>
        charge_rel_account _ (uncharged_charged tx rest root)
      update (.account tx.account)
      return .ok fee

def oversize : Nat := 5200

/-- When the ledger is closed, and writes the view. -/
def finish (o : OpenView) (tx : STTx) (v : View) (fee : STAmount) : Except Fault OpenView :=
  if o.info.isOpen then
    o.accept tx v
  else if !fee.native || fee.negative then
    .error .exception
  else if fee.isZero then
    o.accept tx v
  else
    o.accept tx { v with dropsDestroyed := v.dropsDestroyed + fee.mantissa }

/-- Result, whether applied, and the view afterwards. -/
structure Outcome where
  ter : TER
  didApply : Bool
  view : OpenView

/-- After the view's size was looked at. -/
def sizedResult (ter : TER) (v : View) : TER :=
  if oversize < v.size then .tecOVERSIZE else ter

def claimsFee (flags : Flags) (ter : TER) : Bool :=
  ter == .tecOVERSIZE || (ter.isTecClaim && !flags.has tapRETRY)

section Operator

variable (env : Env) (tx : STTx) {E : Evolution} [Evolution.Sub charge E]

def initial (o : OpenView) (flags : Flags) : TxState :=
  { view := o.fresh flags, sigState := tx.sigState }

def operate (P : Processor E) (o : OpenView) (flags : Flags) : Except Fault Outcome :=
  if tx.transactionID = 0 then
    .ok ⟨.temINVALID_FLAG, false, o⟩
  else
    match (apply env tx P).run (initial tx o flags) with
    | (.error fault, _) => .error fault
    | (.ok ter, s) =>
      if ter = .temUNKNOWN then
        .ok ⟨.temUNKNOWN, false, o⟩
      else
        let result := sizedResult ter s.view
        if claimsFee flags result then
          match (claimFee tx).run (o.fresh flags) with
          | (.error fault, _) => .error fault
          | (.ok (.ok fee), v) => (finish o tx v fee).map fun o' => ⟨result, true, o'⟩
          | (.ok (.error refusal), v) =>
            -- a success that grew too large still counts as applied
            if ter.isTesSuccess then
              (finish o tx v tx.fee).map fun o' => ⟨refusal, true, o'⟩
            else
              .ok ⟨refusal, false, o⟩
        else if ter.isTesSuccess then
          (finish o tx s.view tx.fee).map fun o' => ⟨result, true, o'⟩
        else
          .ok ⟨result, false, o⟩

inductive Applied (P : Processor E) (o : OpenView) (flags : Flags) : Outcome → Prop
  /-- The body took effect, the fee was paid. -/
  | success {s : TxState} {o' : OpenView}
      (hr : (apply env tx P).run (initial tx o flags) = (.ok .tesSUCCESS, s))
      (hs : s.view.size ≤ oversize) (hf : finish o tx s.view tx.fee = .ok o') :
      Applied P o flags ⟨.tesSUCCESS, true, o'⟩
  /-- Only the fee was charged. -/
  | claimed {ter : TER} {s : TxState} {v : View} {fee : STAmount} {o' : OpenView}
      (hr : (apply env tx P).run (initial tx o flags) = (.ok ter, s))
      (hcl : claimsFee flags (sizedResult ter s.view))
      (hc : (claimFee tx).run (o.fresh flags) = (.ok (.ok fee), v))
      (hf : finish o tx v fee = .ok o') :
      Applied P o flags ⟨sizedResult ter s.view, true, o'⟩
  /-- The body was too large, the fee not charged. -/
  | uncharged {s : TxState} {v : View} {refusal : TER} {o' : OpenView}
      (hr : (apply env tx P).run (initial tx o flags) = (.ok .tesSUCCESS, s))
      (hs : oversize < s.view.size)
      (hc : (claimFee tx).run (o.fresh flags) = (.ok (.error refusal), v))
      (hf : finish o tx v tx.fee = .ok o') :
      Applied P o flags ⟨refusal, true, o'⟩

end Operator

/-! ## What an outcome says -/

theorem isTecClaim_of_claimsFee {fgs : Flags} {ter : TER} (h : claimsFee fgs ter) :
    ter.isTecClaim := by
  simp only [claimsFee, Bool.or_eq_true, beq_iff_eq, Bool.and_eq_true] at h
  rcases h with rfl | h
  · rfl
  · exact h.1

theorem sizedResult_of_size_le {v : View} (ter : TER) (h : v.size ≤ oversize) :
    sizedResult ter v = ter := by
  simp [sizedResult, Nat.not_lt.mpr h]

theorem sizedResult_of_unwritten {v : View} (ter : TER) (h : v.Unwritten) :
    sizedResult ter v = ter :=
  sizedResult_of_size_le ter (by simp [View.size_of_unwritten h])

theorem claimsFee_success (fgs : Flags) : claimsFee fgs .tesSUCCESS = false := by
  rw [claimsFee]
  rfl

section Operator

variable {env : Env} {tx : STTx} {E : Evolution} [Evolution.Sub charge E]
  {P : Processor E} {o : OpenView} {flags : Flags} {out : Outcome}

variable {v : View} {fee : STAmount} {o' : OpenView}

theorem finish_eq_ok_iff : finish o tx v fee = .ok o' ↔ tx.transactionID ∉ o.txs ∧
        (o.info.isOpen = false → fee.native ∧ fee.negative = false) ∧
        o' = { o with
          ledger := v.commit
          txs := tx.transactionID :: o.txs
          dropsCreated := o.dropsCreated + v.dropsCreated
          dropsDestroyed := o.dropsDestroyed +
            (v.dropsDestroyed + if o.info.isOpen then 0 else fee.mantissa) } := by
  unfold finish
  cases ho : o.info.isOpen
  · cases hna : fee.native <;> cases hng : fee.negative
    case true.false =>
      by_cases h0 : fee.isZero
      · have hma : fee.mantissa = 0 := by
          by_contra hne
          simp [STAmount.isZero, STAmount.signum, hne, hng] at h0
        simp [h0, hma, OpenView.accept_eq_ok_iff]
      · simp only [h0, Bool.not_true, Bool.or_self, Bool.false_eq_true, ↓reduceIte,
          OpenView.accept_eq_ok_iff, and_self, imp_self, true_and]
        rfl
    all_goals simp
  · simp [OpenView.accept_eq_ok_iff]

theorem ledger_of_finish (h : finish o tx v fee = .ok o') : o'.ledger = v.commit := by
  obtain ⟨_, _, rfl⟩ := finish_eq_ok_iff.mp h
  rfl

theorem map_finish_eq_ok {f : OpenView → Outcome} (h : (finish o tx v fee).map f = .ok out) :
    ∃ o', finish o tx v fee = .ok o' ∧ f o' = out := by
  cases hf : finish o tx v fee with
  | error fault => simp [hf, Except.map] at h
  | ok o' => exact ⟨o', rfl, by simpa [hf, Except.map] using h⟩

section

variable (h : operate env tx P o flags = .ok out)
include h

/-- It was applied in one of these ways, or the view is as it was. -/
theorem operate_cases : (tx.transactionID ≠ 0 ∧ Applied env tx P o flags out) ∨
      (out.didApply = false ∧ out.view = o) := by
  unfold operate at h
  by_cases hid : tx.transactionID = 0
  · rw [if_pos hid] at h
    cases h
    exact .inr ⟨rfl, rfl⟩
  rw [if_neg hid] at h
  rcases hr : (apply env tx P).run (initial tx o flags) with ⟨fault | ter, s⟩
  · simp [hr] at h
  simp only [hr] at h
  by_cases hu : ter = .temUNKNOWN
  · rw [if_pos hu] at h
    cases h
    exact .inr ⟨rfl, rfl⟩
  rw [if_neg hu] at h
  by_cases hcl : claimsFee flags (sizedResult ter s.view)
  · rw [if_pos hcl] at h
    rcases hc : (claimFee tx).run (o.fresh flags) with ⟨fault | (refusal | fee), v⟩
    · simp [hc] at h
    · simp only [hc] at h
      by_cases hsu : ter.isTesSuccess
      · rw [if_pos hsu] at h
        obtain ⟨o', hf, rfl⟩ := map_finish_eq_ok h
        have ht : ter = .tesSUCCESS := by simpa [TER.isTesSuccess] using hsu
        subst ht
        have hs : oversize < s.view.size := by
          by_contra hsm
          rw [sizedResult_of_size_le _ (Nat.not_lt.mp hsm), claimsFee_success] at hcl
          cases hcl
        exact .inl ⟨hid, .uncharged hr hs hc hf⟩
      · rw [if_neg hsu] at h
        cases h
        exact .inr ⟨rfl, rfl⟩
    · simp only [hc] at h
      obtain ⟨o', hf, rfl⟩ := map_finish_eq_ok h
      exact .inl ⟨hid, .claimed hr hcl hc hf⟩
  · rw [if_neg hcl] at h
    by_cases hsu : ter.isTesSuccess
    · rw [if_pos hsu] at h
      obtain ⟨o', hf, rfl⟩ := map_finish_eq_ok h
      have ht : ter = .tesSUCCESS := by simpa [TER.isTesSuccess] using hsu
      subst ht
      have hs : s.view.size ≤ oversize := by
        by_contra hl
        exact hcl (by simp [sizedResult, Nat.not_le.mp hl, claimsFee])
      rw [sizedResult_of_size_le _ hs]
      exact .inl ⟨hid, .success hr hs hf⟩
    · rw [if_neg hsu] at h
      cases h
      exact .inr ⟨rfl, rfl⟩

theorem applied_of_operate (ha : out.didApply) :
    tx.transactionID ≠ 0 ∧ Applied env tx P o flags out := by
  rcases operate_cases h with hca | ⟨hn, _⟩
  · exact hca
  · rw [ha] at hn
    cases hn

theorem view_of_not_applied (hn : out.didApply = false) : out.view = o := by
  rcases operate_cases h with ⟨_, ha⟩ | ⟨_, hvi⟩
  · cases ha <;> cases hn
  · exact hvi

end

variable {s : TxState}

theorem operate_of_success (hid : tx.transactionID ≠ 0)
    (hr : (apply env tx P).run (initial tx o flags) = (.ok .tesSUCCESS, s))
    (hs : s.view.size ≤ oversize) (hf : finish o tx s.view tx.fee = .ok o') :
    operate env tx P o flags = .ok ⟨.tesSUCCESS, true, o'⟩ := by
  unfold operate
  rw [if_neg hid, hr]
  simp only [reduceCtorEq, ↓reduceIte, sizedResult_of_size_le _ hs, claimsFee_success, hf]
  rfl

theorem operate_of_claimed (hid : tx.transactionID ≠ 0) {ter : TER}
    (hr : (apply env tx P).run (initial tx o flags) = (.ok ter, s)) (hk : ter ≠ .temUNKNOWN)
    (hcl : claimsFee flags (sizedResult ter s.view))
    (hc : (claimFee tx).run (o.fresh flags) = (.ok (.ok fee), v))
    (hf : finish o tx v fee = .ok o') :
    operate env tx P o flags = .ok ⟨sizedResult ter s.view, true, o'⟩ := by
  unfold operate
  rw [if_neg hid, hr]
  simp only [hk, ↓reduceIte, hcl, hc, hf]
  rfl

omit [Evolution.Sub charge E] in
theorem refusal_of_claimFee {rf : TER} {v' : View}
    (h : (claimFee tx).run v = (.ok (.error rf), v')) : rf ≠ .tesSUCCESS := by
  obtain ⟨found, v1, _, h⟩ := bind_eq_ok.mp h
  cases found with
  | none =>
    cases h
    exact nofun
  | some root =>
    simp only [run_ite] at h
    by_cases hpr : root.sequence < tx.sequence
    · rw [if_pos hpr] at h
      cases h
      exact nofun
    rw [if_neg hpr] at h
    by_cases hp : tx.sequence < root.sequence
    · rw [if_pos hp] at h
      cases h
      exact nofun
    rw [if_neg hp] at h
    obtain ⟨_, _, _, h⟩ := bind_eq_ok.mp h
    obtain ⟨refused, _, _, h⟩ := bind_eq_ok.mp h
    cases refused with
    | true =>
      cases h
      exact nofun
    | false =>
      obtain ⟨_, _, _, h⟩ := bind_eq_ok.mp h
      obtain ⟨_, _, _, h⟩ := bind_eq_ok.mp h
      obtain ⟨_, _, _, h⟩ := bind_eq_ok.mp h
      obtain ⟨_, _, _, h⟩ := bind_eq_ok.mp h
      cases h

theorem Applied.run_of_tesSUCCESS (h : Applied env tx P o flags out) (ht : out.ter = .tesSUCCESS) :
    ∃ s, (apply env tx P).run (initial tx o flags) = (.ok .tesSUCCESS, s) ∧
      out.view.ledger = s.view.commit := by
  cases h with
  | success hr _ hf => exact ⟨_, hr, ledger_of_finish hf⟩
  | claimed _ hcl _ _ =>
    rw [show sizedResult _ _ = TER.tesSUCCESS from ht, claimsFee_success] at hcl
    cases hcl
  | uncharged _ _ hc _ => exact absurd ht (refusal_of_claimFee hc)

theorem Applied.txs (h : Applied env tx P o flags out) :
    tx.transactionID ∉ o.txs ∧ out.view.txs = tx.transactionID :: o.txs := by
  have hfi : ∀ {v fee o'}, finish o tx v fee = .ok o' →
      tx.transactionID ∉ o.txs ∧ o'.txs = tx.transactionID :: o.txs := by
    intro v fee o' hf
    obtain ⟨hnw, _, rfl⟩ := finish_eq_ok_iff.mp hf
    exact ⟨hnw, rfl⟩
  cases h with
  | success _ _ hf => exact hfi hf
  | claimed _ _ _ hf => exact hfi hf
  | uncharged _ _ _ hf => exact hfi hf

omit [Evolution.Sub charge E] in
theorem rel_of_finish (hv : View.Evolves E (o.fresh flags) v) (h : finish o tx v fee = .ok o')
    (k : Key) : E.rel k (o.ledger.lookup k) (o'.ledger.lookup k) := by
  rw [ledger_of_finish h]
  exact hv.commit (OpenView.get_fresh o flags) k

theorem evolves_claimFee {res : Except Fault (Except TER STAmount)}
    (h : (claimFee tx).run (o.fresh flags) = (res, v)) : View.Evolves E (o.fresh flags) v := by
  have hm := (claimFee tx).mono (o.fresh flags)
  rw [h] at hm
  exact hm.weaken

/-- However it is applied, entries evolve as its type permits. -/
theorem Applied.rel (h : Applied env tx P o flags out) (k : Key) :
    E.rel k (o.ledger.lookup k) (out.view.ledger.lookup k) := by
  cases h with
  | success hr _ hf =>
    have hm := (apply env tx P).mono (initial tx o flags)
    rw [hr] at hm
    exact rel_of_finish hm hf k
  | claimed _ _ hr hf => exact rel_of_finish (evolves_claimFee hr) hf k
  | uncharged _ _ hr hf => exact rel_of_finish (evolves_claimFee hr) hf k

end Operator

end Transactor

end Sand
