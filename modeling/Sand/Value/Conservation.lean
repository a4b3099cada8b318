import Sand.Value.DirectPayment

/-!
# Conservation of drops

All balances together change by what is destroyed and by nothing else.
-/

namespace Sand

open Transactor View STAmount OpenView FiniteMap Option Payment AList Bool

def heldDrops : ∀ k, Entry k → Int
  | .account _, root => root.balance.drops
  | _, _ => 0

def Ledger.totalBalance (ledger : Ledger) : Int :=
  total heldDrops ledger

/-- Not negative, and together in the native range. -/
structure Ledger.Sound (ledger : Ledger) : Prop where
  balance : ∀ id root, ledger.lookup (.account id) = some root → root.balance.IsDrops
  nonneg : ∀ id root, ledger.lookup (.account id) = some root → 0 ≤ root.balance.drops
  total : ledger.totalBalance ≤ cMaxNative

namespace Ledger.Sound

variable {ledger : Ledger}

theorem valueAt_nonneg (h : ledger.Sound) (k : Key) : 0 ≤ valueAt heldDrops ledger k := by
  unfold valueAt
  cases hlk : ledger.lookup k with
  | none => exact Int.le_refl 0
  | some sle =>
    cases k with
    | account id => exact h.nonneg id sle hlk
    | _ => exact Int.le_refl 0

theorem balance_le (h : ledger.Sound) {id : AccountID} {root : AccountRoot}
    (hr : ledger.lookup (.account id) = some root) :
    root.balance.drops ≤ cMaxNative := by
  have hva := valueAt_le_total heldDrops ledger h.valueAt_nonneg (.account id)
  have ht := h.total
  simp only [valueAt, hr, elim_some, heldDrops] at hva
  unfold totalBalance at ht
  omega

end Ledger.Sound

/-! ## Totals through a view -/

namespace View

variable {v v' : View}

def Written (v : View) : Prop :=
  ∀ k item, v.items.lookup k = some item → item.1 ≠ .cache

theorem Written.lookup_commit (h : v.Written) (k : Key) : v.commit.lookup k = v.get k := by
  cases hi : v.items.lookup k with
  | none => rw [lookup_commit_of_none hi, get_of_none hi]
  | some item => exact lookup_commit_of_item hi (h k item hi)

variable {action : Action}

theorem Sets.written {k : Key} {sle : Entry k} (h : v.Sets v' k action sle)
    (ha : action ≠ .cache) (hv : v.Written) : v'.Written := by
  intro k' item hi
  obtain rfl | hk := eq_or_ne k' k
  · rw [h.item] at hi
    cases hi
    exact ha
  · rw [h.others k' hk] at hi
    exact hv k' item hi

theorem Sets.get_ne {k k' : Key} {sle : Entry k} (h : v.Sets v' k action sle) (hk : k' ≠ k) :
    v'.get k' = v.get k' := by
  rw [get, get, h.others k' hk, h.base]

theorem Sets.totalBalance {id : AccountID} {root : AccountRoot}
    (h : v.Sets v' (.account id) action root) (ha : action.Keeps) (hv : v.Written) :
    v'.commit.totalBalance = v.commit.totalBalance -
      ((v.get (.account id)).elim 0 fun root => root.balance.drops) + root.balance.drops := by
  have hwr := h.written ha.ne_cache hv
  have hag : ∀ k, k ≠ Key.account id → v'.commit.lookup k = v.commit.lookup k := by
    intro k hk
    rw [hwr.lookup_commit, hv.lookup_commit, h.get_ne hk]
  have hold : valueAt heldDrops v.commit (.account id) =
      (v.get (.account id)).elim 0 fun root => root.balance.drops := by
    rw [valueAt, hv.lookup_commit]
    rfl
  have hnw : valueAt heldDrops v'.commit (.account id) = root.balance.drops := by
    rw [valueAt, hwr.lookup_commit, get_of_item h.item, ha.visible (k := .account id) root]
    rfl
  unfold Ledger.totalBalance
  rw [total_of_agree heldDrops hag, hold, hnw]

end View

namespace OpenView

theorem written_fresh (o : OpenView) (fgs : Flags) : (o.fresh fgs).Written := by
  intro k item hi
  cases hi

theorem commit_fresh (o : OpenView) (fgs : Flags) : (o.fresh fgs).commit = o.ledger := rfl

end OpenView

section Finish

variable {tx : STTx} {o o' : OpenView} {flags : Flags} {v : View} {fee : STAmount}

theorem Transactor.FeeLegal.isDrops (h : FeeLegal tx) (he : tx.fee.exponent = 0) :
    tx.fee.IsDrops ∧ 0 ≤ tx.fee.drops ∧ tx.fee.drops ≤ cMaxNativeN :=
  isDrops_of_isLegalNet h.1 he h.2.1 h.2.2

theorem finish_destroys (hc : o.info.isOpen = false) (hv : v.dropsDestroyed = 0)
    (h : finish o tx v fee = .ok o') :
    o'.ledger = v.commit ∧ ((o'.dropsDestroyed - o.dropsDestroyed).toNat : Int) = fee.drops := by
  obtain ⟨_, hf, rfl⟩ := finish_eq_ok_iff.mp h
  obtain ⟨_, hsg⟩ := hf hc
  have hd : o.dropsDestroyed + (v.dropsDestroyed + fee.mantissa) - o.dropsDestroyed =
      fee.mantissa := by
    rw [hv, UInt64.zero_add, UInt64.add_comm, UInt64.add_sub_cancel]
  refine ⟨rfl, ?_⟩
  simp [hc, false_eq_true, ↓reduceIte, hd, STAmount.drops, hsg]

theorem claimed_conserves (hs : o.ledger.Sound) (hc : o.info.isOpen = false)
    (hl : FeeLegal tx) (he : tx.fee.exponent = 0)
    (hch : (claimFee tx).run (o.fresh flags) = (.ok (.ok fee), v))
    (hfi : finish o tx v fee = .ok o') :
    o'.ledger.totalBalance =
      o.ledger.totalBalance - (o'.dropsDestroyed - o.dropsDestroyed).toNat := by
  obtain ⟨root, short, rest, hr, _, hf, hrs, rfl⟩ := claimFee_charged hch
  obtain ⟨hld, hd⟩ := finish_destroys hc rfl hfi
  have hba := hs.balance _ _ hr
  have hn := hs.nonneg _ _ hr
  have hle := hs.balance_le hr
  have hfeeDrops : fee.IsDrops := by
    rw [hf]
    split
    · exact hba
    · exact (hl.isDrops he).1
  have hft := hfeeDrops.fits
  rw [← natAbs_drops] at hft
  simp only [cMaxNative] at hle
  obtain ⟨_, hdr⟩ := hba.sub hfeeDrops hrs (by omega) (by omega)
  have ht := (sets_setItem (o.fresh flags) (.account tx.account) .modify
    (charged tx rest root)).totalBalance (.inl rfl) (o.written_fresh flags)
  rw [commit_fresh, get_fresh, hr] at ht
  rw [hld, ht, hd]
  simp only [elim_some, charged, hdr]
  omega

end Finish

/-! ## Native payments -/

namespace Payment

variable {env : Env} {tx : STTx} {fields : PaymentTx} {o : OpenView} {flags : Flags}

/-- It takes effect: the root after the fee, and the body. -/
theorem enacted_of_apply {s' : TxState}
    (run : (Transactor.apply env tx (processor env tx fields)).run (initial tx o flags) =
      (.ok .tesSUCCESS, s')) :
    ∃ prior balance s, o.ledger.lookup (.account tx.account) = some prior ∧
      Paid tx prior.balance balance ∧ s.account = tx.account ∧ s.sourceBalance = balance ∧
      s.view = (o.fresh flags).setItem (.account tx.account)
        (some (.modify, paidRoot tx balance prior)) ∧
      fields.amount.isLegalNet ∧ fields.amount.isPositive ∧
      (doApply tx fields).run s = (.ok .tesSUCCESS, s') := by
  have hst : Standard env tx (processor env tx fields) :=
    standard_standard (preChecked env tx fields)
  rcases hst.start_of_apply run with
    ⟨hne, _⟩ | ⟨prior, balance, s, hps, hpa, hac, hsr, hvi, _, hb⟩
  · exact absurd rfl hne
  obtain ⟨_, hpre⟩ := hps.preCheck
  obtain ⟨hl, hpo⟩ := amount_of_preCheck hpre
  exact ⟨prior, balance, s, hps.root, hpa, hac, hsr, hvi, hl, hpo, hb⟩

theorem drops_of_paid {bal rest : STAmount} (hba : bal.IsDrops)
    (hn : 0 ≤ bal.drops) (hle : bal.drops ≤ cMaxNative)
    (hf : tx.fee.IsDrops) (hfeeNonneg : 0 ≤ tx.fee.drops) (h : Paid tx bal rest) :
    rest.IsDrops ∧ 0 ≤ rest.drops ∧ rest.drops = bal.drops - tx.fee.drops := by
  rcases h with ⟨h0, rfl⟩ | ⟨_, hlt, hsu⟩
  · have hdr := drops_of_isZero h0
    exact ⟨hba, hn, by omega⟩
  rw [hba.lt hf, Except.ok.injEq, decide_eq_false_iff_not] at hlt
  simp only [cMaxNative] at hle
  obtain ⟨hrs, hdr⟩ := hba.sub hf hsu (by omega) (by omega)
  exact ⟨hrs, by omega, hdr⟩

structure InRange (balance : STAmount) : Prop where
  isDrops : balance.IsDrops
  nonneg : 0 ≤ balance.drops
  le : balance.drops ≤ cMaxNative

theorem inRange_created : InRange created.balance where
  isDrops := ⟨rfl, rfl, fun _ => rfl, by decide⟩
  nonneg := by decide
  le := by decide

theorem moved_conserves {s : TxState} {v v1 v' : View} {source : AccountRoot}
    (hm : ∀ k item, v.items.lookup k = some item → item.1 = .modify)
    (hi : v.items.lookup (.account s.account) = some (.modify, source))
    (hsr : s.sourceBalance = source.balance)
    (hrn : ∀ id root, v.get (.account id) = some root → InRange root.balance)
    (ham : fields.amount.IsDrops) (hn : 0 ≤ fields.amount.drops)
    (hle : fields.amount.drops ≤ cMaxNativeN)
    (hpe : (prepareDestination tx fields).run v = (.ok none, v1))
    (hmo : (direct tx fields s).run v1 = (.ok .tesSUCCESS, v')) :
    v'.commit.totalBalance = v.commit.totalBalance ∧ v'.dropsDestroyed = v.dropsDestroyed ∧
      v'.size ≤ v.size + 3 := by
  have hwr : v.Written := fun k item h => by rw [hm k item h]; decide
  have hg : v.get (.account s.account) = some source := get_of_item hi
  -- the destination, possibly created with nothing
  obtain ⟨action, dst, ha, hset1, hds⟩ :=
    prepareDestination_sets (hm (.account fields.destination)) hpe
  have hwritten1 := hset1.written ha.ne_cache hwr
  have hdstRange : InRange dst.balance := by
    rw [← hds]
    cases hr : v.get (.account fields.destination) with
    | none => exact inRange_created
    | some root => exact hrn _ root hr
  have htotal1 : v1.commit.totalBalance = v.commit.totalBalance := by
    have h := hset1.totalBalance ha hwr
    have hold : (v.get (.account fields.destination)).elim 0 (fun root => root.balance.drops) =
        dst.balance.drops := by
      rw [← hds]
      cases v.get (.account fields.destination) <;> rfl
    omega
  have hitem1 : ∃ action0, action0.Keeps ∧
      v1.items.lookup (.account s.account) = some (action0, source) := by
    by_cases hsl : fields.destination = s.account
    · have hr := hds
      rw [hsl, hg] at hr
      subst hr
      have hse := hset1.item
      rw [hsl] at hse
      exact ⟨action, ha, hse⟩
    · have hke : Key.account s.account ≠ .account fields.destination :=
        fun heq => hsl (Key.account.inj heq).symm
      exact ⟨.modify, .inl rfl, (hset1.others _ hke).trans hi⟩
  obtain ⟨action0, haction0, hitem1⟩ := hitem1
  -- the source gives the amount
  obtain ⟨rest, balance, v2, action', dst', hrs, hset2, hitem2, ha', hba, hset3⟩ :=
    direct_sets hitem1 haction0 hset1.item ha hmo
  have hsourceRange := hrn _ source hg
  have hsourceLe := hsourceRange.le
  have hsourceNonneg := hsourceRange.nonneg
  simp only [cMaxNative] at hsourceLe
  simp only [cMaxNativeN] at hle
  rw [hsr] at hrs
  obtain ⟨hrestDrops, hrestEq⟩ := hsourceRange.isDrops.sub ham hrs (by omega) (by omega)
  have htotal2 := hset2.totalBalance haction0 hwritten1
  have hget1 : v1.get (.account s.account) = some source :=
    (get_of_item hitem1).trans (haction0.visible (k := .account s.account) source)
  rw [hget1, elim_some] at htotal2
  -- and the destination takes it
  have hds' : dst'.balance.IsDrops ∧ -cMaxNativeN ≤ dst'.balance.drops ∧
      dst'.balance.drops ≤ cMaxNative := by
    by_cases hsl : fields.destination = s.account
    · have hse := hset2.item
      rw [← hsl, hitem2] at hse
      cases hse
      simp only [cMaxNative, cMaxNativeN]
      exact ⟨hrestDrops, by omega, by omega⟩
    · have hke : Key.account fields.destination ≠ .account s.account :=
        fun heq => hsl (Key.account.inj heq)
      have hse := hset2.others _ hke
      rw [hitem2, hset1.item] at hse
      cases hse
      have hn' := hdstRange.nonneg
      exact ⟨hdstRange.isDrops, by omega, hdstRange.le⟩
  obtain ⟨hdstDrops, hdstLo, hdstHi⟩ := hds'
  simp only [cMaxNative, cMaxNativeN] at hdstLo hdstHi
  obtain ⟨_, hbalanceEq⟩ := hdstDrops.add ham hba (by omega) (by omega)
  have htotal3 := hset3.totalBalance ha' (hset2.written haction0.ne_cache hwritten1)
  have hget2 : v2.get (.account fields.destination) = some dst' :=
    (get_of_item hitem2).trans (ha'.visible (k := .account fields.destination) dst')
  rw [hget2, elim_some] at htotal3
  refine ⟨?_, ?_, ?_⟩
  · simp only [paid, hbalanceEq] at htotal3
    simp only [hrestEq] at htotal2
    omega
  · rw [hset3.dropsDestroyed, hset2.dropsDestroyed, hset1.dropsDestroyed]
  · have hsize1 := hset1.size
    have hsize2 := hset2.size
    have hsize3 := hset3.size
    omega

/-- It takes the fee from the balances and nothing else. -/
theorem direct_conserves (hs : o.ledger.Sound) (hl : FeeLegal tx)
    (hf : tx.fee.exponent = 0) (ham : fields.amount.exponent = 0)
    (hdi : ripples fields = false) {s' : TxState}
    (run : (Transactor.apply env tx (processor env tx fields)).run (initial tx o flags) =
      (.ok .tesSUCCESS, s')) :
    s'.view.commit.totalBalance = o.ledger.totalBalance - tx.fee.drops ∧
      s'.view.dropsDestroyed = 0 ∧ s'.view.size ≤ oversize := by
  obtain ⟨prior, balance, s, hpr, hpa, hac, hsr, hvi, hamountLegal, hpo, hb⟩ := enacted_of_apply run
  obtain ⟨v1, hpe, hmo⟩ := doApply_direct hdi hb
  have hna : fields.amount.native := by
    simp only [ripples, or_eq_false_iff, not_eq_false'] at hdi
    exact hdi.2
  obtain ⟨hfeeDrops, hfeeNonneg, _⟩ := hl.isDrops hf
  obtain ⟨hamountDrops, hamountNonneg, hamountLe⟩ := isDrops_of_isLegalNet hna ham
    (isPositive_iff.mp hpo).2 hamountLegal
  have hpriorLe := hs.balance_le hpr
  obtain ⟨hba, hbalanceNonneg, hbalanceDrops⟩ := drops_of_paid (hs.balance _ _ hpr)
    (hs.nonneg _ _ hpr) hpriorLe hfeeDrops hfeeNonneg hpa
  -- the source has paid its fee
  have hse := sets_setItem (o.fresh flags) (.account tx.account) .modify (paidRoot tx balance prior)
  rw [← hvi] at hse
  have ht := hse.totalBalance (.inl rfl) (o.written_fresh flags)
  rw [commit_fresh, get_fresh, hpr, elim_some] at ht
  have hm : ∀ k item, s.view.items.lookup k = some item → item.1 = .modify := by
    intro k item hi
    by_cases hk : k = .account tx.account
    · subst hk
      rw [hse.item] at hi
      cases hi
      rfl
    · rw [hse.others k hk, OpenView.fresh, lookup_empty] at hi
      cases hi
  have hrn : ∀ id root, s.view.get (.account id) = some root → InRange root.balance := by
    intro id root hr
    obtain rfl | hid := eq_or_ne id tx.account
    · rw [get_of_item hse.item] at hr
      cases hr
      exact ⟨hba, hbalanceNonneg, by simp only [paidRoot]; omega⟩
    · rw [hse.get_ne (fun heq => hid (Key.account.inj heq)), get_fresh] at hr
      exact ⟨hs.balance _ _ hr, hs.nonneg _ _ hr, hs.balance_le hr⟩
  obtain ⟨hmv, hd, hsi⟩ := moved_conserves hm
    (by rw [hac]; exact hse.item) hsr hrn hamountDrops hamountNonneg hamountLe
    hpe hmo
  refine ⟨?_, hd.trans hse.dropsDestroyed, ?_⟩
  · simp only [paidRoot] at ht
    omega
  have hsize0 := hse.size
  rw [size_of_unwritten (o.unwritten_fresh flags)] at hsize0
  unfold oversize
  omega

end Payment

/-! ## Applied transactions -/

section Applied

variable {env : Env} {tx : STTx} {o : OpenView} {flags : Flags} {out : Outcome}

theorem claimFee_refusal {rf : TER} {v : View}
    (h : (claimFee tx).run (o.fresh flags) = (.ok (.error rf), v)) :
    rf.isTecClaim = false := by
  cases hr : o.ledger.lookup (.account tx.account) with
  | none =>
    have hpk : (o.fresh flags).peek (.account tx.account) = (none, o.fresh flags) :=
      peek_of_absent (lookup_empty _) hr
    simp only [claimFee, MonoM.run_bind, LedgerM.run_peek, hpk, MonoM.bindRun_ok,
      MonoM.run_pure] at h
    cases h
    rfl
  | some root =>
    rw [run_claimFee hr] at h
    generalize (if root.balance.isZero then Except.ok true
      else if o.info.isOpen then root.balance.lt tx.fee else Except.ok false) = refused
      at h
    split_ifs at h
    · cases h
      rfl
    · cases h
      rfl
    · rcases refused with fault | (_ | _)
      · cases h
      · dsimp only at h
        split at h
        · cases h
        · split at h <;> cases h
      · cases h
        rfl

/-- In a closed ledger whose balances are in range, an applied native payment or fee claim changes
the sum of all balances by the drops it destroys. -/
theorem totalBalance_conserved (hc : o.info.isOpen = false) (hs : o.ledger.Sound)
    (hf : tx.fee.exponent = 0)
    (ham : ∀ fields, tx.body = .payment fields → fields.amount.native = true →
      fields.amount.exponent = 0)
    (h : invoke env tx o flags = .ok out) (hap : out.didApply = true)
    (hef : out.ter.isTecClaim = true ∨
      ∃ fields, tx.body = .payment fields ∧ ripples fields = false) :
    out.view.ledger.totalBalance =
      o.ledger.totalBalance - (out.view.dropsDestroyed - o.dropsDestroyed).toNat := by
  obtain ⟨p, hp, _, hca⟩ := applied_of_invoke h hap
  have hl := hca.feeLegal
  have hdi : ∀ {fields s}, tx.body = .payment fields → ripples fields = false →
      (Transactor.apply env tx p.processor).run (initial tx o flags) = (.ok .tesSUCCESS, s) →
      s.view.commit.totalBalance = o.ledger.totalBalance - tx.fee.drops ∧
        s.view.dropsDestroyed = 0 ∧ s.view.size ≤ oversize := by
    intro fields s hb hri run
    simp only [processorOf, hb, some.injEq] at hp
    subst hp
    have hna : fields.amount.native := by
      simp only [ripples, or_eq_false_iff, not_eq_false'] at hri
      exact hri.2
    exact direct_conserves hs hl hf (ham fields hb hna) hri run
  cases hca with
  | success run _ hfi =>
    rcases hef with hte | ⟨fields, hb, hri⟩
    · cases hte
    obtain ⟨ht, h0, _⟩ := hdi hb hri run
    obtain ⟨hld, hd⟩ := finish_destroys hc h0 hfi
    rw [hld, hd, ht]
  | claimed _ _ hch hfi => exact claimed_conserves hs hc hl hf hch hfi
  | uncharged run hsi hch hfi =>
    rcases hef with hte | ⟨fields, hb, hri⟩
    · have hno := claimFee_refusal hch
      rw [hno] at hte
      cases hte
    · obtain ⟨_, _, hsm⟩ := hdi hb hri run
      exact absurd hsi (Nat.not_lt.mpr hsm)

def richLedger : Ledger :=
  insert (.account 1) { sequence := 1, balance := .ofDrops 1000 } ∅

/-- Account 1 pays account 2, which is not there yet. -/
def directTx : STTx := sampleTx (.payment { destination := 2, amount := .ofDrops 300 })

theorem richLedger_sound : richLedger.Sound := by
  have hr : ∀ id root, richLedger.lookup (.account id) = some root →
      root.balance = .ofDrops 1000 := by
    intro id root hlk
    by_cases hid : Key.account id = .account 1
    · cases hid
      cases hlk
      rfl
    · rw [richLedger, lookup_insert_ne hid] at hlk
      cases hlk
  refine ⟨fun id root h => ?_, fun id root h => ?_, by decide⟩
  · rw [hr id root h]
    exact ⟨rfl, rfl, fun _ => rfl, by decide⟩
  · rw [hr id root h]
    decide

theorem directTx_conserves : ∃ out, invoke sampleEnv directTx (sampleView richLedger) 0 = .ok out ∧
      out.didApply = true ∧
      out.view.ledger.totalBalance = (sampleView richLedger).ledger.totalBalance -
        (out.view.dropsDestroyed - (sampleView richLedger).dropsDestroyed).toNat := by
  have run : (invoke sampleEnv directTx (sampleView richLedger) 0).toOption.map Outcome.didApply =
      some true := by decide +kernel
  cases hin : invoke sampleEnv directTx (sampleView richLedger) 0 with
  | error fault =>
    rw [hin] at run
    cases run
  | ok out =>
    rw [hin] at run
    have run := Option.some.inj run
    refine ⟨out, rfl, run, totalBalance_conserved rfl richLedger_sound rfl ?_ hin run
      (.inr ⟨_, rfl, rfl⟩)⟩
    intro fields hb _
    cases hb
    rfl

end Applied

end Sand
