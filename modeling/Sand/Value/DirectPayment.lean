import Sand.Tx.Standard

/-!
# Direct payments

A native payment changes the roots of source and destination, and nothing else.
-/

namespace Sand

open LedgerM Evolution Transactor MonoM View

/-- The entry is there once the table is applied. -/
def Action.Keeps (action : Action) : Prop := action = .modify ∨ action = .insert

namespace Action.Keeps

variable {action : Action}

theorem visible (h : action.Keeps) {k : Key} (sle : Entry k) :
    Action.visible (action, sle) = some sle := by
  rcases h with rfl | rfl <;> rfl

theorem ne_cache (h : action.Keeps) : action ≠ .cache := by
  rcases h with rfl | rfl <;> decide

theorem ne_erase (h : action.Keeps) : action ≠ .erase := by
  rcases h with rfl | rfl <;> decide

end Action.Keeps

/-- One item has become `(action, sle)`, no other changed. -/
structure View.Sets (v v' : View) (k : Key) (action : Action) (sle : Entry k) : Prop where
  item : v'.items.lookup k = some (action, sle)
  others : ∀ k', k' ≠ k → v'.items.lookup k' = v.items.lookup k'
  base : v'.base = v.base
  context : v'.context = v.context
  dropsCreated : v'.dropsCreated = v.dropsCreated
  dropsDestroyed : v'.dropsDestroyed = v.dropsDestroyed
  size : v'.size ≤ v.size + 1

namespace View

variable {v v' : View} {k : Key} {action : Action} {sle : Entry k}

theorem sets_setItem (v : View) (k : Key) (act : Action) (sle : Entry k) :
    v.Sets (v.setItem k (some (act, sle))) k act sle where
  item := lookup_setItem v k (act, sle)
  others _ hne := lookup_setItem_ne v _ hne
  base := rfl
  context := rfl
  dropsCreated := rfl
  dropsDestroyed := rfl
  size := size_setItem_le v k (act, sle)

theorem sets_self (h : v.items.lookup k = some (action, sle)) : v.Sets v k action sle where
  item := h
  others _ _ := rfl
  base := rfl
  context := rfl
  dropsCreated := rfl
  dropsDestroyed := rfl
  size := Nat.le_succ _

theorem alter_sets (h : v.items.lookup k = some (action, sle)) (hke : action ≠ .erase)
    (f : Entry k → Entry k) : v.Sets (v.alter k f) k action (f sle) := by
  have ha : v.alter k f = v.setItem k (some (action, f sle)) := by
    unfold alter
    rw [h]
    cases action <;> first | rfl | contradiction
  rw [ha]
  exact sets_setItem v k action (f sle)

end View

namespace Payment

variable {tx : STTx} {fields : PaymentTx} {v v' : View}

theorem prepareDestination_refuses {ter : TER}
    (h : (prepareDestination tx fields).run v = (.ok (some ter), v')) : ter ≠ .tesSUCCESS := by
  unfold prepareDestination at h
  simp only [run_bind, run_context, bindRun_ok, run_peek] at h
  cases hr : (v.peek (.account fields.destination)).1 with
  | some root =>
    simp only [hr, run_ite, run_pure] at h
    split_ifs at h
    · cases h
      decide
    · obtain ⟨_, _, _, hno⟩ := bind_eq_ok.mp h
      cases hno
  | none =>
    simp only [hr, run_ite, run_pure] at h
    split_ifs at h
    · cases h
      decide
    · cases h
      decide
    · obtain ⟨short, _, _, hrs⟩ := bind_eq_ok.mp h
      cases short with
      | true =>
        cases hrs
        decide
      | false =>
        obtain ⟨_, _, _, hno⟩ := bind_eq_ok.mp hrs
        cases hno

/-- The destination is marked as changed, or new. -/
theorem prepareDestination_sets
    (hi : ∀ item, v.items.lookup (.account fields.destination) = some item →
      item.1 = .modify) (h : (prepareDestination tx fields).run v = (.ok none, v')) :
    ∃ action root, action.Keeps ∧ v.Sets v' (.account fields.destination) action root ∧
      (v.get (.account fields.destination)).getD created = root := by
  unfold prepareDestination at h
  simp only [run_bind, run_context, bindRun_ok, run_peek, peek_fst] at h
  cases hlk : v.items.lookup (.account fields.destination) with
  | some item =>
    -- the source pays itself
    obtain ⟨action, root⟩ := item
    obtain rfl : action = .modify := hi _ hlk
    have hg : v.get (.account fields.destination) = some root := get_of_item hlk
    have hu : v.update (.account fields.destination) = .ok v := by
      simp [View.update, hlk]
    refine ⟨.modify, root, .inl rfl, ?_, by rw [hg]; rfl⟩
    simp only [hg, run_ite, run_pure, peek_of_item hlk, run_bind,
      run_update, hu, settle_ok, bindRun_ok] at h
    split_ifs at h <;> cases h
    exact sets_self hlk
  | none =>
    have hg := get_of_none hlk
    cases hb : v.base.lookup (Key.account fields.destination) with
    | some root =>
      rw [hb] at hg
      refine ⟨.modify, root, .inl rfl, ?_, by rw [hg]; rfl⟩
      simp only [hg, run_ite, run_pure, peek_of_base hlk hb, run_bind, run_update,
        update_setItem_cache v (Key.account fields.destination) root, settle_ok,
        bindRun_ok] at h
      split_ifs at h <;> cases h
      exact sets_setItem v _ _ _
    | none =>
      rw [hb] at hg
      refine ⟨.insert, created, .inr rfl, ?_, by rw [hg]; rfl⟩
      simp only [hg, run_ite, run_pure, peek_of_absent hlk hb, run_bind, run_liftM_except] at h
      by_cases hn : (!fields.amount.native)
      · rw [if_pos hn] at h
        cases h
      rw [if_neg hn] at h
      by_cases hpa : (v.context.info.isOpen && partialPaymentAllowed tx)
      · rw [if_pos hpa] at h
        cases h
      rw [if_neg hpa] at h
      generalize fields.amount.lt (.ofDrops (v.context.fees.accountReserve 0)) = short at h
      rcases short with fault | _ | _
      · cases h
      · simp only [bindRun_ok, Bool.false_eq_true, ↓reduceIte, run_bind,
          run_insert, insert_of_absent hlk hb, settle_ok, run_pure] at h
        cases h
        exact sets_setItem v _ _ _
      · cases h

/-- Its source and destination may be the same. -/
theorem direct_sets {s : TxState} {act action0 : Action} {root dst : AccountRoot}
    (hsr : v.items.lookup (.account s.account) = some (action0, root))
    (haction0 : action0.Keeps)
    (hd : v.items.lookup (.account fields.destination) = some (act, dst))
    (hac : act.Keeps) (h : (direct tx fields s).run v = (.ok .tesSUCCESS, v')) :
    ∃ rest balance v1 act' dst', s.sourceBalance.sub fields.amount = .ok rest ∧
      v.Sets v1 (.account s.account) action0 { root with balance := rest } ∧
      v1.items.lookup (.account fields.destination) = some (act', dst') ∧
      act'.Keeps ∧
      dst'.balance.add fields.amount = .ok balance ∧
      v1.Sets v' (.account fields.destination) act' (paid balance dst') := by
  have hg : v.get (.account s.account) = some root :=
    (get_of_item hsr).trans (haction0.visible (k := .account s.account) root)
  have hp : v.peek (.account s.account) = (some root, v) := by
    rw [peek_of_item hsr, haction0.visible (k := .account s.account) root]
  obtain ⟨_, _, hrd, h1⟩ := bind_eq_ok.mp h
  rw [run_read, hg] at hrd
  cases hrd
  obtain ⟨_, _, hsl, h2⟩ := bind_eq_ok.mp h1
  cases hsl
  obtain ⟨_, _, hc, h3⟩ := bind_eq_ok.mp h2
  cases hc
  obtain ⟨smaller, _, hlt, h4⟩ := bind_eq_ok.mp h3
  obtain ⟨_, rfl⟩ := run_liftM_except_eq_ok.mp hlt
  obtain ⟨needed, _, hnd, h5⟩ := bind_eq_ok.mp h4
  obtain ⟨_, rfl⟩ := run_liftM_except_eq_ok.mp hnd
  obtain ⟨short, _, hsh, h6⟩ := bind_eq_ok.mp h5
  obtain ⟨_, rfl⟩ := run_liftM_except_eq_ok.mp hsh
  cases short with
  | true => cases h6
  | false =>
    obtain ⟨_, _, hpk, h7⟩ := bind_eq_ok.mp h6
    rw [run_peek, hp] at hpk
    cases hpk
    obtain ⟨rest, _, hrs, h8⟩ := bind_eq_ok.mp h7
    obtain ⟨hsu, rfl⟩ := run_liftM_except_eq_ok.mp hrs
    obtain ⟨_, v1, ha, h9⟩ := bind_eq_ok.mp h8
    have hs := alter_sets hsr haction0.ne_erase fun root => { root with balance := rest }
    cases ha
    obtain ⟨act', dst', hi, hac'⟩ : ∃ act' dst',
        (v.alter (.account s.account) fun root => { root with balance := rest }).items.lookup
          (.account fields.destination) = some (act', dst') ∧
        act'.Keeps := by
      by_cases hse : fields.destination = s.account
      · rw [hse]
        exact ⟨_, _, hs.item, haction0⟩
      · have hk : Key.account fields.destination ≠ .account s.account :=
          fun heq => hse (Key.account.inj heq)
        exact ⟨_, _, (hs.others _ hk).trans hd, hac⟩
    obtain ⟨_, _, hpk, h10⟩ := bind_eq_ok.mp h9
    rw [run_peek, peek_of_item hi] at hpk
    obtain ⟨hso, rfl⟩ := Prod.mk.inj hpk
    rw [hac'.visible (k := .account fields.destination) dst'] at hso
    cases hso
    obtain ⟨_, _, hsl, h11⟩ := bind_eq_ok.mp h10
    cases hsl
    obtain ⟨balance, _, hba, h12⟩ := bind_eq_ok.mp h11
    obtain ⟨had, rfl⟩ := run_liftM_except_eq_ok.mp hba
    obtain ⟨_, _, ha, h13⟩ := bind_eq_ok.mp h12
    cases ha
    cases h13
    refine ⟨rest, balance, _, act', dst', hsu, hs, hi, hac', had, ?_⟩
    exact alter_sets hi hac'.ne_erase (paid balance)

/-- The destination is made ready, then drops move. -/
theorem doApply_direct {s s' : TxState} (hdi : ripples fields = false)
    (h : (doApply tx fields).run s = (.ok .tesSUCCESS, s')) :
    ∃ v1, (prepareDestination tx fields).run s.view = (.ok none, v1) ∧
      (direct tx fields s).run v1 = (.ok .tesSUCCESS, s'.view) := by
  obtain ⟨_, _, hm, h1⟩ := bind_eq_ok.mp h
  cases hm
  obtain ⟨_, _, hma, h2⟩ := bind_eq_ok.mp h1
  obtain ⟨_, rfl⟩ := run_liftM_except_eq_ok.mp hma
  obtain ⟨ready, s1, hre, h3⟩ := bind_eq_ok.mp h2
  rw [TxM.run_liftM_ledger] at hre
  rcases hpr : (prepareDestination tx fields).run s.view with ⟨fault | result, v1⟩
  · rw [hpr] at hre
    cases hre
  rw [hpr] at hre
  cases hre
  cases ready with
  | some ter =>
    cases h3
    exact absurd rfl (prepareDestination_refuses hpr)
  | none =>
    simp only [hdi, Bool.false_eq_true, ↓reduceIte, TxM.run_liftM_ledger] at h3
    obtain ⟨ht, hv⟩ := Prod.mk.inj h3
    exact ⟨v1, rfl, Prod.ext ht (congrArg TxState.view hv)⟩

end Payment

end Sand
