import Sand.Ledger.TrustLine

/-!
# Issuing, redeeming and crediting

Issued currency is moved by `issueIOU` and `redeemIOU` as it is by `rippleCredit`.
-/

namespace Sand

open MonoM LedgerM

namespace View

/-- They differ at most in entries only looked at. -/
structure Alike (v v' : View) : Prop where
  rest : { v' with items := v.items } = v
  get : ∀ k, v'.get k = v.get k
  writes : ∀ k, v'.Writes k ↔ v.Writes k

variable {v v' : View} {k k' : Key}

theorem Alike.refl (v : View) : Alike v v := ⟨rfl, fun _ => rfl, fun _ => .rfl⟩

theorem Alike.tab (h : Alike v v') : v'.tab = v.tab := by rw [← h.rest]

theorem lookup_peek_ne (v : View) (hne : k' ≠ k) :
    (v.peek k).2.items.lookup k' = v.items.lookup k' := by
  unfold View.peek
  split
  · rfl
  split
  · rfl
  · exact lookup_setItem_ne v _ hne

theorem alike_peek (v : View) (k : Key) : Alike v (v.peek k).2 := by
  unfold View.peek
  split
  · exact .refl v
  next hi =>
  split
  · exact .refl v
  next sle hb =>
  refine ⟨rfl, fun k' => ?_, fun k' => ?_⟩
  all_goals obtain rfl | hne := eq_or_ne k' k
  · rw [get_setItem_some, get_of_none hi, hb]
    rfl
  · exact get_setItem_ne v _ hne
  · exact iff_of_false ((writes_setItem v _ _).not.mpr (not_not.mpr rfl)) (not_writes hi)
  · exact writes_setItem_ne v _ hne

theorem Alike.setItem (h : Alike v v') (k : Key) (item : Action × Entry k) :
    Alike (v.setItem k (some item)) (v'.setItem k (some item)) := by
  refine ⟨congrArg (fun w => View.setItem w k (some item)) h.rest, fun k' => ?_, fun k' => ?_⟩
  all_goals obtain rfl | hne := eq_or_ne k' k
  · rw [get_setItem_some, get_setItem_some]
  · rw [get_setItem_ne _ _ hne, get_setItem_ne _ _ hne, h.get]
  · rw [writes_setItem, writes_setItem]
  · rw [writes_setItem_ne _ _ hne, writes_setItem_ne _ _ hne, h.writes]

def withTab (v : View) (tab : Option DeferredCredits) : View := { v with tab := tab }

theorem Alike.withTab (h : Alike v v') (tab : Option DeferredCredits) :
    Alike (v.withTab tab) (v'.withTab tab) :=
  ⟨congrArg (fun w => View.withTab w tab) h.rest, h.get, h.writes⟩

end View

/-- Both fail, or end with one result and views that are alike. -/
def Agree : Except Fault TER × View → Except Fault TER × View → Prop
  | (.ok ter, v), (.ok ter', v') => ter = ter' ∧ v.Alike v'
  | (.error _, _), (.error _, _) => True
  | _, _ => False

theorem Agree.refl (x : Except Fault TER × View) : Agree x x := by
  obtain ⟨_ | _, v⟩ := x
  · trivial
  · exact ⟨rfl, .refl v⟩

/-! ## Computations that leave the credits alone -/

/-- Recorded credits do not matter to the run, and stay. -/
def TabFree {E : Evolution} {α : Type} (x : LedgerM E α) : Prop :=
  ∀ v tab, x.run (View.withTab v tab) = ((x.run v).1, (x.run v).2.withTab tab)

section TabFree

variable {E : Evolution} {α β : Type} {k : Key} {x : LedgerM E α}

theorem TabFree.tab_eq (h : TabFree x) (v : View) : (x.run v).2.tab = v.tab :=
  congrArg (fun r => r.2.tab) (h v v.tab)

theorem tabFree_pure (a : α) : TabFree (pure a : LedgerM E α) := fun _ _ => rfl

theorem tabFree_bind {f : α → LedgerM E β} (hx : TabFree x)
    (hf : ∀ a, TabFree (f a)) : TabFree (x >>= f) := by
  intro v tab
  rw [run_bind, run_bind, hx v tab]
  rcases x.run v with ⟨_ | a, v'⟩
  · rfl
  · exact hf a v' tab

theorem tabFree_ite {c : Prop} [Decidable c] {y : LedgerM E α} (hx : TabFree x)
    (hy : TabFree y) : TabFree (if c then x else y) := by
  split
  · exact hx
  · exact hy

theorem tabFree_read : TabFree (read k : LedgerM E _) := fun _ _ => rfl

theorem tabFree_peek : TabFree (peek k : LedgerM E _) := by
  intro v tab
  have hit : (v.withTab tab).items = v.items := rfl
  have hb : (v.withTab tab).base = v.base := rfl
  simp only [run_peek, View.peek, hit, hb]
  cases v.items.lookup k with
  | some item => rfl
  | none => cases v.base.lookup k <;> rfl

theorem tabFree_alter {f : Entry k → Entry k} {h : ∀ sle, E.rel k (some sle) (some (f sle))} :
    TabFree (alter k f h : LedgerM E Unit) := by
  intro v tab
  have hit : (v.withTab tab).items = v.items := rfl
  simp only [run_alter, View.alter, hit]
  rcases v.items.lookup k with _ | ⟨_ | _ | _ | _, sle⟩ <;> rfl

theorem tabFree_update : TabFree (update k : LedgerM E Unit) := by
  intro v tab
  have hit : (v.withTab tab).items = v.items := rfl
  simp only [run_update, View.update, hit]
  rcases v.items.lookup k with _ | ⟨_ | _ | _ | _, sle⟩ <;> rfl

theorem tabFree_deref (sle : Option α) : TabFree (deref sle : LedgerM E α) := by
  cases sle <;> exact fun _ _ => rfl

end TabFree

variable (state : RippleState) (sender receiver : AccountID) (currency : Currency)
  (before after : STAmount) (v : View)

theorem tabFree_setOwnerCount (cn : UInt32) : TabFree (setOwnerCount sender cn) := tabFree_alter

theorem tabFree_adjustOwnerCount (change : Int) : TabFree (adjustOwnerCount sender change) := by
  refine tabFree_bind tabFree_peek fun _ => tabFree_bind (tabFree_deref _) fun _ => ?_
  exact tabFree_ite (tabFree_bind (tabFree_setOwnerCount _ _) fun _ => tabFree_update)
    (tabFree_bind (tabFree_setOwnerCount _ _) fun _ => tabFree_update)

theorem tabFree_clearReserve :
    TabFree (clearReserve state sender receiver currency before after) := by
  refine tabFree_ite (tabFree_bind tabFree_read fun _ => ?_) (tabFree_pure _)
  refine tabFree_bind (tabFree_deref _) fun _ => tabFree_ite ?_ (tabFree_pure _)
  refine tabFree_bind (tabFree_adjustOwnerCount _ _) fun _ => ?_
  exact tabFree_bind tabFree_alter fun _ => tabFree_pure _

/-! ## The sender's root is looked at earlier -/

theorem ite_pure_bool {E : Evolution} (b : Bool) :
    (if b then pure true else pure false : LedgerM E Bool) = pure b := by
  cases b <;> rfl

theorem run_updateTrustLine : (updateTrustLine state sender receiver currency before after).run v =
      (clearReserve state sender receiver currency before after).run
        (v.peek (.account sender)).2 := by
  have hget : (v.peek (.account sender)).2.get (.account sender) = (v.peek (.account sender)).1 :=
    ((View.alike_peek v _).get _).trans (View.peek_fst v _).symm
  unfold updateTrustLine clearReserve
  simp only [run_bind, run_peek, bindRun_ok, run_ite, run_read, hget, run_pure, ite_pure_bool]

/-- Nothing but the guarded part may see the difference of the views. -/
theorem run_guarded {E : Evolution} {k : Key} {u w : View} {cond : Bool} {test : Entry k → Bool}
    {x : LedgerM E Bool} (hget : w.get k = u.get k) (hx : x.run w = x.run u) :
    let guarded : LedgerM E Bool := if cond then
        (do let sle ← deref (← read k); if test sle then x else return false)
      else return false
    guarded.run w = guarded.run u ∨
      ∃ result, result ≠ .ok true ∧ guarded.run u = (result, u) ∧ guarded.run w = (result, w) := by
  intro guarded
  simp only [guarded, run_ite, run_bind, run_read, bindRun_ok, hget]
  split
  · cases u.get k with
    | none => exact .inr ⟨.error .crash, nofun, rfl, rfl⟩
    | some sle =>
      simp only [deref_some, run_pure, bindRun_ok, run_ite]
      split
      · exact .inl hx
      · exact .inr ⟨.ok false, nofun, rfl, rfl⟩
  · exact .inr ⟨.ok false, nofun, rfl, rfl⟩

theorem run_clearReserve_peek :
    let x := clearReserve state sender receiver currency before after
    let w := (v.peek (.account sender)).2
    x.run w = x.run v ∨
      ∃ result, result ≠ .ok true ∧ x.run v = (result, v) ∧ x.run w = (result, w) := by
  intro x w
  have hget : w.get (.account sender) = v.get (.account sender) := (View.alike_peek v _).get _
  have hpeek : w.peek (.account sender) = v.peek (.account sender) :=
    Prod.ext ((View.peek_fst w _).trans (hget.trans (View.peek_fst v _).symm)) (View.peek_peek v _)
  refine run_guarded hget ?_
  unfold adjustOwnerCount
  simp [hpeek]

theorem agree_alter_update {E : Evolution} {u w : View} {k : Key} (h : u.Alike w)
    (hi : w.items.lookup k = u.items.lookup k) (f : Entry k → Entry k)
    (hf : ∀ sle, E.rel k (some sle) (some (f sle))) :
    Agree ((do alter k f hf; update k; return .tesSUCCESS : LedgerM E TER).run u)
      ((do alter k f hf; update k; return .tesSUCCESS : LedgerM E TER).run w) := by
  simp only [run_bind, run_alter, bindRun_ok, run_update, View.alter, hi]
  rcases hu : u.items.lookup k with _ | ⟨action, sle⟩
  · simp [View.update, hu, hi, Agree]
  cases action with
  | erase =>
    simp [View.update, hu, hi, Agree]
  | cache => simpa [View.update, Agree] using h.setItem k _
  | modify => simpa [View.update, Agree] using h.setItem k _
  | insert => simpa [View.update, Agree] using h.setItem k _

/-! ## The credit is recorded earlier -/

/-- What `creditHook` makes of the recorded credits. -/
def recorded (amount : STAmount) (tab : Option DeferredCredits) :
    Except Fault (Option DeferredCredits) :=
  match tab with
  | none => .ok none
  | some tab => (tab.credit sender receiver amount).map some

theorem run_creditHook {E : Evolution} (amt : STAmount) :
    (creditHook sender receiver amt : LedgerM E Unit).run v =
      match recorded sender receiver amt v.tab with
      | .ok tab => (.ok (), v.withTab tab)
      | .error fault => (.error fault, v) := by
  obtain ⟨_, _, _, _, _, tab, _⟩ := v
  cases tab with
  | none => rfl
  | some tab =>
    cases hcr : tab.credit sender receiver amt <;>
      simp [creditHook, step, recorded, hcr, Except.map, View.withTab]

theorem agree_creditHook {x : LedgerM .transfer Bool} {f : Bool → LedgerM .transfer TER} {w : View}
    (amt : STAmount) (hfr : TabFree x) (ha : v.Alike w)
    (hc : x.run w = x.run v ∨
      ∃ result, result ≠ .ok true ∧ x.run v = (result, v) ∧ x.run w = (result, w))
    (hfa : ∀ tab, Agree ((f false).run (v.withTab tab)) ((f false).run (w.withTab tab))) :
    Agree ((creditHook sender receiver amt >>= fun _ => x >>= f).run v)
      (bindRun (x.run w) fun delete => creditHook sender receiver amt >>= fun _ => f delete) := by
  have ht := (hfr.tab_eq w).trans ha.tab
  rw [run_bind, run_creditHook]
  rcases hr : x.run w with ⟨fault | delete, w'⟩ <;> rw [hr] at hc ht
  · cases recorded sender receiver amt v.tab with
    | error fault => trivial
    | ok tab =>
      simp only [bindRun_ok, run_bind, hfr v tab]
      obtain heq | ⟨result, _, hv, hw⟩ := hc
      · rw [← heq]
        trivial
      · cases hw
        rw [hv]
        trivial
  · replace ht : w'.tab = v.tab := ht
    simp only [bindRun_ok, run_bind, run_creditHook, ht]
    cases recorded sender receiver amt v.tab with
    | error fault => trivial
    | ok tab =>
      simp only [bindRun_ok, run_bind, hfr v tab]
      obtain heq | ⟨result, hne, hv, hw⟩ := hc
      · rw [← heq]
        exact .refl _
      · cases hw
        obtain rfl : delete = false := Bool.eq_false_iff.mpr fun h => hne (congrArg _ h)
        rw [hv]
        exact hfa tab

theorem not_decide_ite {c : Prop} [Decidable c] {α : Type} (a b : α) :
    (if !decide c then a else b) = if decide c then b else a := by
  by_cases h : c <;> simp [h]

/-- The two ways to move an amount along a line agree. -/
theorem agree_creditLine (amt : STAmount) : Agree ((creditLine state sender receiver amt).run v)
      ((moveAlongLine state sender receiver amt).run v) := by
  unfold creditLine moveAlongLine
  simp only [not_decide_ite]
  generalize (if decide (receiver < sender) then state.balance.negate else state.balance) = before
  cases before.sub amt with
  | error fault =>
    rw [run_bind, run_creditHook]
    cases recorded sender receiver amt v.tab <;> trivial
  | ok after =>
    let low := lowAccount sender receiver
    let high := highAccount sender receiver
    let settle (delete : Bool) : LedgerM .transfer TER := do
      setLineBalance low high amt.getCurrency
        (if decide (receiver < sender) then after.negate else after)
      if delete then
        trustDelete state (if decide (receiver < sender) then receiver else sender)
          (if decide (receiver < sender) then sender else receiver) amt.getCurrency
      else
        update (.line low high amt.getCurrency)
        return .tesSUCCESS
    have halike := View.alike_peek v (.account sender)
    have hsettle (tab : Option DeferredCredits) : Agree ((settle false).run (v.withTab tab))
        ((settle false).run ((v.peek (.account sender)).2.withTab tab)) :=
      agree_alter_update (k := .line low high amt.getCurrency) (halike.withTab tab)
        (View.lookup_peek_ne v nofun) _ _
    have hagree := agree_creditHook sender receiver v amt (tabFree_clearReserve _ _ _ _ _ _)
      halike (run_clearReserve_peek state sender receiver amt.getCurrency before after v) hsettle
    rw [← run_updateTrustLine] at hagree
    exact hagree

/-- Issuing and redeeming throw where the credit does, and else leave what it leaves. -/
theorem issue_redeem_agree (account : AccountID) (amount : STAmount) :
    Agree ((rippleCredit amount.getIssuer account amount).run v) ((issueIOU account amount).run v) ∧
    (v.get (.rippleState account amount.getIssuer amount.getCurrency) ≠ none →
      Agree ((rippleCredit account amount.getIssuer amount).run v)
        ((redeemIOU account amount).run v)) := by
  unfold rippleCredit issueIOU redeemIOU
  simp only [run_bind, run_peek, bindRun_ok]
  constructor
  · cases (v.peek (.rippleState amount.getIssuer account amount.getCurrency)).1 with
    | none => exact .refl _
    | some state => exact agree_creditLine ..
  · intro hl
    rw [← View.peek_fst] at hl
    cases hfn : (v.peek (.rippleState account amount.getIssuer amount.getCurrency)).1 with
    | none => exact absurd hfn hl
    | some state => exact agree_creditLine ..

/-- Account 2 holds `held` of what account 1 issued, in a payment sandbox. -/
def holderView (held : STAmount) : View where
  context := ⟨⟨false, 1, 0⟩, ⟨10, 10, 0, 0⟩, 0, []⟩
  base := [⟨.account 1, {}⟩, ⟨.account 2, { ownerCount := 1 }⟩,
    ⟨.line 1 2 5, { flags := lsfHighReserve ||| lsfHighNoRipple, balance := held.negate }⟩,
    ⟨.dir (.owner 1) 0, ⟨[.line 1 2 5], 0, 0⟩⟩, ⟨.dir (.owner 2) 0, ⟨[.line 1 2 5], 0, 0⟩⟩].toAList
  items := ∅
  dropsCreated := 0
  dropsDestroyed := 0
  tab := some ∅
  parents := []

def largest : STAmount := ⟨⟨5, 1⟩, 9999999999999999, 80, false⟩

/-- Both throw, but only one has recorded the credit before. -/
theorem overflow_recorded_by_one :
    let credited := (rippleCredit 1 2 largest).run (holderView largest)
    let issued := (issueIOU 2 largest).run (holderView largest)
    credited.1 = .error .exception ∧ issued.1 = .error .exception ∧
      credited.2.tab.map (·.entries.length) = some 1 ∧
      issued.2.tab.map (·.entries.length) = some 0 := by
  decide +kernel

def oneUnit : STAmount := ⟨⟨5, 1⟩, 1000000000000000, -15, false⟩

/-- All that is held is redeemed, and the line goes. -/
theorem holding_redeemed :
    let credited := (rippleCredit 2 1 oneUnit).run (holderView oneUnit)
    let redeemed := (redeemIOU 2 oneUnit).run (holderView oneUnit)
    redeemed.1 = .ok .tesSUCCESS ∧ redeemed.2.get (.line 1 2 5) = none ∧
      Agree credited redeemed :=
  ⟨by decide +kernel, by decide +kernel,
    (issue_redeem_agree (holderView oneUnit) 2 oneUnit).2 (by decide +kernel)⟩

end Sand
