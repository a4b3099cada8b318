import Sand.Ledger.LedgerM

/-!
# Sandboxes

A sandbox is a view opened on another view.
-/

namespace Sand

open List Action

namespace DeferredCredits

def makeKey (a1 a2 : AccountID) (c : Currency) : AccountID × AccountID × Currency :=
  if a1 < a2 then (a1, a2, c) else (a2, a1, c)

def credit (tab : DeferredCredits) (sender receiver : AccountID) (amount : STAmount) :
    Except Fault DeferredCredits := do
  let k := makeKey sender receiver amount.getCurrency
  match tab.lookup k with
  | none =>
    if sender < receiver then
      return tab.insert k (amount.zeroed, amount)
    else
      return tab.insert k (amount, amount.zeroed)
  | some (low, high) =>
    if sender < receiver then
      return tab.insert k (low, ← high.add amount)
    else
      return tab.insert k (← low.add amount, high)

/-- What `main` has without credits received. -/
def adjustedBalance (tab : DeferredCredits) (main other : AccountID) (curBalance : STAmount) :
    Except Fault STAmount :=
  match tab.lookup (makeKey main other curBalance.getCurrency) with
  | none => .ok curBalance
  | some (low, high) => if main < other then curBalance.sub low else curBalance.sub high

def apply (tab target : DeferredCredits) : Except Fault DeferredCredits :=
  tab.entries.foldlM (fun acc entry =>
    match acc.lookup entry.1 with
    | none => .ok (acc.insert entry.1 entry.2)
    | some (low, high) => do
      return acc.insert entry.1 (← low.add entry.2.1, ← high.add entry.2.2)) target

end DeferredCredits

namespace View

def sandbox (v : View) : View where
  context := v.context
  base := v.flatten
  items := ∅
  dropsCreated := 0
  dropsDestroyed := 0
  tab := none
  parents := []

def paymentSandbox (v : View) : View :=
  { v.sandbox with
    tab := some ∅
    parents := match v.tab with
      | some tab => tab :: v.parents
      | none => [] }

def rawErase (v : View) (k : Key) (sle : Entry k) : Except Fault View :=
  match v.items.lookup k, v.base.lookup k with
  | none, _ => .ok (v.setItem k (some (.erase, sle)))
  | some (.insert, _), none => .ok (v.setItem k none)
  | some (.cache, _), _ => .ok (v.setItem k (some (.erase, sle)))
  | some (.modify, _), _ => .ok (v.setItem k (some (.erase, sle)))
  | _, _ => .error .crash

def replace (v : View) (k : Key) (sle : Entry k) : Except Fault View :=
  match v.items.lookup k with
  | some (.erase, _) => .error .crash
  | some (.insert, _) => .ok (v.setItem k (some (.insert, sle)))
  | _ => .ok (v.setItem k (some (.modify, sle)))

def applyItem (v : View) (k : Key) : Action × Entry k → Except Fault View
  | (.cache, _) => .ok v
  | (.erase, sle) => v.rawErase k sle
  | (.insert, sle) => v.insert k sle
  | (.modify, sle) => v.replace k sle

def applyEntries (v : View) : List (Sigma fun k : Key => Action × Entry k) → Except Fault View
  | [] => .ok v
  | ⟨k, item⟩ :: rest => do
    let v' ← v.applyItem k item
    v'.applyEntries rest

def mergeTab : Option DeferredCredits → Option DeferredCredits →
    Except Fault (Option DeferredCredits)
  | some tab, some target => (tab.apply target).map some
  | _, target => .ok target

def applyTo (c v : View) : Except Fault View := do
  let v' ← v.applyEntries c.items.entries
  let tab ← mergeTab c.tab v'.tab
  return { v' with
    dropsCreated := v'.dropsCreated + c.dropsCreated
    dropsDestroyed := v'.dropsDestroyed + c.dropsDestroyed
    tab := tab }

structure SetAt (v v' : View) (k : Key) (cell : Option (Entry k)) : Prop where
  context : v'.context = v.context
  base : v'.base = v.base
  dropsCreated : v'.dropsCreated = v.dropsCreated
  dropsDestroyed : v'.dropsDestroyed = v.dropsDestroyed
  parents : v'.parents = v.parents
  get_self : v'.get k = cell
  get_ne : ∀ k', k' ≠ k → v'.get k' = v.get k'
  writes_self : v.base.lookup k ≠ none → v'.Writes k
  writes_ne : ∀ k', k' ≠ k → (v'.Writes k' ↔ v.Writes k')

variable {v v' : View} {k : Key} {sle : Entry k}

theorem setAt_setItem (v : View) (k : Key) (item : Option (Action × Entry k))
    {cell : Option (Entry k)} (hwr : v.base.lookup k ≠ none → (v.setItem k item).Writes k)
    (h : (v.setItem k item).get k = cell) : SetAt v (v.setItem k item) k cell :=
  ⟨rfl, rfl, rfl, rfl, rfl, h, fun _ hne => get_setItem_ne v item hne, hwr,
    fun _ hne => writes_setItem_ne v item hne⟩

theorem setAt_setItem_some (v : View) (k : Key) {item : Action × Entry k} (h : item.1 ≠ .cache) :
    SetAt v (v.setItem k (some item)) k (Action.visible item) :=
  setAt_setItem v k _ (fun _ => (writes_setItem v k _).mpr h) (get_setItem_some v k item)

theorem setAt_rawErase (h : v.rawErase k sle = .ok v') : SetAt v v' k none := by
  unfold rawErase at h
  split at h
  all_goals cases h
  case h_2 hb =>
    refine setAt_setItem v k _ (fun h => absurd hb h) ?_
    rw [get_setItem_none, hb]
  all_goals exact setAt_setItem_some v k nofun

theorem setAt_insert (h : v.insert k sle = .ok v') : SetAt v v' k (some sle) := by
  unfold insert at h
  split at h
  all_goals cases h
  all_goals exact setAt_setItem_some v k nofun

theorem setAt_replace (h : v.replace k sle = .ok v') : SetAt v v' k (some sle) := by
  unfold replace at h
  split at h
  all_goals cases h
  all_goals exact setAt_setItem_some v k nofun

theorem setAt_applyItem {item : Action × Entry k} {cell : Option (Entry k)}
    (hce : committed item = some cell) (h : v.applyItem k item = .ok v') :
    SetAt v v' k cell := by
  obtain ⟨action, sle⟩ := item
  cases action <;> cases hce
  case erase => exact setAt_rawErase h
  case insert => exact setAt_insert h
  case modify => exact setAt_replace h

/-- Items show what they write and leave other keys alone. -/
theorem get_applyEntries {es : List (Sigma fun k : Key => Action × Entry k)}
    (hnd : es.NodupKeys) (h : v.applyEntries es = .ok v') :
    v'.context = v.context ∧ v'.base = v.base ∧ v'.dropsCreated = v.dropsCreated ∧
      v'.dropsDestroyed = v.dropsDestroyed ∧ v'.parents = v.parents ∧
      (∀ k, v.base.lookup k ≠ none → v.Writes k → v'.Writes k) ∧
      ∀ k, v'.get k = ((es.dlookup k).bind committed).getD (v.get k) := by
  induction es generalizing v with
  | nil =>
    cases h
    exact ⟨rfl, rfl, rfl, rfl, rfl, fun _ _ h => h, fun _ => rfl⟩
  | cons entry rest ih =>
    obtain ⟨k0, item⟩ := entry
    have hfr : k0 ∉ rest.keys := notMem_keys_of_nodupKeys_cons hnd
    cases hi : v.applyItem k0 item with
    | error fault => simp [applyEntries, hi, bind, Except.bind] at h
    | ok v1 =>
      have hrs : v1.applyEntries rest = .ok v' := by
        simpa [applyEntries, hi, bind, Except.bind] using h
      obtain ⟨hct, hb, hcr, hd, hp, hwr, hg⟩ := ih (nodupKeys_of_nodupKeys_cons hnd) hrs
      cases hce : committed item with
      | none =>
        -- a cached item is skipped, and no other item has its key
        have heq : v1 = v := by
          obtain ⟨action, sle⟩ := item
          cases action <;> simp_all [committed, applyItem]
        subst heq
        refine ⟨hct, hb, hcr, hd, hp, hwr, fun k => ?_⟩
        rw [hg k]
        obtain rfl | hk := eq_or_ne k k0
        · rw [dlookup_cons_eq, dlookup_eq_none.mpr hfr]
          simp [hce]
        · rw [dlookup_cons_ne _ _ hk]
      | some cell =>
        have hs := setAt_applyItem hce hi
        refine ⟨hct.trans hs.context, hb.trans hs.base,
          hcr.trans hs.dropsCreated, hd.trans hs.dropsDestroyed,
          hp.trans hs.parents, fun k hin hk => ?_, fun k => ?_⟩
        · refine hwr k (by rwa [hs.base]) ?_
          obtain rfl | hk0 := eq_or_ne k k0
          · exact hs.writes_self hin
          · exact (hs.writes_ne k hk0).mpr hk
        · rw [hg k]
          obtain rfl | hk := eq_or_ne k k0
          · rw [dlookup_cons_eq, dlookup_eq_none.mpr hfr]
            simp [hce, hs.get_self]
          · rw [dlookup_cons_ne _ _ hk, hs.get_ne k hk]

structure OpenedOn (v opened : View) : Prop where
  context : opened.context = v.context
  base : opened.base = v.flatten
  items : opened.items = ∅
  dropsCreated : opened.dropsCreated = 0
  dropsDestroyed : opened.dropsDestroyed = 0

theorem openedOn_sandbox (v : View) : OpenedOn v v.sandbox := ⟨rfl, rfl, rfl, rfl, rfl⟩

theorem openedOn_paymentSandbox (v : View) : OpenedOn v v.paymentSandbox :=
  ⟨rfl, rfl, rfl, rfl, rfl⟩

theorem OpenedOn.get_eq {op : View} (h : OpenedOn v op) (k : Key) : op.get k = v.get k := by
  have hi : op.items.lookup k = none := by
    rw [h.items]
    exact AList.lookup_empty k
  rw [get_of_none hi, h.base]
  exact lookup_flatten v k

theorem evolves_applyTo {E : Evolution} {c op : View} (ho : OpenedOn v op)
    (hc : Evolves E op c) (h : c.applyTo v = .ok v') : Evolves E v v' := by
  unfold applyTo at h
  cases hap : v.applyEntries c.items.entries with
  | error fault => simp [hap, bind, Except.bind] at h
  | ok v1 =>
    obtain ⟨h1, h2, h3, h4, h5, hwr, hg⟩ := get_applyEntries c.items.nodupKeys hap
    cases ht : mergeTab c.tab v1.tab with
    | error fault => simp [hap, ht, bind, Except.bind] at h
    | ok tab =>
      simp only [hap, ht, bind, Except.bind] at h
      cases h
      refine ⟨h1, h2, ?_, ?_, h5, fun k => ?_, hwr⟩
      · intro hm
        simp [h3, hc.dropsCreated hm, ho.dropsCreated]
      · simp [h4, hc.dropsDestroyed, ho.dropsDestroyed]
      · have he := hc.entries k
        rw [ho.get_eq k] at he
        show E.rel k (v.get k) (v1.get k)
        rw [hg k]
        cases hi : c.items.lookup k with
        | none =>
          have hlk : c.items.entries.dlookup k = none := hi
          simp only [hlk, Option.bind_none, Option.getD_none]
          exact E.refl k _
        | some item =>
          have hlk : c.items.entries.dlookup k = some item := hi
          simp only [hlk, Option.bind_some]
          cases hce : committed item with
          | none => exact E.refl k _
          | some cell =>
            rw [get_of_item hi, visible_eq_of_committed hce] at he
            exact he

end View

namespace LedgerM

variable {E : Evolution} {α : Type}

/-- Runs `x` in a payment sandbox, then applies it. -/
def inPaymentSandbox (x : LedgerM E α) : LedgerM E α where
  run v :=
    match x.run v.paymentSandbox with
    | (.error fault, _) => (.error fault, v)
    | (.ok a, c) =>
      match c.applyTo v with
      | .error fault => (.error fault, v)
      | .ok v' => (.ok a, v')
  mono v := by
    have hx := x.mono v.paymentSandbox
    rcases hr : x.run v.paymentSandbox with ⟨fault | a, c⟩
    · exact View.Evolves.refl E v
    rw [hr] at hx
    cases hap : c.applyTo v with
    | error fault => simpa only [hap] using View.Evolves.refl E v
    | ok v' =>
      simpa only [hap] using View.evolves_applyTo (View.openedOn_paymentSandbox v) hx hap

end LedgerM

end Sand
