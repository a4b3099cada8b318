import Sand.Ledger.Transfer

/-!
# Entries that are checked out

What a table operation shows afterwards, and when it goes through.
-/

namespace Sand

open Function View

variable {v v' : View} {k : Key} {sle : Entry k} {out : List Key}

namespace View

/-- The entry is in the table and not erased. -/
def Out (v : View) (k : Key) : Prop :=
  ∃ action sle, v.items.lookup k = some (action, sle) ∧ action ≠ .erase

/-- A reachable table with the entries under the keys checked out. -/
structure Ready (v : View) (out : List Key) : Prop where
  inserted : ∀ k sle, v.items.lookup k = some (.insert, sle) → v.base.lookup k = none
  out : ∀ k ∈ out, v.Out k

theorem Ready.mono {out' : List Key} (h : v.Ready out) (hs : ∀ k ∈ out', k ∈ out) : v.Ready out' :=
  ⟨h.inserted, fun k hk => h.out k (hs k hk)⟩

theorem get_setItem (v : View) (k : Key) (item : Action × Entry k) :
    (v.setItem k (some item)).get = Function.update v.get k (Action.visible item) := by
  funext k'
  obtain rfl | hk := eq_or_ne k' k
  · rw [get_setItem_some, update_self]
  · rw [get_setItem_ne v _ hk, update_of_ne hk]

section

variable (h : v.Ready out) (act : Action) (sle : Entry k) (ha : act ≠ .erase)
  (hin : act = .insert → v.base.lookup k = none)
include h ha hin

theorem Ready.setItem :
    (v.setItem k (some (act, sle))).Ready (k :: out) := by
  constructor
  · intro k' sle' hi
    obtain rfl | hk := eq_or_ne k' k
    · rw [lookup_setItem] at hi
      cases hi
      exact hin rfl
    · rw [lookup_setItem_ne v _ hk] at hi
      exact h.inserted k' sle' hi
  · intro k' hk'
    obtain rfl | hk := eq_or_ne k' k
    · exact ⟨act, sle, lookup_setItem v k' _, ha⟩
    · obtain ⟨act', sle', hi, hne⟩ := h.out k' (by simpa [hk] using hk')
      exact ⟨act', sle', (lookup_setItem_ne v _ hk).trans hi, hne⟩

theorem Ready.resetItem :
    (v.setItem k (some (act, sle))).Ready out :=
  (h.setItem act sle ha hin).mono fun _ hk => List.mem_cons_of_mem _ hk

end

theorem Ready.drop (h : v.Ready (k :: out)) (hk : k ∉ out) {item : Option (Action × Entry k)}
    (hi : ∀ sle, item ≠ some (.insert, sle)) : (v.setItem k item).Ready out := by
  constructor
  · intro k' sle' hlk
    obtain rfl | hkk := eq_or_ne k' k
    · rw [View.setItem, FiniteMap.lookup_put_self] at hlk
      exact absurd hlk (hi sle')
    · rw [lookup_setItem_ne v _ hkk] at hlk
      exact h.inserted k' sle' hlk
  · intro k' hk'
    have hne : k' ≠ k := by
      rintro rfl
      exact hk hk'
    obtain ⟨action, sle, hlk, hke⟩ := h.out k' (List.mem_cons_of_mem _ hk')
    exact ⟨action, sle, (lookup_setItem_ne v _ hne).trans hlk, hke⟩

theorem get_peek (v : View) (k : Key) : (v.peek k).2.get = v.get := by
  funext k'
  have hes := (evolves_peek (E := Evolution.still) v k).entries k'
  exact hes

theorem Ready.peek (h : v.Ready out) (hg : v.get k = some sle) : (v.peek k).2.Ready (k :: out) := by
  unfold View.peek
  cases hi : v.items.lookup k with
  | some item =>
    refine ⟨h.inserted, fun k' hk' => ?_⟩
    rcases List.mem_cons.mp hk' with rfl | hk'
    · obtain ⟨action, sle'⟩ := item
      refine ⟨action, sle', hi, ?_⟩
      rintro rfl
      rw [get_of_item hi] at hg
      cases hg
    · exact h.out k' hk'
  | none =>
    rw [get_of_none hi] at hg
    simp only [hg]
    exact h.setItem .cache sle nofun nofun

theorem Ready.peek_none (h : v.Ready out) (hg : v.get k = none) : (v.peek k).2.Ready out := by
  unfold View.peek
  cases hi : v.items.lookup k with
  | some item => exact h
  | none =>
    rw [get_of_none hi] at hg
    simp only [hg]
    exact h

theorem get_alter {f : Entry k → Entry k} (h : v.Out k) (hg : v.get k = some sle) :
    (v.alter k f).get = Function.update v.get k (some (f sle)) := by
  obtain ⟨action, sle', hi, hne⟩ := h
  rw [get_of_item hi] at hg
  unfold alter
  cases action with
  | erase => exact absurd rfl hne
  | _ =>
    cases hg
    simp only [hi]
    exact get_setItem v k _

theorem Ready.alter (h : v.Ready out) (f : Entry k → Entry k) : (v.alter k f).Ready out := by
  unfold View.alter
  cases hi : v.items.lookup k with
  | none => exact h
  | some item =>
    obtain ⟨action, sle'⟩ := item
    cases action with
    | erase => exact h
    | insert => exact h.resetItem .insert _ nofun fun _ => h.inserted k sle' hi
    | cache => exact h.resetItem .cache _ nofun nofun
    | modify => exact h.resetItem .modify _ nofun nofun

theorem exists_update (h : v.Ready out) (hk : k ∈ out) :
    ∃ v', v.update k = .ok v' ∧ v'.get = v.get ∧ v'.Ready out := by
  obtain ⟨action, sle, hi, hne⟩ := h.out k hk
  unfold update
  cases action with
  | erase => exact absurd rfl hne
  | cache =>
    simp only [hi]
    refine ⟨_, rfl, ?_, h.resetItem .modify sle nofun nofun⟩
    rw [get_setItem]
    refine update_eq_self_iff.mpr ?_
    rw [get_of_item hi]
    rfl
  | _ =>
    simp only [hi]
    exact ⟨v, rfl, rfl, h⟩

theorem exists_insert (h : v.Ready out) (hg : v.get k = none) (sle : Entry k) :
    ∃ v', v.insert k sle = .ok v' ∧ v'.get = Function.update v.get k (some sle) ∧
      v'.Ready (k :: out) := by
  unfold insert
  cases hi : v.items.lookup k with
  | none =>
    rw [get_of_none hi] at hg
    simp only [hg]
    exact ⟨_, rfl, get_setItem v k _, h.setItem .insert sle nofun fun _ => hg⟩
  | some item =>
    obtain ⟨action, sle'⟩ := item
    rw [get_of_item hi] at hg
    cases action with
    | erase => exact ⟨_, rfl, get_setItem v k _, h.setItem .modify sle nofun nofun⟩
    | _ => cases hg

theorem exists_erase (h : v.Ready (k :: out)) (hk : k ∉ out) :
    ∃ v', v.erase k = .ok v' ∧ v'.get = Function.update v.get k none ∧ v'.Ready out := by
  obtain ⟨action, sle, hi, hne⟩ := h.out k List.mem_cons_self
  unfold erase
  cases action with
  | erase => exact absurd rfl hne
  | insert =>
    have hb := h.inserted k sle hi
    simp only [hi, hb]
    refine ⟨_, rfl, ?_, h.drop hk nofun⟩
    funext k'
    obtain rfl | hkk := eq_or_ne k' k
    · rw [get_setItem_none, hb, update_self]
    · rw [get_setItem_ne v _ hkk, update_of_ne hkk]
  | _ =>
    simp only [hi]
    exact ⟨_, rfl, get_setItem v k _, h.drop hk nofun⟩

end View

namespace LedgerM

variable {E : Evolution}

section

variable (h : v.Ready out)
include h

/-! The same for the computations. -/

theorem exists_run_peek (hg : v.get k = some sle) :
    ∃ v', (peek k : LedgerM E _).run v = (.ok (some sle), v') ∧ v'.get = v.get ∧
      v'.Ready (k :: out) := by
  refine ⟨(v.peek k).2, ?_, get_peek v k, h.peek hg⟩
  rw [run_peek, peek_fst, hg]

theorem exists_run_peek_none (hg : v.get k = none) :
    ∃ v', (peek k : LedgerM E _).run v = (.ok none, v') ∧ v'.get = v.get ∧ v'.Ready out := by
  refine ⟨(v.peek k).2, ?_, get_peek v k, h.peek_none hg⟩
  rw [run_peek, peek_fst, hg]

theorem exists_run_alter {f : Entry k → Entry k} {hre : ∀ sle, E.rel k (some sle) (some (f sle))}
    (hk : k ∈ out) (hg : v.get k = some sle) :
    ∃ v', (alter k f hre : LedgerM E Unit).run v = (.ok (), v') ∧
      v'.get = Function.update v.get k (some (f sle)) ∧ v'.Ready out :=
  ⟨_, rfl, get_alter (h.out k hk) hg, h.alter f⟩

theorem exists_run_update (hk : k ∈ out) :
    ∃ v', (update k : LedgerM E Unit).run v = (.ok (), v') ∧ v'.get = v.get ∧ v'.Ready out := by
  obtain ⟨v', hr, hg, hrd⟩ := exists_update h hk
  exact ⟨v', by rw [run_update, hr]; rfl, hg, hrd⟩

theorem exists_run_insert {hre : E.rel k none (some sle)} (hg : v.get k = none) :
    ∃ v', (insert k sle hre : LedgerM E Unit).run v = (.ok (), v') ∧
      v'.get = Function.update v.get k (some sle) ∧ v'.Ready (k :: out) := by
  obtain ⟨v', hr, hg, hrd⟩ := exists_insert h hg sle
  exact ⟨v', by rw [run_insert, hr]; rfl, hg, hrd⟩

end

theorem exists_run_erase {hre : ∀ sle, E.rel k (some sle) none} (h : v.Ready (k :: out))
    (hk : k ∉ out) :
    ∃ v', (erase k hre : LedgerM E Unit).run v = (.ok (), v') ∧
      v'.get = Function.update v.get k none ∧ v'.Ready out := by
  obtain ⟨v', hr, hg, hrd⟩ := exists_erase h hk
  refine ⟨v', ?_, hg, hrd⟩
  change settle v (v.erase k) = _
  rw [hr]
  rfl

end LedgerM

end Sand
