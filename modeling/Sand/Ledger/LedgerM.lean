import Sand.Library.MonotoneState
import Sand.Ledger.ApplyView

/-!
# Computations on a view

What may be done to an entry is said once, and computations carry the proof that they keep to it.
-/

namespace Sand

open View Action

/-- What may become of each entry: a preorder per key. -/
structure Evolution where
  rel : ∀ k, Option (Entry k) → Option (Entry k) → Prop
  refl : ∀ k e, rel k e e
  trans : ∀ k e1 e2 e3, rel k e1 e2 → rel k e2 e3 → rel k e1 e3
  /-- Whether drops may be created. -/
  mints : Bool := false

namespace Evolution

/-- What `E` permits `E'` permits. -/
class Sub (E E' : Evolution) : Prop where
  sub : ∀ k e e', E.rel k e e' → E'.rel k e e'
  mints : E'.mints = false → E.mints = false

instance (E : Evolution) : Sub E E where
  sub _ _ _ h := h
  mints h := h

theorem Sub.trans (E1 E2 E3 : Evolution) [h12 : Sub E1 E2] [h23 : Sub E2 E3] : Sub E1 E3 where
  sub k e e' h := h23.sub k e e' (h12.sub k e e' h)
  mints h := h12.mints (h23.mints h)

def still : Evolution where
  rel _ e e' := e' = e
  refl _ _ := rfl
  trans _ _ _ _ h12 h23 := Eq.trans h23 h12

instance (E : Evolution) : Sub still E where
  sub k e e' h := by
    cases h
    exact E.refl k e
  mints _ := rfl

def unrestricted : Evolution where
  rel _ _ _ := True
  refl _ _ := trivial
  trans _ _ _ _ _ _ := trivial
  mints := true

theorem unrestricted_rel (k : Key) (e e' : Option (Entry k)) : unrestricted.rel k e e' := trivial

instance (E : Evolution) : Sub E unrestricted where
  sub _ _ _ _ := trivial
  mints h := by cases h

end Evolution

namespace View

/-- A later state of the view, evolved by `E`. -/
structure Evolves (E : Evolution) (v v' : View) : Prop where
  context : v'.context = v.context
  base : v'.base = v.base
  dropsCreated : E.mints = false → v'.dropsCreated = v.dropsCreated
  dropsDestroyed : v'.dropsDestroyed = v.dropsDestroyed
  parents : v'.parents = v.parents
  entries : ∀ k, E.rel k (v.get k) (v'.get k)
  /-- What it is to write it keeps, unless its own. -/
  writes : ∀ k, v.base.lookup k ≠ none → v.Writes k → v'.Writes k

variable {E E' : Evolution} {v v' v'' : View}

theorem Evolves.refl (E : Evolution) (v : View) : Evolves E v v :=
  ⟨rfl, rfl, fun _ => rfl, rfl, rfl, fun k => E.refl k _, fun _ _ h => h⟩

theorem Evolves.trans (h : Evolves E v v') (h' : Evolves E v' v'') : Evolves E v v'' where
  context := h'.context.trans h.context
  base := h'.base.trans h.base
  dropsCreated := fun hm => (h'.dropsCreated hm).trans (h.dropsCreated hm)
  dropsDestroyed := h'.dropsDestroyed.trans h.dropsDestroyed
  parents := h'.parents.trans h.parents
  entries := fun k => E.trans k _ _ _ (h.entries k) (h'.entries k)
  writes := fun k hb hwr => h'.writes k (by rwa [h.base]) (h.writes k hb hwr)

instance : IsPreorder View (Evolves E) where
  refl := Evolves.refl E
  trans _ _ _ := Evolves.trans

theorem Evolves.weaken [hs : Evolution.Sub E E'] (h : Evolves E v v') : Evolves E' v v' where
  context := h.context
  base := h.base
  dropsCreated := fun hm => h.dropsCreated (hs.mints hm)
  dropsDestroyed := h.dropsDestroyed
  parents := h.parents
  entries := fun k => hs.sub k _ _ (h.entries k)
  writes := h.writes

variable {k : Key} {sle : Entry k}

/-- Replacing an item evolves the view when the shown entry evolves. -/
theorem evolves_setItem (v : View) (k : Key) (item : Option (Action × Entry k))
    (hwr : v.base.lookup k ≠ none → v.Writes k → (v.setItem k item).Writes k)
    (h : E.rel k (v.get k) ((v.setItem k item).get k)) : Evolves E v (v.setItem k item) := by
  refine ⟨rfl, rfl, fun _ => rfl, rfl, rfl, fun k' => ?_, fun k' hb hwr' => ?_⟩
  · obtain rfl | hk := eq_or_ne k' k
    · exact h
    · rw [get_setItem_ne v item hk]
      exact E.refl k' _
  · obtain rfl | hk := eq_or_ne k' k
    · exact hwr hb hwr'
    · exact (writes_setItem_ne v item hk).mpr hwr'

theorem Evolves.commit (h : Evolves E v v') (hfr : ∀ k, v.get k = v.base.lookup k) (k : Key) :
    E.rel k (v.base.lookup k) (v'.commit.lookup k) := by
  rcases lookup_commit v' k with hv | hb
  · rw [hv, ← hfr k]
    exact h.entries k
  · rw [hb, h.base]
    exact E.refl k _

/-! ## Table operations -/

def peek (v : View) (k : Key) : Option (Entry k) × View :=
  match v.items.lookup k with
  | some item => (visible item, v)
  | none =>
    match v.base.lookup k with
    | none => (none, v)
    | some sle => (some sle, v.setItem k (some (.cache, sle)))

def alter (v : View) (k : Key) (f : Entry k → Entry k) : View :=
  match v.items.lookup k with
  | some (.erase, _) => v
  | some (action, sle) => v.setItem k (some (action, f sle))
  | none => v

def update (v : View) (k : Key) : Except Fault View :=
  match v.items.lookup k with
  | none => .error .crash
  | some (.erase, _) => .error .crash
  | some (.cache, sle) => .ok (v.setItem k (some (.modify, sle)))
  | some _ => .ok v

/-- Inserting over an entry of the parent ends the process when the table is applied;
here at once. -/
def insert (v : View) (k : Key) (sle : Entry k) : Except Fault View :=
  match v.items.lookup k, v.base.lookup k with
  | none, none => .ok (v.setItem k (some (.insert, sle)))
  | some (.erase, _), _ => .ok (v.setItem k (some (.modify, sle)))
  | _, _ => .error .crash

def erase (v : View) (k : Key) : Except Fault View :=
  match v.items.lookup k, v.base.lookup k with
  | some (.insert, _), none => .ok (v.setItem k none)
  | some (.cache, sle), _ => .ok (v.setItem k (some (.erase, sle)))
  | some (.modify, sle), _ => .ok (v.setItem k (some (.erase, sle)))
  | _, _ => .error .crash

theorem peek_fst (v : View) (k : Key) : (v.peek k).1 = v.get k := by
  unfold peek get
  cases hi : v.items.lookup k with
  | some item => rfl
  | none => cases hb : v.base.lookup k <;> rfl

theorem peek_of_base (hi : v.items.lookup k = none) (hb : v.base.lookup k = some sle) : v.peek k =
    (some sle, v.setItem k (some (.cache, sle))) := by
  simp [peek, hi, hb]

theorem peek_of_absent (hi : v.items.lookup k = none) (hb : v.base.lookup k = none) :
    v.peek k = (none, v) := by
  simp [peek, hi, hb]

theorem peek_of_item {item : Action × Entry k} (hi : v.items.lookup k = some item) :
    v.peek k = (visible item, v) := by
  simp [peek, hi]

theorem insert_of_absent (hi : v.items.lookup k = none) (hb : v.base.lookup k = none)
    (sle : Entry k) : v.insert k sle = .ok (v.setItem k (some (.insert, sle))) := by
  simp [insert, hi, hb]

section

variable (v k sle)

@[simp]
theorem peek_setItem (item : Action × Entry k) :
    (v.setItem k (some item)).peek k = (visible item, v.setItem k (some item)) :=
  peek_of_item (lookup_setItem v k item)

theorem peek_peek : ((v.peek k).2.peek k).2 = (v.peek k).2 := by
  cases hi : v.items.lookup k with
  | some item => rw [peek_of_item hi, peek_of_item hi]
  | none =>
    cases hb : v.base.lookup k with
    | none => rw [peek_of_absent hi hb, peek_of_absent hi hb]
    | some sle => rw [peek_of_base hi hb, peek_setItem]

@[simp]
theorem alter_setItem_cache (f : Entry k → Entry k) :
    (v.setItem k (some (.cache, sle))).alter k f = v.setItem k (some (.cache, f sle)) := by
  simp [alter]

@[simp]
theorem alter_setItem_modify (f : Entry k → Entry k) :
    (v.setItem k (some (.modify, sle))).alter k f = v.setItem k (some (.modify, f sle)) := by
  simp [alter]

@[simp]
theorem alter_setItem_insert (f : Entry k → Entry k) :
    (v.setItem k (some (.insert, sle))).alter k f = v.setItem k (some (.insert, f sle)) := by
  simp [alter]

@[simp]
theorem update_setItem_cache :
    (v.setItem k (some (.cache, sle))).update k = .ok (v.setItem k (some (.modify, sle))) := by
  simp [update]

@[simp]
theorem update_setItem_modify :
    (v.setItem k (some (.modify, sle))).update k = .ok (v.setItem k (some (.modify, sle))) := by
  simp [update]

@[simp]
theorem update_setItem_insert :
    (v.setItem k (some (.insert, sle))).update k = .ok (v.setItem k (some (.insert, sle))) := by
  simp [update]

def createDrops (v : View) (drops : UInt64) : View :=
  { v with dropsCreated := v.dropsCreated + drops }

theorem alter_createDrops (drops : UInt64) (k : Key) (f : Entry k → Entry k) :
    (v.createDrops drops).alter k f = (v.alter k f).createDrops drops := by
  unfold alter
  cases hi : v.items.lookup k with
  | none =>
    have hi' : (v.createDrops drops).items.lookup k = none := hi
    simp [hi']
  | some item =>
    have hi' : (v.createDrops drops).items.lookup k = some item := hi
    obtain ⟨action, sle⟩ := item
    cases action <;> simp only [hi'] <;> rfl

theorem update_createDrops (dr : UInt64) (k : Key) :
    (v.createDrops dr).update k = (v.update k).map (·.createDrops dr) := by
  unfold update
  cases hi : v.items.lookup k with
  | none =>
    have hi' : (v.createDrops dr).items.lookup k = none := hi
    simp only [hi']
    rfl
  | some item =>
    have hi' : (v.createDrops dr).items.lookup k = some item := hi
    obtain ⟨action, sle⟩ := item
    cases action <;> simp only [hi'] <;> rfl

theorem alter_alter (f g : Entry k → Entry k) :
    (v.alter k f).alter k g = v.alter k (g ∘ f) := by
  unfold alter
  cases hi : v.items.lookup k with
  | none => simp [hi]
  | some item =>
    obtain ⟨action, sle⟩ := item
    cases action <;> simp [hi, lookup_setItem, setItem_setItem, Function.comp_apply]

theorem size_peek_le : (v.peek k).2.size ≤ v.size + 1 := by
  unfold peek
  cases hi : v.items.lookup k with
  | some item => exact Nat.le_succ _
  | none =>
    cases hb : v.base.lookup k with
    | none => exact Nat.le_succ _
    | some sle => exact size_setItem_le v k (.cache, sle)

theorem evolves_peek : Evolves E v (v.peek k).2 := by
  unfold peek
  cases hi : v.items.lookup k with
  | some item => exact Evolves.refl E v
  | none =>
    cases hb : v.base.lookup k with
    | none => exact Evolves.refl E v
    | some sle =>
      refine evolves_setItem v k _ (fun _ h => absurd h (not_writes hi)) ?_
      rw [get_setItem_some, get_of_none hi, hb]
      exact E.refl k _

@[simp]
theorem context_peek : (v.peek k).2.context = v.context :=
  (evolves_peek (E := Evolution.unrestricted) v k).context

theorem evolves_alter (f : Entry k → Entry k)
    (h : ∀ sle, E.rel k (some sle) (some (f sle))) : Evolves E v (v.alter k f) := by
  unfold alter
  cases hi : v.items.lookup k with
  | none => exact Evolves.refl E v
  | some item =>
    obtain ⟨action, sle⟩ := item
    have hg : v.get k = visible (action, sle) := get_of_item hi
    cases action
    case erase => exact Evolves.refl E v
    all_goals
      refine evolves_setItem v k _ (fun _ hwr => ?_) ?_
      · exact (writes_setItem v k _).mpr ((writes_iff hi).mp hwr)
      · rw [get_setItem_some, hg]
        exact h sle

end

/-- In the parent, or in the table and marked as changed. -/
def Editable (v w : View) (k : Key) (sle : Entry k) : Prop :=
  (v.items.lookup k = none ∧ v.base.lookup k = some sle ∧ w = v) ∨
    v = w.setItem k (some (.modify, sle))

theorem Editable.peek_fst {w : View} (h : Editable v w k sle) : (v.peek k).1 = some sle := by
  rcases h with ⟨hi, hb, _⟩ | rfl
  · rw [peek_of_base hi hb]
  · rw [peek_setItem]
    rfl

theorem Editable.update_alter {w : View} (h : Editable v w k sle) (f : Entry k → Entry k) :
    ((v.peek k).2.alter k f).update k = .ok (w.setItem k (some (.modify, f sle))) := by
  rcases h with ⟨hi, hb, rfl⟩ | rfl
  · rw [peek_of_base hi hb, alter_setItem_cache, update_setItem_cache]
  · rw [peek_setItem, alter_setItem_modify, update_setItem_modify]

theorem Unwritten.peek (h : v.Unwritten) (k : Key) : (v.peek k).2.Unwritten := by
  unfold View.peek
  cases hi : v.items.lookup k with
  | some item => exact h
  | none =>
    cases hb : v.base.lookup k with
    | none => exact h
    | some sle => exact h.setItem k sle

theorem Unwritten.alter (h : v.Unwritten) (k : Key) (f : Entry k → Entry k) :
    (v.alter k f).Unwritten := by
  unfold View.alter
  cases hi : v.items.lookup k with
  | none => exact h
  | some item =>
    obtain ⟨action, sle⟩ := item
    have hc : action = .cache := h k _ hi
    subst hc
    exact h.setItem k (f sle)

theorem evolves_update (h : v.update k = .ok v') : Evolves E v v' := by
  unfold update at h
  cases hi : v.items.lookup k with
  | none => simp [hi] at h
  | some item =>
    obtain ⟨action, sle⟩ := item
    have hg : v.get k = visible (action, sle) := get_of_item hi
    cases action <;> simp only [hi, reduceCtorEq, Except.ok.injEq] at h <;> subst h
    case cache =>
      refine evolves_setItem v k _ (fun _ _ => (writes_setItem v k _).mpr nofun) ?_
      rw [get_setItem_some, hg]
      exact E.refl k _
    all_goals exact Evolves.refl E v

theorem evolves_insert (hr : E.rel k none (some sle)) (h : v.insert k sle = .ok v') :
    Evolves E v v' := by
  unfold insert at h
  split at h
  · next hi hb =>
      cases h
      refine evolves_setItem v k _ (fun _ _ => (writes_setItem v k _).mpr nofun) ?_
      rw [get_setItem_some, get_of_none hi, hb]
      exact hr
  · next old hi =>
      cases h
      refine evolves_setItem v k _ (fun _ _ => (writes_setItem v k _).mpr nofun) ?_
      rw [get_setItem_some, get_of_item hi]
      exact hr
  · cases h

theorem evolves_erase (hr : ∀ sle, E.rel k (some sle) none) (h : v.erase k = .ok v') :
    Evolves E v v' := by
  unfold erase at h
  split at h
  case h_1 sle hi hb =>
    cases h
    refine evolves_setItem v k _ (fun h => absurd hb h) ?_
    rw [get_setItem_none, get_of_item hi, hb]
    exact hr sle
  case h_4 => cases h
  all_goals
    next sle hi =>
      cases h
      refine evolves_setItem v k _ (fun _ _ => (writes_setItem v k _).mpr nofun) ?_
      rw [get_setItem_some, get_of_item hi]
      exact hr sle

end View

/-- It changes entries only as `E` permits. -/
abbrev LedgerM (E : Evolution) (α : Type) := MonoM (View.Evolves E) Fault α

namespace LedgerM

variable {E E' : Evolution} {α : Type}

/-- A fault leaves the view as it was. -/
def settle (v : View) : Except Fault View → Except Fault Unit × View
  | .ok v' => (.ok (), v')
  | .error fault => (.error fault, v)

variable {k : Key} {v v' : View}

@[simp]
theorem settle_ok : settle v (.ok v') = (.ok (), v') := rfl

@[simp]
theorem settle_error (flt : Fault) : settle v (.error flt) = (.error flt, v) := rfl

def step (f : View → Except Fault View)
    (h : ∀ v v', f v = .ok v' → View.Evolves E v v') : LedgerM E Unit where
  run v := settle v (f v)
  mono v := by
    cases hf : f v with
    | ok v' => exact h v v' hf
    | error fault => exact View.Evolves.refl E v

def read (k : Key) : LedgerM E (Option (Entry k)) :=
  MonoM.gets fun v => v.get k

def peek (k : Key) : LedgerM E (Option (Entry k)) where
  run v := (.ok (v.peek k).1, (v.peek k).2)
  mono v := evolves_peek v k

def alter (k : Key) (f : Entry k → Entry k)
    (h : ∀ sle, E.rel k (some sle) (some (f sle))) : LedgerM E Unit :=
  MonoM.modify (fun v => v.alter k f) fun v => evolves_alter v k f h

def update (k : Key) : LedgerM E Unit :=
  step (fun v => v.update k) fun _ _ h => evolves_update h

def insert (k : Key) (sle : Entry k) (hr : E.rel k none (some sle)) : LedgerM E Unit :=
  step (fun v => v.insert k sle) fun _ _ h => evolves_insert hr h

def erase (k : Key) (hr : ∀ sle, E.rel k (some sle) none) : LedgerM E Unit :=
  step (fun v => v.erase k) fun _ _ h => evolves_erase hr h

@[simp]
theorem run_read (k : Key) (v : View) : (read k : LedgerM E _).run v = (.ok (v.get k), v) := rfl

@[simp]
theorem run_peek (k : Key) (v : View) :
    (peek k : LedgerM E _).run v = (.ok (v.peek k).1, (v.peek k).2) :=
  rfl

theorem run_peek_eq_ok {fd : Option (Entry k)} (h : (peek k : LedgerM E _).run v = (.ok fd, v')) :
    v.get k = fd ∧ View.Evolves Evolution.still v v' := by
  rw [run_peek, peek_fst] at h
  cases h
  exact ⟨rfl, evolves_peek v k⟩

@[simp]
theorem run_alter (k : Key) (f : Entry k → Entry k) (h : ∀ sle, E.rel k (some sle) (some (f sle)))
    (v : View) : (alter k f h : LedgerM E Unit).run v = (.ok (), v.alter k f) :=
  rfl

@[simp]
theorem run_update (k : Key) (v : View) :
    (update k : LedgerM E Unit).run v = settle v (v.update k) :=
  rfl

@[simp]
theorem run_insert (k : Key) (sle : Entry k) (hr : E.rel k none (some sle)) (v : View) :
    (insert k sle hr : LedgerM E Unit).run v = settle v (v.insert k sle) :=
  rfl

variable {result : Except Fault Unit}

theorem evolves_of_run_update
    (h : (update k : LedgerM E Unit).run v = (result, v')) : View.Evolves E' v v' := by
  rw [run_update] at h
  cases hu : v.update k <;> rw [hu] at h <;> cases h
  · exact View.Evolves.refl E' v
  · exact evolves_update hu

theorem evolves_of_run_insert {sle : Entry k} {hr : E.rel k none (some sle)}
    (hr' : E'.rel k none (some sle))
    (h : (insert k sle hr : LedgerM E Unit).run v = (result, v')) : View.Evolves E' v v' := by
  rw [run_insert] at h
  cases hin : v.insert k sle <;> rw [hin] at h <;> cases h
  · exact View.Evolves.refl E' v
  · exact evolves_insert hr' hin

def lift [Evolution.Sub E E'] (x : LedgerM E α) : LedgerM E' α :=
  x.weaken fun _ _ h => h.weaken

def deref (sle : Option α) : LedgerM E α :=
  match sle with
  | some value => pure value
  | none => throw .crash

@[simp]
theorem deref_some (value : α) : (deref (some value) : LedgerM E α) = pure value := rfl

theorem run_deref_eq_ok {sle : Option α} {val : α}
    (h : (deref sle : LedgerM E α).run v = (.ok val, v')) : sle = some val ∧ v = v' := by
  cases sle with
  | none => cases h
  | some found =>
    cases h
    exact ⟨rfl, rfl⟩

def context : LedgerM E Context :=
  MonoM.gets fun v => v.context

@[simp]
theorem run_context (v : View) : (context : LedgerM E Context).run v = (.ok v.context, v) := rfl

end LedgerM

end Sand
