import Mathlib.Data.UInt
import Sand.State.Buffering

/-!
# Writing buffered changes

A table is written to an open view, and the open view to the ledger that both are over.
-/

namespace Sand

open Function OrderedMap RawStateTable ApplyStateTable LedgerMap RawDrops List Prod UInt64

section Writing

variable {κ ν : Type} [LinearOrder κ] {base : κ → Option ν} {mem mem' : Memory κ ν}
  {t : ApplyStateTable κ} {a a' : LedgerMap κ ν}

/-- The entry of an open view's item, over the base's. -/
def RawAction.shown (mem : Memory κ ν) (base : Option ν) : Option (RawAction × Ref) → Option ν
  | none => base
  | some (.erase, _) => none
  | some (_, r) => some (mem.object r).value

def RawAction.Fits (base : Option ν) : Option (RawAction × Ref) → Prop
  | none => True
  | some (.insert, _) => base = none
  | some _ => base.isSome

/-- About its key, fitting the base, for the given entry. -/
structure RawSlotShows (base : Option ν) (mem : Memory κ ν) (k : κ) (entry : Option ν)
    (slot : Option (RawAction × Ref)) : Prop where
  fits : RawAction.Fits base slot
  shown : RawAction.shown mem base slot = entry
  object : ∀ action r, slot = some (action, r) → (mem.object r).key = k

def RawStateTable.ShowsOver (raw : RawStateTable κ) (mem : Memory κ ν) (base : κ → Option ν)
    (map : κ → Option ν) : Prop :=
  ∀ k, RawSlotShows (base k) mem k (map k) (raw.items.find k)

theorem RawStateTable.showsOver_empty (mem : Memory κ ν) (base : κ → Option ν) :
    (RawStateTable.empty : RawStateTable κ).ShowsOver mem base base :=
  fun _ => ⟨trivial, rfl, nofun⟩

variable {raw : RawStateTable κ} {r : Ref} {map : κ → Option ν} {entry : Option ν}

def RawStateTable.Writes (mem : Memory κ ν) (base : κ → Option ν) (r : Ref) (entry : Option ν)
    (raw : RawStateTable κ) (result : Except LogicError (RawStateTable κ)) : Prop :=
  ∃ raw', result = .ok raw' ∧ RawSlotShows (base (mem.object r).key) mem (mem.object r).key entry
      (raw'.items.find (mem.object r).key) ∧
    (∀ k, k ≠ (mem.object r).key → raw'.items.find k = raw.items.find k) ∧
    (raw'.dropsCreated, raw'.dropsDestroyed) = (raw.dropsCreated, raw.dropsDestroyed)

theorem RawStateTable.writes_set (action : RawAction)
    (hfi : RawAction.Fits (base (mem.object r).key) (some (action, r)))
    (hsw : RawAction.shown mem (base (mem.object r).key) (some (action, r)) = entry) :
    Writes mem base r entry raw
      (.ok { raw with items := raw.items.insert (mem.object r).key (action, r) }) := by
  refine ⟨_, rfl, ?_, fun k hk => find_insert_ne _ _ hk, rfl⟩
  rw [find_insert]
  refine ⟨hfi, hsw, ?_⟩
  rintro _ _ ⟨⟩
  rfl

theorem RawStateTable.writes_erase
    (h : RawSlotShows (base (mem.object r).key) mem (mem.object r).key
      entry (raw.items.find (mem.object r).key)) (hin : entry.isSome) :
    Writes mem base r none raw (raw.erase mem r) := by
  rw [← h.shown] at hin
  unfold RawStateTable.erase
  dsimp only
  rcases hf : raw.items.find (mem.object r).key with _ | ⟨action, r'⟩
  · rw [hf] at hin
    exact writes_set .erase hin rfl
  rw [hf] at hin h
  cases action with
  | erase => cases hin
  | replace => exact writes_set .erase h.fits rfl
  | insert =>
    refine ⟨_, rfl, ?_, fun k hk => find_erase_ne _ hk, rfl⟩
    rw [find_erase]
    exact ⟨trivial, h.fits, nofun⟩

theorem RawStateTable.writes_insert
    (h : RawSlotShows (base (mem.object r).key) mem (mem.object r).key
      none (raw.items.find (mem.object r).key)) :
    Writes mem base r (some (mem.object r).value) raw (raw.insert mem r) := by
  have hab := h.shown
  unfold RawStateTable.insert
  dsimp only
  rcases hf : raw.items.find (mem.object r).key with _ | ⟨action, r'⟩
  · rw [hf] at hab
    exact writes_set .insert hab rfl
  rw [hf] at hab h
  cases action with
  | erase => exact writes_set .replace h.fits rfl
  | replace | insert => cases hab

theorem RawStateTable.writes_replace
    (h : RawSlotShows (base (mem.object r).key) mem (mem.object r).key
      entry (raw.items.find (mem.object r).key)) (hin : entry.isSome) :
    Writes mem base r (some (mem.object r).value) raw (raw.replace mem r) := by
  rw [← h.shown] at hin
  unfold RawStateTable.replace
  dsimp only
  rcases hf : raw.items.find (mem.object r).key with _ | ⟨action, r'⟩
  · rw [hf] at hin
    exact writes_set .replace hin rfl
  rw [hf] at hin h
  cases action with
  | erase => cases hin
  | replace => exact writes_set .replace h.fits rfl
  | insert => exact writes_set .insert h.fits rfl

theorem SlotAgrees.writes {act : Action}
    (hs : SlotAgrees map mem a (mem.object r).key (some (act, r))) (hp : a.pending = [])
    (hsh : RawSlotShows (base (mem.object r).key) mem (mem.object r).key
      (map (mem.object r).key) (raw.items.find (mem.object r).key)) :
    RawStateTable.Writes mem base r (a.map (mem.object r).key) raw
      (ApplyStateTable.writeItem mem raw ((mem.object r).key, act, r)) := by
  rw [hs.map]
  have hfi := hs.fits
  cases act with
  | cache =>
    have hva := (hs.cached r rfl).2
    rw [hp] at hva
    have hcl : map (mem.object r).key = some (mem.object r).value := hva.resolve_right not_mem_nil
    rw [hcl] at hsh
    exact ⟨raw, rfl, hsh, fun _ _ => rfl, rfl⟩
  | erase => exact writes_erase hsh hfi
  | insert =>
    rw [show map (mem.object r).key = none from hfi] at hsh
    exact writes_insert hsh
  | modify => exact writes_replace hsh hfi

/-- Without pending changes the open view shows the map. -/
theorem Agrees.apply (h : Agrees map mem t a) (hp : a.pending = [])
    (hra : raw.ShowsOver mem base map) :
    ∃ raw', t.apply mem raw = .ok raw' ∧ raw'.ShowsOver mem base a.map ∧
      raw'.dropsCreated = raw.dropsCreated + a.dropsCreated ∧
      raw'.dropsDestroyed = raw.dropsDestroyed + a.dropsDestroyed := by
  obtain ⟨raw', hr, hm, hn, hfr⟩ := t.items.foldlM_map
    (ApplyStateTable.writeItem mem) (fun (raw : RawStateTable κ) k => raw.items.find k)
    (fun raw => (raw.dropsCreated, raw.dropsDestroyed))
    (fun k item slot => SlotAgrees map mem a k (some item) ∧
      RawSlotShows (base k) mem k (map k) slot)
    (fun k _ slot => RawSlotShows (base k) mem k (a.map k) slot)
    (by
      rintro raw k ⟨action, r⟩ ⟨hs, hsh⟩
      obtain ⟨rfl, _⟩ := hs.object action r rfl
      exact hs.writes hp hsh)
    (rawDestroyXRP t.dropsDestroyed (rawCreateXRP t.dropsCreated raw))
    (fun k item hf => ⟨hf ▸ h.slot k, hra k⟩)
  refine ⟨raw', hr, fun k => ?_, ?_, ?_⟩
  · rcases hf : t.items.find k with _ | item
    · have hs := h.slot k
      rw [hf] at hs
      rw [hn k hf, hs.map]
      exact hra k
    · exact hm k item hf
  · rw [← h.dropsCreated]
    exact congrArg fst hfr
  · rw [← h.dropsDestroyed]
    exact congrArg snd hfr

variable {store : Store κ ν}

/-- Writing an item leaves the entry it stands for. -/
theorem RawSlotShows.writes {act : RawAction}
    (h : RawSlotShows (store.map (mem.object r).key) mem (mem.object r).key entry (some (act, r))) :
    ∃ store', RawStateTable.writeItem mem store ((mem.object r).key, act, r) = .ok store' ∧
      store'.map (mem.object r).key = entry ∧
      (∀ k, k ≠ (mem.object r).key → store'.map k = store.map k) ∧
      (store'.dropsCreated, store'.dropsDestroyed) = (store.dropsCreated, store.dropsDestroyed) := by
  have hfi := h.fits
  rw [← h.shown]
  have hso (hac : act ≠ .insert) : (store.map (mem.object r).key).isNone = false := by
    cases act <;> simp_all [RawAction.Fits]
  cases act with
  | insert =>
    have hno : store.map (mem.object r).key = none := hfi
    refine ⟨{ store with map := update store.map (mem.object r).key (some (mem.object r).value) },
      ?_, update_self _ _ _, fun k hk => update_of_ne hk _ _, rfl⟩
    simp [RawStateTable.writeItem, RawView.rawInsert, Store.rawInsert, hno]
  | erase =>
    refine ⟨{ store with map := update store.map (mem.object r).key none },
      ?_, update_self _ _ _, fun k hk => update_of_ne hk _ _, rfl⟩
    simp [RawStateTable.writeItem, RawView.rawErase, Store.rawErase, hso nofun]
  | replace =>
    refine ⟨{ store with map := update store.map (mem.object r).key (some (mem.object r).value) },
      ?_, update_self _ _ _, fun k hk => update_of_ne hk _ _, rfl⟩
    simp [RawStateTable.writeItem, RawView.rawReplace, Store.rawReplace, hso nofun]

theorem RawStateTable.ShowsOver.apply (h : raw.ShowsOver mem store.map map) :
    ∃ store', raw.apply mem store = .ok store' ∧ store'.map = map ∧
      store'.dropsCreated = store.dropsCreated + raw.dropsCreated ∧
      store'.dropsDestroyed = store.dropsDestroyed + raw.dropsDestroyed := by
  obtain ⟨store', hr, hm, hn, hfr⟩ := raw.items.foldlM_map
    (RawStateTable.writeItem mem) (fun (store : Store κ ν) k => store.map k)
    (fun store => (store.dropsCreated, store.dropsDestroyed))
    (fun k item entry => RawSlotShows entry mem k (map k) (some item))
    (fun k _ entry => entry = map k)
    (by
      rintro store k ⟨action, r⟩ hsh
      obtain rfl := hsh.object action r rfl
      exact hsh.writes)
    (rawDestroyXRP raw.dropsDestroyed (rawCreateXRP raw.dropsCreated store))
    (fun k item hf => hf ▸ h k)
  refine ⟨store', hr, ?_, congrArg fst hfr, congrArg snd hfr⟩
  funext k
  rcases hf : raw.items.find k with _ | item
  · have hs := h k
    rw [hf] at hs
    rw [hn k hf]
    exact hs.shown
  · exact hm k item hf

/-! ## Operations from an empty table on -/

theorem LedgerMap.drops_of_step {op : TableOp κ ν} (h : step (mem, a) op = some (mem', a')) :
    a'.dropsCreated = a.dropsCreated + op.created ∧
      a'.dropsDestroyed = a.dropsDestroyed + op.destroyed := by
  unfold step at h
  cases op with
  | peek k =>
    dsimp only at h
    split at h <;> cases h <;> exact ⟨(add_zero _).symm, (add_zero _).symm⟩
  | createXRP feeDrops =>
    cases h
    exact ⟨rfl, (add_zero _).symm⟩
  | destroyXRP feeDrops =>
    cases h
    exact ⟨(add_zero _).symm, rfl⟩
  | make sle =>
    cases h
    exact ⟨(add_zero _).symm, (add_zero _).symm⟩
  | _ =>
    dsimp only at h
    split_ifs at h <;> cases h <;> exact ⟨(add_zero _).symm, (add_zero _).symm⟩

theorem LedgerMap.drops_of_run {ops : List (TableOp κ ν)}
    (h : LedgerMap.run (mem, a) ops = some (mem', a')) :
    a'.dropsCreated = a.dropsCreated + (ops.map TableOp.created).sum ∧
      a'.dropsDestroyed = a.dropsDestroyed + (ops.map TableOp.destroyed).sum := by
  induction ops generalizing mem a with
  | nil =>
    cases h
    exact ⟨(add_zero _).symm, (add_zero _).symm⟩
  | cons op ops ih =>
    obtain ⟨⟨mem₁, a₁⟩, hop, hrs⟩ := Option.bind_eq_some_iff.mp h
    obtain ⟨hc, hd⟩ := drops_of_step hop
    obtain ⟨hc', hd'⟩ := ih hrs
    rw [hc', hc, hd', hd]
    simp [map_cons, sum_cons, add_assoc, and_self]

/-- Operations that the rules allow raise no error, and the table shows the map on which they are
done; `exists` does where the base's own answer is right for its map. If no change is pending,
writing it to an open view and that to the base leaves the map and the drops recorded. -/
theorem table_refines_map {view : ReadView κ ν} (hv : view.Shows base)
    {ops : List (TableOp κ ν)} (hops : LedgerMap.run (mem, .ofMap base) ops = some (mem', a)) :
    (∀ ops₁, ops₁ <+: ops → ∃ mem₁ a₁ t₁, LedgerMap.run (mem, .ofMap base) ops₁ = some (mem₁, a₁) ∧
        run view (mem, .empty) ops₁ = .ok (mem₁, t₁) ∧
        ∀ k, t₁.read mem₁ view k = (a₁.map k.key).filter k.check ∧
          (view.existsKey k = (base k.key).any k.check →
            t₁.existsKey mem₁ view k = (a₁.map k.key).any k.check)) ∧
      (a.pending = [] → ∃ t raw store, run view (mem, .empty) ops = .ok (mem', t) ∧
          t.apply mem' (.empty : RawStateTable κ) = .ok raw ∧
          raw.apply mem' (⟨base, 0, 0⟩ : Store κ ν) = .ok store ∧ store.map = a.map ∧
          store.dropsCreated = (ops.map TableOp.created).sum ∧
          store.dropsDestroyed = (ops.map TableOp.destroyed).sum) := by
  have he := agrees_empty base mem
  constructor
  · rintro ops₁ ⟨ops2, rfl⟩
    rw [LedgerMap.run, foldlM_append] at hops
    obtain ⟨⟨mem₁, a₁⟩, hfs, _⟩ := Option.bind_eq_some_iff.mp hops
    obtain ⟨t₁, hr, ha⟩ := he.run hv hfs
    exact ⟨mem₁, a₁, t₁, hfs, hr, fun k => ⟨ha.read hv k, ha.existsKey⟩⟩
  · intro hp
    obtain ⟨t, hr, ha⟩ := he.run hv hops
    obtain ⟨raw, hra, hsh, hc, hd⟩ := ha.apply hp (showsOver_empty mem' base)
    have ho : raw.ShowsOver mem' (⟨base, 0, 0⟩ : Store κ ν).map a.map := hsh
    obtain ⟨store, hst, hma, hc', hd'⟩ := ho.apply
    obtain ⟨hc'', hd''⟩ := drops_of_run hops
    refine ⟨t, raw, store, hr, hra, hst, hma, ?_, ?_⟩
    · rw [hc', hc, hc'']
      simp [RawStateTable.empty, ofMap]
    · rw [hd', hd, hd'']
      simp [RawStateTable.empty, ofMap]

end Writing

/-! ## A look-up whose entry is replaced -/

def oneEntry : ReadView UInt256 Nat where
  read k := (if k.key = 1 then some 10 else none : Option Nat).filter k.check
  existsKey k := (if k.key = 1 then some 10 else none : Option Nat).any k.check
  succ _ _ := none

theorem oneEntry_shows : oneEntry.Shows fun k => if k = 1 then some 10 else none :=
  ⟨fun _ => rfl⟩

def noObjects : Memory UInt256 Nat :=
  ⟨fun _ => ⟨0, 0⟩, 0⟩

/-- One is updated, a second inserted and erased, a third inserted. -/
def threeEntries : List (TableOp UInt256 Nat) :=
  [.peek ⟨1, fun _ => true⟩, .change 0 (· + 5), .update 0, .make ⟨2, 7⟩, .insert 1, .erase 1,
    .make ⟨3, 9⟩, .insert 2, .createXRP 4, .destroyXRP 1]

theorem threeEntries_written :
    ∃ mem' a, LedgerMap.run (noObjects, .ofMap fun k => if k = 1 then some 10 else none)
        threeEntries = some (mem', a) ∧
      ∃ t raw store, run oneEntry (noObjects, .empty) threeEntries = .ok (mem', t) ∧
        t.apply mem' (.empty : RawStateTable UInt256) = .ok raw ∧
        raw.apply mem' (⟨fun k => if k = 1 then some 10 else none, 0, 0⟩ : Store UInt256 Nat) =
          .ok store ∧ store.map = a.map ∧ store.dropsCreated = 4 ∧ store.dropsDestroyed = 1 := by
  have hp : (LedgerMap.run (noObjects, .ofMap fun k => if k = 1 then some 10 else none)
      threeEntries).map (fun s => s.2.pending) = some [] := by
    decide +kernel
  obtain ⟨⟨mem', a⟩, hops, hno⟩ := Option.map_eq_some_iff.mp hp
  obtain ⟨t, raw, store, hr, hra, hst, hma, hc, hd⟩ := (table_refines_map oneEntry_shows hops).2 hno
  exact ⟨mem', a, hops, t, raw, store, hr, hra, hst, hma, hc, hd⟩

/-- An entry is looked up, another object replaces it, and the first is updated: the table no
longer knows it. -/
theorem update_of_replaced : (empty.peek noObjects oneEntry ⟨1, fun _ => true⟩).1 = some 0 ∧
      (match run oneEntry (noObjects, .empty)
          [.peek ⟨1, fun _ => true⟩, .make ⟨1, 20⟩] with
        | .ok (mem, t) => t.existsKey mem oneEntry ⟨1, fun _ => true⟩
        | .error _ => false) = true ∧
      (match run oneEntry (noObjects, .empty)
          [.peek ⟨1, fun _ => true⟩, .make ⟨1, 20⟩, .replace 1, .update 0] with
        | .ok _ => none
        | .error e => some e) = some ⟨"ApplyStateTable::update: unknown SLE"⟩ := by
  decide +kernel

end Sand
