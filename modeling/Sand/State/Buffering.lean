import Sand.State.ApplyStateTable

/-!
# Buffered changes refine the ledger map

The code that uses a table works on the map from keys to entries that the table shows.
-/

namespace Sand

open Function OrderedMap Memory ApplyStateTable Action Option List

inductive TableOp (κ ν : Type) where
  /-- Makes an entry object. -/
  | make (sle : SLE κ ν)
  /-- Changes an entry object in place. -/
  | change (r : Ref) (f : ν → ν)
  | peek (k : Keylet κ ν)
  | insert (r : Ref)
  | update (r : Ref)
  | replace (r : Ref)
  | erase (r : Ref)
  | rawErase (r : Ref)
  | createXRP (feeDrops : UInt64)
  | destroyXRP (feeDrops : UInt64)

def TableOp.created {κ ν : Type} : TableOp κ ν → UInt64
  | .createXRP feeDrops => feeDrops
  | _ => 0

def TableOp.destroyed {κ ν : Type} : TableOp κ ν → UInt64
  | .destroyXRP feeDrops => feeDrops
  | _ => 0

section Machines

variable {κ ν : Type} [LinearOrder κ]

def ApplyStateTable.step (base : ReadView κ ν) :
    Memory κ ν × ApplyStateTable κ → TableOp κ ν →
      Except LogicError (Memory κ ν × ApplyStateTable κ)
  | (mem, t), .make sle => .ok (mem.make sle, t)
  | (mem, t), .change r f => .ok (mem.change r f, t)
  | (mem, t), .peek k => .ok (t.peek mem base k).2
  | (mem, t), .insert r => (t.insert mem r).map fun t => (mem, t)
  | (mem, t), .update r => (t.update mem r).map fun t => (mem, t)
  | (mem, t), .replace r => (t.replace mem r).map fun t => (mem, t)
  | (mem, t), .erase r => (t.erase mem r).map fun t => (mem, t)
  | (mem, t), .rawErase r => (t.rawErase mem r).map fun t => (mem, t)
  | (mem, t), .createXRP feeDrops => .ok (mem, t.createXRP feeDrops)
  | (mem, t), .destroyXRP feeDrops => .ok (mem, t.destroyXRP feeDrops)

def ApplyStateTable.run (base : ReadView κ ν) (s : Memory κ ν × ApplyStateTable κ)
    (ops : List (TableOp κ ν)) : Except LogicError (Memory κ ν × ApplyStateTable κ) :=
  ops.foldlM (step base) s

/-- The map, with what its user keeps track of. -/
structure LedgerMap (κ ν : Type) where
  map : κ → Option ν
  /-- The entry's object, once the user has it. -/
  current : κ → Option Ref
  /-- The objects that were made for a look-up. -/
  peeked : List Ref
  /-- Changed since they were last updated or erased. -/
  pending : List Ref
  dropsCreated : UInt64
  dropsDestroyed : UInt64

namespace LedgerMap

def ofMap (map : κ → Option ν) : LedgerMap κ ν :=
  ⟨map, fun _ => none, [], [], 0, 0⟩

variable (a : LedgerMap κ ν)

/-- The entry becomes the object `r` with the value. -/
def put (k : κ) (r : Ref) (value : ν) : LedgerMap κ ν :=
  { a with
    map := update a.map k (some value)
    current := update a.current k (some r) }

def remove (k : κ) : LedgerMap κ ν :=
  { a with
    map := update a.map k none
    current := update a.current k none }

def settle (r : Ref) : LedgerMap κ ν :=
  { a with pending := a.pending.filter fun r' => r' ≠ r }

/-- An insert is of an absent key, a replace or rawErase of a present one, an update or erase of
the object under its key. -/
def step : Memory κ ν × LedgerMap κ ν → TableOp κ ν → Option (Memory κ ν × LedgerMap κ ν)
  | (mem, a), .make sle => some (mem.make sle, a)
  | (mem, a), .change r f =>
    let sle := mem.object r
    if a.current sle.key = some r then
      some (mem.change r f,
        { a.put sle.key r (f sle.value) with
          pending := if r ∈ a.peeked then r :: a.pending else a.pending })
    else
      some (mem.change r f, a)
  | (mem, a), .peek k =>
    match a.current k.key, (a.map k.key).filter k.check with
    | none, some value =>
      some (mem.make ⟨k.key, value⟩,
        { a.put k.key mem.next value with peeked := mem.next :: a.peeked })
    | _, _ => some (mem, a)
  | (mem, a), .insert r =>
    let sle := mem.object r
    if r < mem.next ∧ (a.map sle.key).isNone then
      some (mem, a.put sle.key r sle.value)
    else
      none
  | (mem, a), .update r =>
    if a.current (mem.object r).key = some r then some (mem, a.settle r) else none
  | (mem, a), .replace r =>
    let sle := mem.object r
    if r < mem.next ∧ (a.map sle.key).isSome then
      some (mem, a.put sle.key r sle.value)
    else
      none
  | (mem, a), .erase r =>
    let sle := mem.object r
    if a.current sle.key = some r then some (mem, (a.settle r).remove sle.key) else none
  | (mem, a), .rawErase r =>
    let sle := mem.object r
    if r < mem.next ∧ (a.map sle.key).isSome then some (mem, a.remove sle.key) else none
  | (mem, a), .createXRP feeDrops =>
    some (mem, { a with dropsCreated := a.dropsCreated + feeDrops })
  | (mem, a), .destroyXRP feeDrops =>
    some (mem, { a with dropsDestroyed := a.dropsDestroyed + feeDrops })

def run (s : Memory κ ν × LedgerMap κ ν) (ops : List (TableOp κ ν)) :
    Option (Memory κ ν × LedgerMap κ ν) :=
  ops.foldlM step s

end LedgerMap

end Machines

/-! ## What a table shows -/

section Simulation

variable {κ ν : Type} {base : κ → Option ν} {mem mem' : Memory κ ν} {a a' : LedgerMap κ ν}

/-- The entry of an item, over the base's. -/
def Action.shown (mem : Memory κ ν) (base : Option ν) : Option (Action × Ref) → Option ν
  | none => base
  | some (.erase, _) => none
  | some (_, r) => some (mem.object r).value

variable {k : κ} {view : ReadView κ ν} {r : Ref} {action : Action}

theorem Action.shown_of_ne_erase (mem : Memory κ ν) (base : Option ν) (r : Ref)
    (h : action ≠ .erase) : shown mem base (some (action, r)) = some
    (mem.object r).value := by
  cases action with
  | erase => exact absurd rfl h
  | _ => rfl

/-- The object that an item holds as the entry. -/
def Action.held : Option (Action × Ref) → Option Ref
  | none => none
  | some (.erase, _) => none
  | some (_, r) => some r

theorem Action.held_of_ne_erase (r : Ref) (h : action ≠ .erase) :
    held (some (action, r)) = some r := by
  cases action with
  | erase => exact absurd rfl h
  | _ => rfl

/-- An inserted entry is not in the base, any other is. -/
def Action.Fits (base : Option ν) : Option (Action × Ref) → Prop
  | none => True
  | some (.insert, _) => base = none
  | some _ => base.isSome

structure ReadView.Shows (view : ReadView κ ν) (map : κ → Option ν) : Prop where
  read : ∀ k, view.read k = (map k.key).filter k.check

structure SlotAgrees (base : κ → Option ν) (mem : Memory κ ν) (a : LedgerMap κ ν) (k : κ)
    (slot : Option (Action × Ref)) : Prop where
  fits : Action.Fits (base k) slot
  map : a.map k = shown mem (base k) slot
  current : a.current k = held slot
  object : ∀ action r, slot = some (action, r) → (mem.object r).key = k ∧ r < mem.next
  cached : ∀ r, slot = some (.cache, r) →
    r ∈ a.peeked ∧ (base k = some (mem.object r).value ∨ r ∈ a.pending)

theorem SlotAgrees.frame {slot : Option (Action × Ref)} (h : SlotAgrees base mem a k slot)
    (hm : a'.map k = a.map k) (hc : a'.current k = a.current k)
    (hob : ∀ r, r < mem.next → (mem.object r).key = k → mem'.object r = mem.object r)
    (hn : mem.next ≤ mem'.next) (hpk : ∀ r, r ∈ a.peeked → r ∈ a'.peeked)
    (hp : ∀ r, (mem.object r).key = k → r ∈ a.pending → r ∈ a'.pending) :
    SlotAgrees base mem' a' k slot := by
  have heq : ∀ action r, slot = some (action, r) → mem'.object r = mem.object r := by
    intro action r hs
    obtain ⟨hke, hlt⟩ := h.object action r hs
    exact hob r hlt hke
  refine ⟨h.fits, ?_, hc.trans h.current, ?_, ?_⟩
  · rw [hm, h.map]
    rcases hs : slot with _ | ⟨action, r⟩
    · rfl
    · cases action <;> simp [shown, heq _ r hs]
  · intro action r hs
    obtain ⟨hke, hlt⟩ := h.object action r hs
    rw [heq action r hs]
    exact ⟨hke, hlt.trans_le hn⟩
  · intro r hs
    obtain ⟨hme, hva⟩ := h.cached r hs
    rw [heq .cache r hs]
    exact ⟨hpk r hme, hva.imp id (hp r (h.object .cache r hs).1)⟩

variable [LinearOrder κ]

structure Agrees (base : κ → Option ν) (mem : Memory κ ν) (t : ApplyStateTable κ)
    (a : LedgerMap κ ν) : Prop where
  slot : ∀ k, SlotAgrees base mem a k (t.items.find k)
  dropsCreated : t.dropsCreated = a.dropsCreated
  dropsDestroyed : t.dropsDestroyed = a.dropsDestroyed

theorem agrees_empty (base : κ → Option ν) (mem : Memory κ ν) :
    Agrees base mem .empty (.ofMap base) where
  slot _ := ⟨trivial, rfl, rfl, nofun, nofun⟩
  dropsCreated := rfl
  dropsDestroyed := rfl

variable {t t' : ApplyStateTable κ}

/-- They agree after an operation on one key if they do there. -/
theorem Agrees.set (h : Agrees base mem t a) (hsl : SlotAgrees base mem' a' k (t'.items.find k))
    (hf : ∀ k', k' ≠ k → t'.items.find k' = t.items.find k')
    (hm : ∀ k', k' ≠ k → a'.map k' = a.map k')
    (hc : ∀ k', k' ≠ k → a'.current k' = a.current k')
    (hob : ∀ r, r < mem.next → (mem.object r).key ≠ k → mem'.object r = mem.object r)
    (hn : mem.next ≤ mem'.next) (hpk : ∀ r, r ∈ a.peeked → r ∈ a'.peeked)
    (hp : ∀ r, (mem.object r).key ≠ k → r ∈ a.pending → r ∈ a'.pending)
    (hcr : t'.dropsCreated = t.dropsCreated ∧ a'.dropsCreated = a.dropsCreated)
    (hd : t'.dropsDestroyed = t.dropsDestroyed ∧ a'.dropsDestroyed = a.dropsDestroyed) :
    Agrees base mem' t' a' where
  slot k' := by
    obtain rfl | hk := eq_or_ne k' k
    · exact hsl
    rw [hf k' hk]
    refine (h.slot k').frame (hm k' hk) (hc k' hk) ?_ hn hpk ?_
    · exact fun r hlt hke => hob r hlt (hke ▸ hk)
    · exact fun r hke => hp r (hke ▸ hk)
  dropsCreated := by rw [hcr.1, hcr.2, h.dropsCreated]
  dropsDestroyed := by rw [hd.1, hd.2, h.dropsDestroyed]

theorem Agrees.read (h : Agrees base mem t a) (hv : view.Shows base) (k : Keylet κ ν) :
    t.read mem view k = (a.map k.key).filter k.check := by
  rw [(h.slot k.key).map, ApplyStateTable.read]
  rcases t.items.find k.key with _ | ⟨action, r⟩
  · exact hv.read k
  · cases action <;> simp [shown, Option.filter]

theorem Agrees.existsKey (h : Agrees base mem t a) {k : Keylet κ ν}
    (hbase : view.existsKey k = (base k.key).any k.check) :
    t.existsKey mem view k = (a.map k.key).any k.check := by
  rw [(h.slot k.key).map, ApplyStateTable.existsKey]
  rcases t.items.find k.key with _ | ⟨action, r⟩
  · exact hbase
  · cases action <;> simp [shown]

/-! ## One operation -/

theorem LedgerMap.put_self {val : ν} (hm : a.map k = some val)
    (hc : a.current k = some r) : a.put k r val = a := by
  simp [LedgerMap.put, ← hm, ← hc, update_eq_self]

section

variable (h : Agrees base mem t a)
include h

theorem Agrees.put (action : Action)
    (hlt : r < mem.next) (hac : action = .insert ∨ action = .modify)
    (hfi : Action.Fits (base (mem.object r).key) (some (action, r))) :
    Agrees base mem { t with items := t.items.insert (mem.object r).key (action, r) }
      (a.put (mem.object r).key r (mem.object r).value) := by
  refine h.set (k := (mem.object r).key) ?_ (fun k' hk => find_insert_ne _ _ hk)
    (fun k' hk => update_of_ne hk _ _) (fun k' hk => update_of_ne hk _ _)
    (fun _ _ _ => rfl) le_rfl (fun _ => id) (fun _ _ => id) ⟨rfl, rfl⟩ ⟨rfl, rfl⟩
  rw [find_insert]
  refine ⟨hfi, ?_, ?_, ?_, ?_⟩
  · rcases hac with rfl | rfl <;> exact update_self _ _ _
  · rcases hac with rfl | rfl <;> exact update_self _ _ _
  · rintro _ _ ⟨⟩
    exact ⟨rfl, hlt⟩
  · rintro _ ⟨⟩
    rcases hac with hac | hac <;> cases hac

theorem Agrees.markErased (hlt : r < mem.next) (hb : (base (mem.object r).key).isSome) :
    Agrees base mem { t with items := t.items.insert (mem.object r).key (.erase, r) }
      (a.remove (mem.object r).key) := by
  refine h.set (k := (mem.object r).key) ?_ (fun k' hk => find_insert_ne _ _ hk)
    (fun k' hk => update_of_ne hk _ _) (fun k' hk => update_of_ne hk _ _)
    (fun _ _ _ => rfl) le_rfl (fun _ => id) (fun _ _ => id) ⟨rfl, rfl⟩ ⟨rfl, rfl⟩
  rw [find_insert]
  refine ⟨hb, update_self _ _ _, update_self _ _ _, ?_, nofun⟩
  rintro _ _ ⟨⟩
  exact ⟨rfl, hlt⟩

theorem Agrees.forget (hb : base k = none) :
    Agrees base mem { t with items := t.items.erase k } (a.remove k) := by
  refine h.set (k := k) ?_ (fun k' hk => find_erase_ne _ hk)
    (fun k' hk => update_of_ne hk _ _) (fun k' hk => update_of_ne hk _ _)
    (fun _ _ _ => rfl) le_rfl (fun _ => id) (fun _ _ => id) ⟨rfl, rfl⟩ ⟨rfl, rfl⟩
  rw [find_erase]
  refine ⟨trivial, ?_, update_self _ _ _, nofun, nofun⟩
  rw [shown, hb]
  exact update_self _ _ _

theorem Agrees.settle (hs : t.items.find (mem.object r).key ≠ some (.cache, r)) :
    Agrees base mem t (a.settle r) where
  slot k := by
    obtain ⟨hfi, hm, hc, hob, hca⟩ := h.slot k
    refine ⟨hfi, hm, hc, hob, ?_⟩
    intro r' hf
    obtain ⟨hpk, hva⟩ := hca r' hf
    refine ⟨hpk, hva.imp id fun hp => ?_⟩
    refine List.mem_filter.mpr ⟨hp, decide_eq_true ?_⟩
    rintro rfl
    rw [(hob _ _ hf).1] at hs
    exact hs hf
  dropsCreated := h.dropsCreated
  dropsDestroyed := h.dropsDestroyed

theorem Agrees.slot_of_current (hc : a.current (mem.object r).key = some r) :
    ∃ action, action ≠ .erase ∧ t.items.find (mem.object r).key = some (action, r) ∧
      a.map (mem.object r).key = some (mem.object r).value ∧ r < mem.next := by
  have hs := h.slot (mem.object r).key
  rw [hs.current] at hc
  rcases hf : t.items.find (mem.object r).key with _ | ⟨action, r'⟩
  · rw [hf] at hc
    cases hc
  rw [hf] at hc hs
  cases action with
  | erase => cases hc
  | _ =>
    cases hc
    refine ⟨_, ?_, rfl, hs.map, (hs.object _ _ rfl).2⟩
    exact nofun

theorem Agrees.insert (hlt : r < mem.next) (hab : (a.map (mem.object r).key).isNone) :
    ∃ t', t.insert mem r = .ok t' ∧
      Agrees base mem t' (a.put (mem.object r).key r (mem.object r).value) := by
  have hs := h.slot (mem.object r).key
  rw [hs.map] at hab
  unfold ApplyStateTable.insert
  rcases hf : t.items.find (mem.object r).key with _ | ⟨action, r'⟩
  · dsimp only
    rw [hf] at hab ⊢
    exact ⟨_, rfl, h.put .insert hlt (.inl rfl) (isNone_iff_eq_none.mp hab)⟩
  · dsimp only
    rw [hf] at hab hs ⊢
    cases action with
    | erase => exact ⟨_, rfl, h.put .modify hlt (.inr rfl) hs.fits⟩
    | _ => cases hab

theorem Agrees.replace (hlt : r < mem.next) (hin : (a.map (mem.object r).key).isSome) :
    ∃ t', t.replace mem r = .ok t' ∧
      Agrees base mem t' (a.put (mem.object r).key r (mem.object r).value) := by
  have hs := h.slot (mem.object r).key
  rw [hs.map] at hin
  unfold ApplyStateTable.replace
  rcases hf : t.items.find (mem.object r).key with _ | ⟨action, r'⟩
  · dsimp only
    rw [hf] at hin ⊢
    exact ⟨_, rfl, h.put .modify hlt (.inr rfl) hin⟩
  dsimp only
  rw [hf] at hin hs ⊢
  cases action with
  | erase => cases hin
  | insert => exact ⟨_, rfl, h.put .insert hlt (.inl rfl) hs.fits⟩
  | cache | modify => exact ⟨_, rfl, h.put .modify hlt (.inr rfl) hs.fits⟩

theorem Agrees.rawErase (hlt : r < mem.next) (hin : (a.map (mem.object r).key).isSome) :
    ∃ t', t.rawErase mem r = .ok t' ∧ Agrees base mem t' (a.remove (mem.object r).key) := by
  have hs := h.slot (mem.object r).key
  rw [hs.map] at hin
  unfold ApplyStateTable.rawErase
  rcases hf : t.items.find (mem.object r).key with _ | ⟨action, r'⟩
  · dsimp only
    rw [hf] at hin ⊢
    exact ⟨_, rfl, h.markErased hlt hin⟩
  dsimp only
  rw [hf] at hin hs ⊢
  cases action with
  | erase => cases hin
  | insert => exact ⟨_, rfl, h.forget hs.fits⟩
  | cache | modify => exact ⟨_, rfl, h.markErased hlt hs.fits⟩

theorem Agrees.erase (hc : a.current (mem.object r).key = some r) :
    ∃ t', t.erase mem r = .ok t' ∧ Agrees base mem t' ((a.settle r).remove (mem.object r).key) := by
  obtain ⟨action, hne, hf, _, hlt⟩ := h.slot_of_current hc
  have hs := h.slot (mem.object r).key
  rw [hf] at hs
  -- the object is settled once the table no longer has it as cached
  have hse : ∀ {t'}, Agrees base mem t' (a.remove (mem.object r).key) →
      Agrees base mem t' ((a.settle r).remove (mem.object r).key) := by
    intro t' h'
    refine h'.settle fun hca => ?_
    have hh := (h'.slot (mem.object r).key).current
    rw [hca] at hh
    simp [LedgerMap.remove, held] at hh
  unfold ApplyStateTable.erase
  simp only [hf, ne_eq, not_true_eq_false, ↓reduceIte]
  cases action with
  | erase => exact absurd rfl hne
  | insert => exact ⟨_, rfl, hse (h.forget hs.fits)⟩
  | cache | modify => exact ⟨_, rfl, hse (h.markErased hlt hs.fits)⟩

theorem Agrees.update (hc : a.current (mem.object r).key = some r) :
    ∃ t', t.update mem r = .ok t' ∧ Agrees base mem t' (a.settle r) := by
  obtain ⟨action, hne, hf, hm, hlt⟩ := h.slot_of_current hc
  have hs := h.slot (mem.object r).key
  rw [hf] at hs
  unfold ApplyStateTable.update
  simp only [hf, ne_eq, not_true_eq_false, ↓reduceIte]
  cases action with
  | erase => exact absurd rfl hne
  | insert | modify =>
    refine ⟨t, rfl, h.settle ?_⟩
    rw [hf]
    exact nofun
  | cache =>
    have hpu := h.put .modify hlt (.inr rfl) hs.fits
    rw [LedgerMap.put_self hm hc] at hpu
    refine ⟨_, rfl, hpu.settle ?_⟩
    rw [find_insert]
    exact nofun

theorem Agrees.make (sle : SLE κ ν) : Agrees base (mem.make sle) t a where
  slot k := (h.slot k).frame rfl rfl (fun _ hlt _ => object_make_ne mem sle (ne_of_lt hlt))
    (Nat.le_succ _) (fun _ => id) (fun _ _ => id)
  dropsCreated := h.dropsCreated
  dropsDestroyed := h.dropsDestroyed

theorem Agrees.change_current (f : ν → ν) (hc : a.current (mem.object r).key = some r) :
    Agrees base (mem.change r f) t
      { a.put (mem.object r).key r (f (mem.object r).value) with
        pending := if r ∈ a.peeked then r :: a.pending else a.pending } := by
  obtain ⟨action, hne, hf, hm, hlt⟩ := h.slot_of_current hc
  have hs := h.slot (mem.object r).key
  have hva : ((mem.change r f).object r).value = f (mem.object r).value := by
    rw [object_change_self]
  refine h.set (k := (mem.object r).key) ?_ (fun _ _ => rfl)
    (fun k' hk => update_of_ne hk _ _) (fun k' hk => update_of_ne hk _ _)
    ?_ le_rfl (fun _ => id) ?_ ⟨rfl, rfl⟩ ⟨rfl, rfl⟩
  · rw [hf] at hs ⊢
    refine ⟨hs.fits, ?_, ?_, ?_, ?_⟩
    · rw [shown_of_ne_erase _ _ r hne, hva]
      exact update_self _ _ _
    · rw [← hs.current, hc]
      exact update_self _ _ _
    · rintro _ _ ⟨⟩
      exact ⟨key_change mem r r f, hlt⟩
    · rintro _ ⟨⟩
      have hpk := (hs.cached r rfl).1
      refine ⟨hpk, .inr ?_⟩
      simp [hpk]
  · intro r' _ hke
    refine object_change_ne mem f ?_
    rintro rfl
    exact hke rfl
  · intro r' _ hp
    by_cases hpk : r ∈ a.peeked
    · simp [hpk, hp]
    · simp [hpk, hp]

theorem Agrees.change_other (f : ν → ν)
    (ho : a.current (mem.object r).key ≠ some r) : Agrees base (mem.change r f) t a where
  slot k := by
    obtain ⟨hfi, hm, hc, hob, hca⟩ := h.slot k
    have heq : ∀ action r', action ≠ .erase → t.items.find k = some (action, r') →
        (mem.change r f).object r' = mem.object r' := by
      intro action r' hac hf
      refine object_change_ne mem f ?_
      rintro rfl
      rw [(hob _ _ hf).1, hc, hf, held_of_ne_erase _ hac] at ho
      exact ho rfl
    refine ⟨hfi, ?_, hc, ?_, ?_⟩
    · rw [hm]
      rcases hf : t.items.find k with _ | ⟨action, r'⟩
      · rfl
      by_cases hac : action = .erase
      · rw [hac]
        rfl
      · rw [shown_of_ne_erase _ _ r' hac, shown_of_ne_erase _ _ r' hac, heq action r' hac hf]
    · intro action r' hf
      rw [key_change]
      exact hob action r' hf
    · intro r' hf
      rw [heq .cache r' nofun hf]
      exact hca r' hf
  dropsCreated := h.dropsCreated
  dropsDestroyed := h.dropsDestroyed

theorem Agrees.checkOut {val : ν} (hb : base k = some val) :
    Agrees base (mem.make ⟨k, val⟩) { t with items := t.items.insert k (.cache, mem.next) }
      { a.put k mem.next val with peeked := mem.next :: a.peeked } := by
  refine h.set (k := k) ?_ (fun k' hk => find_insert_ne _ _ hk)
    (fun k' hk => update_of_ne hk _ _) (fun k' hk => update_of_ne hk _ _)
    (fun _ hlt _ => object_make_ne mem _ (ne_of_lt hlt)) (Nat.le_succ _)
    (fun _ hme => mem_cons_of_mem _ hme) (fun _ _ => id) ⟨rfl, rfl⟩ ⟨rfl, rfl⟩
  rw [find_insert]
  refine ⟨?_, ?_, update_self _ _ _, ?_, ?_⟩
  · rw [Action.Fits, hb]
    · rfl
    · exact nofun
  · rw [shown, object_make_self]
    · exact update_self _ _ _
    · exact nofun
  · rintro _ _ ⟨⟩
    rw [object_make_self]
    exact ⟨rfl, Nat.lt_succ_self _⟩
  · rintro _ ⟨⟩
    rw [object_make_self]
    exact ⟨mem_cons_self, .inl hb⟩

theorem Agrees.peek (hv : view.Shows base) (k : Keylet κ ν) :
    ∃ a', LedgerMap.step (mem, a) (.peek k) = some ((t.peek mem view k).2.1, a') ∧
      Agrees base (t.peek mem view k).2.1 (t.peek mem view k).2.2 a' := by
  have hs := h.slot k.key
  unfold LedgerMap.step ApplyStateTable.peek
  dsimp only
  rw [hs.current, hs.map]
  rcases hf : t.items.find k.key with _ | ⟨action, r⟩
  · dsimp only [held, shown]
    rw [hv.read k]
    cases hva : (base k.key).filter k.check with
    | none => exact ⟨a, rfl, h⟩
    | some value =>
      have hb : base k.key = some value := (filter_eq_some_iff.mp hva).1
      exact ⟨_, rfl, h.checkOut hb⟩
  · cases action <;> exact ⟨a, rfl, h⟩

theorem Agrees.step (hv : view.Shows base)
    {op : TableOp κ ν} (hop : LedgerMap.step (mem, a) op = some (mem', a')) :
    ∃ t', step view (mem, t) op = .ok (mem', t') ∧ Agrees base mem' t' a' := by
  cases op with
  | make sle =>
    cases hop
    exact ⟨t, rfl, h.make sle⟩
  | change r f =>
    unfold LedgerMap.step at hop
    dsimp only at hop
    by_cases hc : a.current (mem.object r).key = some r
    · rw [if_pos hc] at hop
      cases hop
      exact ⟨t, rfl, h.change_current f hc⟩
    · rw [if_neg hc] at hop
      cases hop
      exact ⟨t, rfl, h.change_other f hc⟩
  | peek k =>
    obtain ⟨a'', hst, ha⟩ := h.peek hv k
    rw [hst] at hop
    cases hop
    exact ⟨_, rfl, ha⟩
  | insert r =>
    obtain ⟨⟨hlt, hab⟩, hre⟩ := ite_none_right_eq_some.mp hop
    cases hre
    obtain ⟨t', hr, ha⟩ := h.insert hlt hab
    exact ⟨t', by rw [step, hr]; rfl, ha⟩
  | update r =>
    obtain ⟨hc, hre⟩ := ite_none_right_eq_some.mp hop
    cases hre
    obtain ⟨t', hr, ha⟩ := h.update hc
    exact ⟨t', by rw [step, hr]; rfl, ha⟩
  | replace r =>
    obtain ⟨⟨hlt, hin⟩, hre⟩ := ite_none_right_eq_some.mp hop
    cases hre
    obtain ⟨t', hr, ha⟩ := h.replace hlt hin
    exact ⟨t', by rw [step, hr]; rfl, ha⟩
  | erase r =>
    obtain ⟨hc, hre⟩ := ite_none_right_eq_some.mp hop
    cases hre
    obtain ⟨t', hr, ha⟩ := h.erase hc
    exact ⟨t', by rw [step, hr]; rfl, ha⟩
  | rawErase r =>
    obtain ⟨⟨hlt, hin⟩, hre⟩ := ite_none_right_eq_some.mp hop
    cases hre
    obtain ⟨t', hr, ha⟩ := h.rawErase hlt hin
    exact ⟨t', by rw [step, hr]; rfl, ha⟩
  | createXRP feeDrops =>
    cases hop
    refine ⟨_, rfl, fun k => ?_, ?_, h.dropsDestroyed⟩
    · exact (h.slot k).frame rfl rfl (fun _ _ _ => rfl) le_rfl (fun _ => id) (fun _ _ => id)
    · exact congrArg (· + feeDrops) h.dropsCreated
  | destroyXRP feeDrops =>
    cases hop
    refine ⟨_, rfl, fun k => ?_, h.dropsCreated, ?_⟩
    · exact (h.slot k).frame rfl rfl (fun _ _ _ => rfl) le_rfl (fun _ => id) (fun _ _ => id)
    · exact congrArg (· + feeDrops) h.dropsDestroyed

end

theorem Agrees.run (hv : view.Shows base) {ops : List (TableOp κ ν)}
    (h : Agrees base mem t a) (hops : LedgerMap.run (mem, a) ops = some (mem', a')) :
    ∃ t', run view (mem, t) ops = .ok (mem', t') ∧ Agrees base mem' t' a' := by
  induction ops generalizing mem t a with
  | nil =>
    cases hops
    exact ⟨t, rfl, h⟩
  | cons op ops ih =>
    rw [LedgerMap.run, foldlM_cons] at hops
    obtain ⟨⟨mem1, a1⟩, hop, hrs⟩ := bind_eq_some_iff.mp hops
    obtain ⟨t1, hst, h1⟩ := h.step hv hop
    obtain ⟨t', hr, ha⟩ := ih h1 hrs
    refine ⟨t', ?_, ha⟩
    rw [run, foldlM_cons, hst]
    exact hr

end Simulation

end Sand
