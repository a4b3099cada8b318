import Sand.Consensus.DisputedTx
import Sand.Library.Run

/-!
# Validations

All of them by ledger and node, the current one of each node, and those waiting to be written.
-/

namespace Sand

open List AList

structure STValidation where
  ledgerHash : UInt256
  nodeID : NodeID
  signTime : UInt32
  trusted : Bool
  previousHash : UInt256 := 0
  deriving DecidableEq

/-- A `doWrite` job: before it takes the lock, or writing. -/
inductive WriteJob where
  | ready
  | writing (vector : List STValidation)
  deriving DecidableEq

structure Validations where
  validations : AList fun _ : UInt256 => AList fun _ : NodeID => STValidation := ∅
  /-- `none` is a validation that has expired. -/
  currentValidations : AList fun _ : NodeID => Option STValidation := ∅
  staleValidations : List STValidation := []
  writing : Bool := false
  jobs : List WriteJob := []
  /-- What has been inserted in the database. -/
  written : List STValidation := []

def LEDGER_VAL_INTERVAL : UInt32 := 300
def LEDGER_EARLY_INTERVAL : UInt32 := 180

namespace Validations

/-! ## The calls -/

def stored (s : Validations) (hash : UInt256) (node : NodeID) : Option STValidation :=
  (s.validations.lookup hash).bind fun set => set.lookup node

def condWrite (s : Validations) : Validations :=
  if s.writing then s else { s with writing := true, jobs := s.jobs ++ [.ready] }

def handOver (val : STValidation) (s : Validations) : Validations :=
  condWrite { s with staleValidations := s.staleValidations ++ [val] }

def store (val : STValidation) (s : Validations) : Validations :=
  let set := (s.validations.lookup val.ledgerHash).getD ∅
  { s with validations := s.validations.insert val.ledgerHash (set.insert val.nodeID val) }

def setCurrent (val : STValidation) (s : Validations) : Validations :=
  { s with currentValidations := s.currentValidations.insert val.nodeID (some val) }

def isCurrentAt (val : STValidation) (now : UInt32) : Bool :=
  decide (val.signTime - LEDGER_EARLY_INTERVAL < now) &&
    decide (now < val.signTime + LEDGER_VAL_INTERVAL)

def addValidation (val : STValidation) (nodeInUNL : Bool) (now : UInt32) (s : Validations) :
    Bool × Validations :=
  let val := if !val.trusted && nodeInUNL then { val with trusted := true } else val
  if !(val.trusted && isCurrentAt val now) then (false, s)
  else if (s.stored val.ledgerHash val.nodeID).isSome then (false, s)
  else
    match s.currentValidations.lookup val.nodeID with
    | some (some previous) =>
      if previous.signTime < val.signTime then
        -- the set and the current validations share the object
        let val := { val with previousHash := previous.ledgerHash }
        (true, ((s.store val).setCurrent val).handOver previous)
      else (false, s.store val)
    | _ => (true, (s.store val).setCurrent val)

def expire (node : NodeID) (val : STValidation) (s : Validations) : Validations :=
  { s.handOver val with currentValidations := s.currentValidations.erase node }

variable {α : Type}

/-- A stale one is handed over, a live one counted. -/
def visit (cutoff : UInt32) (live : α → STValidation → α) (acc : Validations × α) (node : NodeID) :
    Validations × α :=
  let (s, ret) := acc
  match s.currentValidations.lookup node with
  | none => acc
  | some none => ({ s with currentValidations := s.currentValidations.erase node }, ret)
  | some (some val) =>
    if val.signTime < cutoff then
      (s.expire node val, ret)
    else (s, live ret val)

variable (now : UInt32)

def walk (live : α → STValidation → α) (ret : α) (s : Validations) :
    Validations × α :=
  s.currentValidations.keys.foldl (visit (now - LEDGER_VAL_INTERVAL) live) (s, ret)

def getCurrentTrustedValidations (s : Validations) :
    Validations × List STValidation :=
  s.walk now (fun ret val => if val.trusted then ret ++ [val] else ret) []

/-- For each ledger its current validations and the greatest node. -/
abbrev LedgerToValidationCounter := AList fun _ : UInt256 => Int × NodeID

/-- Also for the current ledger if it is one ledger off. -/
def countValidation (currentLedger priorLedger : UInt256) (ret : LedgerToValidationCounter)
    (val : STValidation) : LedgerToValidationCounter :=
  let countPreferred :=
    (currentLedger != 0 && val.ledgerHash == currentLedger) ||
      (currentLedger != 0 && val.previousHash == currentLedger) ||
      (priorLedger != 0 && val.ledgerHash == priorLedger)
  let ledger := if countPreferred then currentLedger else val.ledgerHash
  let counter := (ret.lookup ledger).getD (0, 0)
  ret.insert ledger (counter.1 + 1, if counter.2 < val.nodeID then val.nodeID else counter.2)

def getCurrentValidations (currentLedger priorLedger : UInt256) (s : Validations) :
    Validations × LedgerToValidationCounter :=
  s.walk now (countValidation currentLedger priorLedger) ∅

def flush (s : Validations) : Validations :=
  let flushed : Validations :=
    { s with
      staleValidations := s.staleValidations ++ s.currentValidations.entries.filterMap (·.2)
      currentValidations := ∅ }
  if s.currentValidations.entries.isEmpty then flushed else flushed.condWrite

def doWrite (i : Nat) (s : Validations) : Option Validations :=
  s.jobs[i]?.map fun job =>
    match job with
    | .ready =>
      if s.staleValidations.isEmpty then
        { s with writing := false, jobs := s.jobs.eraseIdx i }
      else
        { s with
          staleValidations := []
          jobs := s.jobs.set i (.writing s.staleValidations) }
    | .writing vector =>
      { s with written := s.written ++ vector, jobs := s.jobs.set i .ready }

inductive Event where
  | addValidation (val : STValidation) (nodeInUNL : Bool) (now : UInt32)
  | getCurrentTrustedValidations (now : UInt32)
  | getCurrentValidations (now : UInt32) (currentLedger priorLedger : UInt256)
  | flush
  /-- A call of `flush` has waited long enough. -/
  | flushed
  | doWrite (i : Nat)

def handle (s : Validations) : Event → Option Validations
  | .addValidation val nodeInUNL now => some (s.addValidation val nodeInUNL now).2
  | .getCurrentTrustedValidations now => some (s.getCurrentTrustedValidations now).1
  | .getCurrentValidations now currentLedger priorLedger =>
    some (s.getCurrentValidations now currentLedger priorLedger).1
  | .flush => some s.flush
  | .flushed => if s.writing then none else some s
  | .doWrite i => s.doWrite i

def Takes (e : Event) (s s' : Validations) : Prop :=
  s.handle e = some s'

/-! ## Where the validations are -/

variable {s s' s'' : Validations}

def WriteJob.vector : WriteJob → List STValidation
  | .ready => []
  | .writing vector => vector

/-- Written, being written, or waiting for it. -/
def handed (s : Validations) : List STValidation :=
  s.written ++ s.jobs.flatMap WriteJob.vector ++ s.staleValidations

def Current (s : Validations) (node : NodeID) (val : STValidation) : Prop :=
  s.currentValidations.lookup node = some (some val)

instance (s : Validations) (node : NodeID) (val : STValidation) : Decidable (s.Current node val) :=
  inferInstanceAs (Decidable (_ = _))

theorem handed_condWrite (s : Validations) : s.condWrite.handed = s.handed := by
  unfold condWrite handed
  split
  · rfl
  · simp [WriteJob.vector]

theorem validations_condWrite (s : Validations) : s.condWrite.validations = s.validations := by
  unfold condWrite
  split <;> rfl

variable {node : NodeID} {val new : STValidation} {i : Nat}

theorem handed_expire (node : NodeID) (val : STValidation) (s : Validations) :
    (s.expire node val).handed = s.handed ++ [val] := by
  have hha : (s.expire node val).handed = (s.handOver val).handed := rfl
  rw [hha, handOver, handed_condWrite]
  simp [handed]

theorem validations_expire (node : NodeID) (val : STValidation) (s : Validations) :
    (s.expire node val).validations = s.validations :=
  validations_condWrite _

theorem stored_congr (h : s'.validations = s.validations) (hash : UInt256) (node : NodeID) :
    s'.stored hash node = s.stored hash node := by
  rw [stored, h, stored]

theorem stored_store (s : Validations) (val : STValidation) (hash : UInt256) (node : NodeID) :
    (s.store val).stored hash node =
      if hash = val.ledgerHash ∧ node = val.nodeID then some val else s.stored hash node := by
  unfold stored store
  obtain rfl | hh := eq_or_ne hash val.ledgerHash
  · obtain rfl | hn := eq_or_ne node val.nodeID
    · simp
    · rw [lookup_insert, Option.bind_some, lookup_insert_ne hn]
      cases s.validations.lookup val.ledgerHash <;> simp [hn]
  · simp [hh]

/-- At most one job, and one if there is work. -/
def Attended (s : Validations) : Prop :=
  (s.writing = true ∧ ∃ job, s.jobs = [job]) ∨
    (s.writing = false ∧ s.jobs = [] ∧ s.staleValidations = [])

/-- What holds of the containers between the calls. -/
structure Sound (s : Validations) : Prop where
  entry : ∀ node entry, s.currentValidations.lookup node = some entry →
    ∃ val, entry = some val ∧ val.nodeID = node ∧ s.stored val.ledgerHash node = some val
  nodup : s.handed.Nodup
  handed_stored : ∀ val ∈ s.handed, s.stored val.ledgerHash val.nodeID = some val
  current_not_handed : ∀ node val, s.Current node val → val ∉ s.handed
  attended : s.Attended

theorem Sound.nodeID (h : s.Sound) (hv : s.Current node val) : val.nodeID = node := by
  obtain ⟨_, hso, hn, -⟩ := h.entry node _ hv
  cases hso
  exact hn

theorem Sound.stored (h : s.Sound) (hv : s.Current node val) :
    s.stored val.ledgerHash node = some val := by
  obtain ⟨_, hso, -, hst⟩ := h.entry node _ hv
  cases hso
  exact hst

theorem Attended.condWrite (h : s.Attended) (vals : List STValidation) : (Validations.condWrite
      { s with staleValidations := s.staleValidations ++ vals }).Attended := by
  unfold Validations.condWrite
  rcases h with ⟨hw, job, hj⟩ | ⟨hw, hj, -⟩
  · simp only [hw, ↓reduceIte]
    exact .inl ⟨rfl, job, hj⟩
  · simp only [hw, hj]
    exact .inl ⟨rfl, .ready, rfl⟩

/-! ## What each call keeps -/

theorem stored_store_of_new (hnw : s.stored new.ledgerHash new.nodeID = none) {hash : UInt256}
    (hv : s.stored hash node = some val) : (s.store new).stored hash node = some val := by
  rw [stored_store, if_neg]
  · exact hv
  · rintro ⟨rfl, rfl⟩
    rw [hnw] at hv
    cases hv

theorem Sound.store (h : s.Sound) (hnw : s.stored val.ledgerHash val.nodeID = none) :
    (s.store val).Sound := by
  constructor
  · intro node entry hen
    obtain ⟨val', hso, hn, hst⟩ := h.entry node entry hen
    exact ⟨val', hso, hn, stored_store_of_new hnw hst⟩
  · exact h.nodup
  · exact fun val' hm => stored_store_of_new hnw (h.handed_stored val' hm)
  · exact h.current_not_handed
  · exact h.attended

theorem Sound.enter (h : s.Sound) (hnw : s.stored val.ledgerHash val.nodeID = none) :
    ((s.store val).setCurrent val).Sound := by
  have hsr := h.store hnw
  have hst : (s.store val).stored val.ledgerHash val.nodeID = some val := by
    rw [stored_store, if_pos ⟨rfl, rfl⟩]
  constructor
  · intro node entry hen
    obtain rfl | hn := eq_or_ne node val.nodeID
    · have heq := (lookup_insert s.currentValidations).symm.trans hen
      cases heq
      exact ⟨val, rfl, rfl, hst⟩
    · exact hsr.entry node entry ((lookup_insert_ne hn).symm.trans hen)
  · exact h.nodup
  · exact hsr.handed_stored
  · intro node val' hv' hm
    obtain rfl | hn := eq_or_ne node val.nodeID
    · have heq := (lookup_insert s.currentValidations).symm.trans hv'
      cases heq
      have hold := h.handed_stored val hm
      rw [hnw] at hold
      cases hold
    · exact h.current_not_handed node val' ((lookup_insert_ne hn).symm.trans hv') hm
  · exact h.attended

theorem mem_flushed :
    val ∈ s.currentValidations.entries.filterMap (·.2) ↔ ∃ node, s.Current node val := by
  rw [mem_filterMap]
  constructor
  · rintro ⟨⟨node, entry⟩, hm, hen⟩
    obtain rfl : entry = some val := hen
    exact ⟨node, mem_lookup_iff.mpr hm⟩
  · rintro ⟨node, hv⟩
    exact ⟨⟨node, some val⟩, mem_lookup_iff.mp hv, rfl⟩

theorem Sound.nodup_flushed (h : s.Sound) :
    (s.currentValidations.entries.filterMap (·.2)).Nodup := by
  have hks : s.currentValidations.entries.Pairwise fun a b => a.1 ≠ b.1 :=
    pairwise_map.mp s.currentValidations.nodupKeys
  refine pairwise_filterMap.mpr (hks.imp_of_mem ?_)
  rintro ⟨node, entry⟩ ⟨node', entry'⟩ hm hm' hne val hv val' hv' rfl
  obtain rfl : entry = some val := hv
  obtain rfl : entry' = some val := hv'
  have hn : val.nodeID = node := h.nodeID (mem_lookup_iff.mpr hm)
  have hn' : val.nodeID = node' := h.nodeID (mem_lookup_iff.mpr hm')
  exact hne (hn.symm.trans hn')

theorem handed_flush (s : Validations) :
    s.flush.handed = s.handed ++ s.currentValidations.entries.filterMap (·.2) := by
  unfold flush
  split
  · simp [handed]
  · rw [handed_condWrite]
    simp [handed]

theorem current_flush (s : Validations) : s.flush.currentValidations = ∅ := by
  unfold flush condWrite
  dsimp only
  split
  · rfl
  · split <;> rfl

theorem validations_flush (s : Validations) : s.flush.validations = s.validations := by
  unfold flush
  split
  · rfl
  · rw [validations_condWrite]

theorem Attended.flush (h : s.Attended) : s.flush.Attended := by
  unfold Validations.flush
  split
  · next hem =>
    rw [List.isEmpty_iff] at hem
    rcases h with ⟨hw, hj⟩ | ⟨hw, hj, hsa⟩
    · exact .inl ⟨hw, hj⟩
    · exact .inr ⟨hw, hj, by simp [hsa, hem]⟩
  · exact Attended.condWrite (s := { s with currentValidations := ∅ }) h _

theorem doWrite_cases (ha : s.Attended) (h : s.doWrite i = some s') :
    i = 0 ∧ s'.Attended ∧ s'.handed = s.handed ∧ s'.validations = s.validations ∧
      s'.currentValidations = s.currentValidations := by
  obtain ⟨job, hjo, rfl⟩ := Option.map_eq_some_iff.mp h
  rcases ha with ⟨hw, job', hj⟩ | ⟨-, hj, -⟩
  · rw [hj] at hjo
    cases i with
    | succ i => simp at hjo
    | zero =>
      obtain rfl : job' = job := by simpa using hjo
      cases job' with
      | ready =>
        dsimp only
        split
        · next hem =>
          rw [List.isEmpty_iff] at hem
          refine ⟨rfl, .inr ⟨rfl, by simp [hj], hem⟩, ?_, rfl, rfl⟩
          simp [handed, hj, WriteJob.vector]
        · refine ⟨rfl, .inl ⟨hw, _, by simp [hj]; rfl⟩, ?_, rfl, rfl⟩
          simp [handed, hj, WriteJob.vector]
      | writing vector =>
        refine ⟨rfl, .inl ⟨hw, .ready, by simp [hj]⟩, ?_, rfl, rfl⟩
        simp [handed, hj, WriteJob.vector]
  · rw [hj] at hjo
    cases hjo

/-! ## Validations that stop being current -/

/-- None was stored or made current; those no longer current were handed over. -/
structure Retires (s s' : Validations) : Prop where
  validations : s'.validations = s.validations
  handed : ∀ val ∈ s.handed, val ∈ s'.handed
  kept : ∀ node, s'.currentValidations.lookup node = s.currentValidations.lookup node ∨
    s'.currentValidations.lookup node = none
  gone : ∀ node val, s.Current node val → s'.currentValidations.lookup node = none → val ∈ s'.handed

theorem Retires.refl (s : Validations) : Retires s s := by
  refine ⟨rfl, fun _ => id, fun _ => .inl rfl, fun node val hv hno => ?_⟩
  rw [Current, hno] at hv
  cases hv

theorem Retires.trans (h : Retires s s') (h' : Retires s' s'') : Retires s s'' := by
  refine ⟨h'.validations.trans h.validations, fun val hm => h'.handed val (h.handed val hm),
    fun node => ?_, fun node val hv hno => ?_⟩
  · rcases h'.kept node with heq | hno
    · rw [heq]
      exact h.kept node
    · exact .inr hno
  · rcases h.kept node with heq | hno'
    · exact h'.gone node val (heq.trans hv) hno
    · exact h'.handed val (h.gone node val hv hno')

theorem retires_expire (hv : s.Current node val) : Retires s (s.expire node val) := by
  refine ⟨validations_expire node val s, fun val' hm => ?_, fun node' => ?_,
    fun node' val' hv' hno => ?_⟩
  · rw [handed_expire]
    exact mem_append_left _ hm
  · obtain rfl | hn := eq_or_ne node' node
    · exact .inr (lookup_erase node' s.currentValidations)
    · exact .inl (lookup_erase_ne hn)
  · rw [handed_expire]
    obtain rfl | hn := eq_or_ne node' node
    · cases hv.symm.trans hv'
      exact mem_append_right _ (mem_singleton_self _)
    · have hk := (lookup_erase_ne hn).symm.trans hno
      rw [Current, hk] at hv'
      cases hv'

theorem retires_flush (s : Validations) : Retires s s.flush := by
  refine ⟨validations_flush s, fun val hm => ?_, fun node => ?_, fun node val hv _ => ?_⟩
  · rw [handed_flush]
    exact mem_append_left _ hm
  · rw [current_flush]
    exact .inr rfl
  · rw [handed_flush]
    exact mem_append_right _ (mem_flushed.mpr ⟨node, hv⟩)

theorem retires_doWrite (ha : s.Attended) (h : s.doWrite i = some s') : Retires s s' := by
  obtain ⟨-, -, hha, hvl, hc⟩ := doWrite_cases ha h
  refine ⟨hvl, fun val hm => hha ▸ hm, fun node => ?_, fun node val hv hno => ?_⟩
  · rw [hc]
    exact .inl rfl
  · rw [hc, hv] at hno
    cases hno

/-- Current ones are handed over and no longer current. -/
theorem Sound.retire {vals : List STValidation} (h : s.Sound) (hr : Retires s s')
    (hha : s'.handed = s.handed ++ vals) (hnd : vals.Nodup)
    (hva : ∀ val ∈ vals, ∃ node, s.Current node val ∧ s'.currentValidations.lookup node = none)
    (ha : s'.Attended) : s'.Sound := by
  have hk : ∀ node entry, s'.currentValidations.lookup node = some entry →
      s.currentValidations.lookup node = some entry := by
    intro node entry hen
    rcases hr.kept node with heq | hno
    · exact heq.symm.trans hen
    · rw [hno] at hen
      cases hen
  constructor
  · intro node entry hen
    simpa only [stored_congr hr.validations] using h.entry node entry (hk _ _ hen)
  · rw [hha]
    refine h.nodup.append hnd fun val hm hnw => ?_
    obtain ⟨node, hv, -⟩ := hva val hnw
    exact h.current_not_handed node val hv hm
  · intro val hm
    rw [stored_congr hr.validations]
    rcases mem_append.mp (hha ▸ hm) with hm | hm
    · exact h.handed_stored val hm
    · obtain ⟨node, hv, -⟩ := hva val hm
      rw [h.nodeID hv]
      exact h.stored hv
  · intro node val hv hm
    have hv' := hk _ _ hv
    rcases mem_append.mp (hha ▸ hm) with hm | hm
    · exact h.current_not_handed node val hv' hm
    · obtain ⟨node', hold, hno⟩ := hva val hm
      rw [Current, ← h.nodeID hv', h.nodeID hold, hno] at hv
      cases hv
  · exact ha

theorem Sound.expire (h : s.Sound) (hv : s.Current node val) : (s.expire node val).Sound := by
  refine h.retire (retires_expire hv) (handed_expire node val s) (nodup_singleton val) ?_
    (h.attended.condWrite [val])
  intro val' hm
  rw [mem_singleton.mp hm]
  exact ⟨node, hv, lookup_erase _ _⟩

theorem Sound.flush (h : s.Sound) : s.flush.Sound := by
  refine h.retire (retires_flush s) (handed_flush s) h.nodup_flushed ?_ h.attended.flush
  intro val hm
  obtain ⟨node, hv⟩ := mem_flushed.mp hm
  exact ⟨node, hv, by rw [current_flush]; rfl⟩

theorem Sound.doWrite (h : s.Sound) (hwi : s.doWrite i = some s') : s'.Sound := by
  obtain ⟨-, ha, hha, -⟩ := doWrite_cases h.attended hwi
  exact h.retire (retires_doWrite h.attended hwi) (by simpa using hha) nodup_nil (by simp) ha

theorem Sound.walk (h : s.Sound) (now : UInt32) (live : α → STValidation → α) (ret : α) :
    (s.walk now live ret).1.Sound ∧ Retires s (s.walk now live ret).1 := by
  refine foldlRecOn (motive := fun acc : Validations × α => acc.1.Sound ∧ Retires s acc.1)
    _ _ ⟨h, .refl s⟩ fun acc hac node _ => ?_
  obtain ⟨s1, ret1⟩ := acc
  obtain ⟨h1, hr⟩ := hac
  simp only [visit]
  split
  · exact ⟨h1, hr⟩
  · next hno =>
    obtain ⟨val, hso, -⟩ := h1.entry node none hno
    cases hso
  · next val hv =>
    split
    · exact ⟨h1.expire hv, hr.trans (retires_expire hv)⟩
    · exact ⟨h1, hr⟩

/-! ## Validations that come in -/

theorem handOver_enter (prev val : STValidation) (s : Validations) :
    ((s.store val).setCurrent val).handOver prev =
      ((s.expire val.nodeID prev).store val).setCurrent val := by
  have hin : (s.currentValidations.erase val.nodeID).insert val.nodeID (some val) =
      s.currentValidations.insert val.nodeID (some val) := by
    apply AList.ext
    rw [entries_insert, entries_insert]
    refine congrArg (List.cons _) (kerase_of_notMem_keys ?_)
    exact notMem_keys_kerase _ s.currentValidations.nodupKeys
  unfold expire handOver setCurrent store condWrite
  cases s.writing <;> simp [hin]

/-- Nothing, or it is new, and only stored, or current where there was none, or displaces an
earlier one. -/
theorem addValidation_cases (h : s.Sound) (val : STValidation) (iu : Bool) (now : UInt32)
    (hs' : (s.addValidation val iu now).2 = s') :
    s' = s ∨ ∃ new, s.stored new.ledgerHash new.nodeID = none ∧ (s' = s.store new ∨
        (s.currentValidations.lookup new.nodeID = none ∧ s' = (s.store new).setCurrent new) ∨
        ∃ previous, s.Current new.nodeID previous ∧ previous.signTime < new.signTime ∧
          s' = ((s.expire new.nodeID previous).store new).setCurrent new) := by
  unfold addValidation at hs'
  revert hs'
  generalize (if !val.trusted && iu then { val with trusted := true } else val) = val
  intro hs'
  dsimp only at hs'
  split_ifs at hs' with hc hst
  · exact .inl hs'.symm
  · exact .inl hs'.symm
  · have hnw : s.stored val.ledgerHash val.nodeID = none := by simpa using hst
    refine .inr ?_
    split at hs'
    · next previous hp =>
      split at hs'
      · next hl =>
        refine ⟨{ val with previousHash := previous.ledgerHash }, hnw, .inr (.inr ?_)⟩
        refine ⟨previous, hp, hl, ?_⟩
        rw [← hs']
        exact handOver_enter previous { val with previousHash := previous.ledgerHash } s
      · exact ⟨val, hnw, .inl hs'.symm⟩
    · next hno =>
      refine ⟨val, hnw, .inr (.inl ⟨?_, hs'.symm⟩)⟩
      cases hen : s.currentValidations.lookup val.nodeID with
      | none => rfl
      | some entry =>
        obtain ⟨previous, rfl, -⟩ := h.entry _ entry hen
        exact absurd hen (hno previous)

/-- Stored or handed over stays so; current stays so or is handed over. -/
structure Moves (s s' : Validations) : Prop where
  stored : ∀ hash node val, s.stored hash node = some val → s'.stored hash node = some val
  handed : ∀ val ∈ s.handed, val ∈ s'.handed
  current : ∀ node val, s.Current node val → s'.Current node val ∨
    (val ∈ s'.handed ∧ ∀ val', s'.Current node val' → val.signTime < val'.signTime)

theorem Retires.moves (h : Retires s s') : Moves s s' := by
  refine ⟨fun hash node val hv => (stored_congr h.validations hash node).trans hv, h.handed,
    fun node val hv => ?_⟩
  rcases h.kept node with heq | hno
  · exact .inl (heq.trans hv)
  · refine .inr ⟨h.gone node val hv hno, fun val' hv' => ?_⟩
    rw [Current, hno] at hv'
    cases hv'

theorem current_setCurrent_ne (hne : node ≠ new.nodeID) (val : STValidation) :
    ((s.store new).setCurrent new).Current node val ↔ s.Current node val := by
  unfold Current setCurrent store
  rw [lookup_insert_ne hne]

theorem current_setCurrent (h : ((s.store new).setCurrent new).Current new.nodeID val) :
    val = new := by
  have heq := (lookup_insert s.currentValidations).symm.trans h
  cases heq
  rfl

theorem Sound.addValidation (h : s.Sound) (val : STValidation) (iu : Bool) (now : UInt32) :
    (s.addValidation val iu now).2.Sound ∧ Moves s (s.addValidation val iu now).2 := by
  generalize hs' : (s.addValidation val iu now).2 = s'
  rcases addValidation_cases h val iu now hs' with rfl | ⟨new, hnw, hca⟩
  · exact ⟨h, (Retires.refl _).moves⟩
  rcases hca with rfl | ⟨hno, rfl⟩ | ⟨previous, hp, hl, rfl⟩
  · exact ⟨h.store hnw, fun _ _ _ => stored_store_of_new hnw, fun _ => id, fun _ _ => .inl⟩
  · refine ⟨h.enter hnw, fun _ _ _ => stored_store_of_new hnw, fun _ => id, fun node val hv => ?_⟩
    by_cases hn : node = new.nodeID
    · rw [Current, hn, hno] at hv
      cases hv
    · exact .inl ((current_setCurrent_ne hn val).mpr hv)
  · have hex := retires_expire hp
    have hnw' : (s.expire new.nodeID previous).stored new.ledgerHash new.nodeID = none :=
      (stored_congr hex.validations _ _).trans hnw
    refine ⟨(h.expire hp).enter hnw', fun _ _ _ hv => ?_, hex.handed, fun node val hv => ?_⟩
    · exact stored_store_of_new hnw' (hex.moves.stored _ _ _ hv)
    obtain rfl | hn := eq_or_ne node new.nodeID
    · cases hp.symm.trans hv
      refine .inr ⟨hex.gone _ _ hp (lookup_erase _ _), fun val' hv' => ?_⟩
      rw [current_setCurrent hv']
      exact hl
    · refine .inl ((current_setCurrent_ne hn val).mpr ?_)
      exact (lookup_erase_ne hn).trans hv

/-! ## Runs -/

theorem sound_empty : Sound { } := by
  constructor
  · intro node entry hen
    cases hen
  · exact nodup_nil
  · intro val hm
    cases hm
  · intro node val hv
    cases hv
  · exact .inr ⟨rfl, rfl, rfl⟩

theorem Sound.handle {e : Event} (h : s.Sound) (he : Takes e s s') : s'.Sound ∧ Moves s s' := by
  cases e with
  | addValidation val nodeInUNL now =>
    cases he
    exact h.addValidation val nodeInUNL now
  | getCurrentTrustedValidations now =>
    cases he
    obtain ⟨hsn, hr⟩ := h.walk now _ _
    exact ⟨hsn, hr.moves⟩
  | getCurrentValidations now currentLedger priorLedger =>
    cases he
    obtain ⟨hsn, hr⟩ := h.walk now _ _
    exact ⟨hsn, hr.moves⟩
  | flush =>
    cases he
    exact ⟨h.flush, (retires_flush s).moves⟩
  | flushed =>
    change (if s.writing then none else some s) = some s' at he
    split at he
    · cases he
    · cases he
      exact ⟨h, (Retires.refl s).moves⟩
  | doWrite i => exact ⟨h.doWrite he, (retires_doWrite h.attended he).moves⟩

/-- It is current or has been handed over once, not both. -/
theorem Sound.count_handed {es : List Event} (h : s.Sound) (hv : s.Current node val)
    (run : Run Takes s es s') : s'.handed.count val = if s'.Current node val then 0 else 1 := by
  obtain ⟨h', hkn⟩ := run.preserves (fun s => s.Sound ∧ (s.Current node val ∨ val ∈ s.handed))
    (fun e s s' hse ⟨hsn, hkn⟩ => by
      obtain ⟨hsn', hmo⟩ := hsn.handle hse
      refine ⟨hsn', ?_⟩
      rcases hkn with hc | hha
      · exact (hmo.current node val hc).imp_right And.left
      · exact .inr (hmo.handed val hha)) ⟨h, .inl hv⟩
  split
  · next hc => exact count_eq_zero.mpr (h'.current_not_handed node val hc)
  · next hnt => exact count_eq_one_of_mem h'.nodup (hkn.resolve_left hnt)

theorem writes_all_of_ready (hj : s.jobs = [.ready]) :
    ∃ n s', Run Takes s (replicate n (.doWrite 0)) s' ∧ s'.writing = false ∧
      s'.written = s.handed := by
  have hd : ∀ {s : Validations}, s.jobs = [.ready] → s.staleValidations = [] →
      Takes (.doWrite 0) s { s with writing := false, jobs := [] } := by
    intro s hj hsa
    simp [Takes, Validations.handle, doWrite, hj, hsa]
  by_cases hsa : s.staleValidations = []
  · refine ⟨1, _, .cons (hd hj hsa) (.nil _), rfl, ?_⟩
    simp [handed, hj, hsa, WriteJob.vector]
  have ht : Takes (.doWrite 0) s
      { s with staleValidations := [], jobs := [.writing s.staleValidations] } := by
    simp [Takes, Validations.handle, doWrite, hj, hsa]
  have hwr : Takes (.doWrite 0)
      { s with staleValidations := [], jobs := [.writing s.staleValidations] }
      { s with
        staleValidations := []
        jobs := [.ready]
        written := s.written ++ s.staleValidations } := by
    simp [Takes, Validations.handle, doWrite]
  refine ⟨3, _, .cons ht (.cons hwr (.cons (hd rfl rfl) (.nil _))), rfl, ?_⟩
  simp [handed, hj, WriteJob.vector]

theorem Attended.writes_all (h : s.Attended) :
    ∃ n s', Run Takes s (replicate n (.doWrite 0)) s' ∧ s'.writing = false ∧
      s'.written = s.handed := by
  rcases h with ⟨-, job, hj⟩ | ⟨hw, hj, hsa⟩
  · cases job with
    | ready => exact writes_all_of_ready hj
    | writing vector =>
      have hwr : Takes (.doWrite 0) s
          { s with written := s.written ++ vector, jobs := [.ready] } := by
        simp [Takes, Validations.handle, doWrite, hj]
      obtain ⟨n, s', run, hd, hal⟩ := writes_all_of_ready
        (s := { s with written := s.written ++ vector, jobs := [.ready] }) rfl
      refine ⟨n + 1, s', .cons hwr run, hd, hal.trans ?_⟩
      simp [handed, hj, WriteJob.vector]
  · refine ⟨0, s, .nil s, hw, ?_⟩
    simp [handed, hj, hsa]

/-- In every state that the calls lead to: a node's validation changes only to a later one or
disappears; what is stored stays; a current validation is handed over once when it no longer is,
and not before; and what was handed over is written once when no job is left. -/
theorem validations_bookkept (es : List Event) (s : Validations) (run : Run Takes { } es s) :
    (∀ e s', Takes e s s' → ∀ node val val', s.Current node val → s'.Current node val' →
      val' = val ∨ val.signTime < val'.signTime) ∧
    (∀ e s', Takes e s s' → ∀ hash node val, s.stored hash node = some val →
      s'.stored hash node = some val) ∧
    (∀ node val, s.Current node val → ∀ es' s', Run Takes s es' s' →
      s'.handed.count val = if s'.Current node val then 0 else 1) ∧
    s.written.Nodup ∧ (s.writing = false → s.written = s.handed) ∧
    ∃ n s', Run Takes s (replicate n (.doWrite 0)) s' ∧ s'.writing = false ∧
      s'.written = s.handed := by
  have hsn : s.Sound := run.preserves Sound (fun _ _ _ hse h => (h.handle hse).1) sound_empty
  refine ⟨fun e s' hse node val val' hv hv' => ?_,
    fun e s' hse => (hsn.handle hse).2.stored,
    fun node val hv es' s' hrs => hsn.count_handed hv hrs, ?_, fun hi => ?_,
    hsn.attended.writes_all⟩
  · rcases (hsn.handle hse).2.current node val hv with heq | ⟨-, hl⟩
    · cases heq.symm.trans hv'
      exact .inl rfl
    · exact .inr (hl val' hv')
  · have hnd := hsn.nodup
    rw [handed, append_assoc] at hnd
    exact hnd.of_append_left
  · rcases hsn.attended with ⟨hw, -⟩ | ⟨-, hj, hsa⟩
    · rw [hi] at hw
      cases hw
    · simp [handed, hj, hsa]

def sampleValidation (hash : UInt256) (signTime : UInt32) : STValidation :=
  { ledgerHash := hash, nodeID := 1, signTime, trusted := true }

theorem displaced_handed : ∃ s s',
    Run Takes { } [.addValidation (sampleValidation 1 1000) true 1000] s ∧
    Run Takes s [.addValidation (sampleValidation 2 1001) true 1001] s' ∧
    s.Current 1 (sampleValidation 1 1000) ∧ ¬ s'.Current 1 (sampleValidation 1 1000) ∧
    s'.handed.count (sampleValidation 1 1000) = 1 := by
  let s := (addValidation (sampleValidation 1 1000) true 1000 { }).2
  let s' := (s.addValidation (sampleValidation 2 1001) true 1001).2
  have run : Run Takes { } [.addValidation (sampleValidation 1 1000) true 1000] s :=
    .cons rfl (.nil _)
  have hrs : Run Takes s [.addValidation (sampleValidation 2 1001) true 1001] s' :=
    .cons rfl (.nil _)
  have hc : s.Current 1 (sampleValidation 1 1000) := by decide
  have hnt : ¬ s'.Current 1 (sampleValidation 1 1000) := by decide
  refine ⟨s, s', run, hrs, hc, hnt, ?_⟩
  have hcn := (validations_bookkept _ s run).2.2.1 1 _ hc _ s' hrs
  exact hcn

end Validations

end Sand
