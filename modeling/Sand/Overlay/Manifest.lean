import Mathlib.Data.List.AList
import Sand.Library.Run
import Sand.Protocol.Types

/-!
# Validator key manifests

A manifest names the key that a validator signs with, under its master key.
-/

namespace Sand

open AList Option

abbrev PublicKey := Blob

structure Manifest where
  serialized : Blob
  masterKey : PublicKey
  signingKey : PublicKey
  sequence : UInt32
  deriving DecidableEq

/-- The highest number revokes the master key. -/
def Manifest.revoked (m : Manifest) : Bool := m.sequence == 0xFFFFFFFF

inductive ManifestDisposition where
  | accepted
  | untrusted
  | stale
  | invalid
  deriving DecidableEq

structure MappedType where
  comment : String := ""
  m : Option Manifest := none
  deriving DecidableEq

/-- The cache, the ephemeral keys of the unique node list, and the manifests between the two checks
of `applyManifest`. -/
structure ManifestCache where
  map : AList fun _ : PublicKey => MappedType := ∅
  ephemeralValidatorKeys : AList fun _ : PublicKey => String := ∅
  entered : List Manifest := []

namespace ManifestCache

/-! ### The node list -/

def insertEphemeralKey (s : ManifestCache) (pk : PublicKey) (comment : String) : ManifestCache :=
  if pk ∈ s.ephemeralValidatorKeys then s
  else { s with ephemeralValidatorKeys := s.ephemeralValidatorKeys.insert pk comment }

def deleteEphemeralKey (s : ManifestCache) (pk : PublicKey) : ManifestCache :=
  { s with ephemeralValidatorKeys := s.ephemeralValidatorKeys.erase pk }

/-! ### The cache -/

/-- If the key has a manifest, an exception is thrown. -/
def addTrustedKey (s : ManifestCache) (pk : PublicKey) (comment : String) :
    Option ManifestCache :=
  let value := (s.map.lookup pk).getD {}
  if value.m.isSome then none
  else some { s with map := s.map.insert pk { value with comment := comment } }

def canApply (s : ManifestCache) (pk : PublicKey) (seq : UInt32) : ManifestDisposition :=
  match s.map.lookup pk with
  | none => .untrusted
  | some value => if value.m.any fun old => decide (seq ≤ old.sequence) then .stale else .accepted

def deleteOld (s : ManifestCache) : Option Manifest → ManifestCache
  | none => s
  | some old => s.deleteEphemeralKey old.signingKey

/-- `applyManifest`, once everything is checked. -/
def store (s : ManifestCache) (m : Manifest) : ManifestCache :=
  let value := (s.map.lookup m.masterKey).getD {}
  let s := s.deleteOld value.m
  let s := if m.revoked then s else s.insertEphemeralKey m.signingKey value.comment
  { s with map := s.map.insert m.masterKey { value with m := some m } }

/-- `applyManifest` from the signature check on. -/
def finishManifest (verify : Manifest → Bool) (s : ManifestCache) (m : Manifest) :
    ManifestDisposition × ManifestCache :=
  if verify m then
    match s.canApply m.masterKey m.sequence with
    | .accepted => (.accepted, s.store m)
    | chk => (chk, s)
  else (.invalid, s)

def applyManifest (verify : Manifest → Bool) (s : ManifestCache) (m : Manifest) :
    ManifestDisposition × ManifestCache :=
  match s.canApply m.masterKey m.sequence with
  | .accepted => s.finishManifest verify m
  | chk => (chk, s)

inductive Event where
  | addTrustedKey (pk : PublicKey) (comment : String)
  | enterApply (m : Manifest)
  | finishApply (m : Manifest)

def step (verify : Manifest → Bool) (s : ManifestCache) : Event → Option ManifestCache
  | .addTrustedKey pk comment => some ((s.addTrustedKey pk comment).getD s)
  | .enterApply m =>
    match s.canApply m.masterKey m.sequence with
    | .accepted => some { s with entered := m :: s.entered }
    | _ => some s
  | .finishApply m =>
    if m ∈ s.entered then
      let s := { s with entered := s.entered.erase m }
      some (s.finishManifest verify m).2
    else none

variable {verify : Manifest → Bool} {s : ManifestCache}

theorem step_applyManifest {m : Manifest} (h : s.canApply m.masterKey m.sequence = .accepted) :
    (s.step verify (.enterApply m)).bind (fun s' => s'.step verify (.finishApply m)) =
      some (s.applyManifest verify m).2 := by
  have he : s.step verify (.enterApply m) = some { s with entered := m :: s.entered } := by
    rw [step, h]
  rw [he, bind_some, step, if_pos List.mem_cons_self]
  simp [List.erase_cons_head, applyManifest, h]

/-! ### What is stored -/

def stored (s : ManifestCache) (pk : PublicKey) : Option Manifest :=
  (s.map.lookup pk).bind MappedType.m

/-- The master key is one of those that are trusted. -/
def Trusted (s : ManifestCache) (pk : PublicKey) : Prop := pk ∈ s.map

/-- A signing key of a manifest not revoked. -/
def Active (s : ManifestCache) (key : PublicKey) : Prop :=
  ∃ pk m, s.stored pk = some m ∧ m.revoked = false ∧ m.signingKey = key

/-- The ephemeral keys are the stored signing keys. -/
def Exact (s : ManifestCache) : Prop :=
  ∀ key, key ∈ s.ephemeralValidatorKeys ↔ s.Active key

def Stores (verify : Manifest → Bool) (s : ManifestCache) (m : Manifest) : Prop :=
  m ∈ s.entered ∧ verify m ∧ s.canApply m.masterKey m.sequence = .accepted

/-- A replacing manifest keeps the key, or no other names it. -/
def Careful (verify : Manifest → Bool) (s : ManifestCache) : Event → Prop
  | .finishApply m => s.Stores verify m → ∀ old, s.stored m.masterKey = some old →
      (m.revoked = false ∧ m.signingKey = old.signingKey) ∨
        ∀ pk m', pk ≠ m.masterKey → s.stored pk = some m' → m'.revoked = false →
          m'.signingKey ≠ old.signingKey
  | _ => True

section Lemmas

variable {s' : ManifestCache} {m old : Manifest} {pk key : PublicKey} {e : Event}

theorem canApply_eq_accepted_iff {seq : UInt32} : s.canApply pk seq = .accepted ↔
      s.Trusted pk ∧ ∀ old, s.stored pk = some old → old.sequence < seq := by
  unfold canApply Trusted stored
  rw [← lookup_isSome]
  cases hva : s.map.lookup pk with
  | none => simp
  | some value =>
    cases hm : value.m with
    | none => simp [hm]
    | some old =>
      by_cases hle : seq ≤ old.sequence
      · simp [hm, hle]
      · simp [hm, hle, UInt32.not_le.mp hle]

theorem not_revoked_of_lt (h : old.sequence < m.sequence) : old.revoked = false := by
  rw [Manifest.revoked, beq_eq_false_iff_ne]
  intro hma
  rw [hma, UInt32.lt_iff_toNat_lt] at h
  have := m.sequence.toNat_lt
  change 4294967295 < _ at h
  omega

@[simp]
theorem map_insertEphemeralKey (comment : String) :
    (s.insertEphemeralKey pk comment).map = s.map := by
  unfold insertEphemeralKey
  split <;> rfl

@[simp]
theorem map_deleteOld (o : Option Manifest) : (s.deleteOld o).map = s.map := by
  cases o <;> rfl

variable {comment : String}

theorem mem_insertEphemeralKey : key ∈ (s.insertEphemeralKey pk comment).ephemeralValidatorKeys ↔
      key = pk ∨ key ∈ s.ephemeralValidatorKeys := by
  unfold insertEphemeralKey
  split
  · next hme =>
      constructor
      · exact .inr
      · rintro (rfl | h)
        · exact hme
        · exact h
  · exact mem_insert _

theorem mem_deleteOld {o : Option Manifest} : key ∈ (s.deleteOld o).ephemeralValidatorKeys ↔
      key ∈ s.ephemeralValidatorKeys ∧ ∀ old, o = some old → key ≠ old.signingKey := by
  cases o with
  | none => simp [deleteOld]
  | some old =>
    change key ∈ s.ephemeralValidatorKeys.erase old.signingKey ↔ _
    rw [mem_erase, and_comm]
    simp

theorem stored_eq : ((s.map.lookup pk).getD {}).m = s.stored pk := by
  rw [stored]
  cases s.map.lookup pk with
  | none | some value => rfl

theorem stored_store : (s.store m).stored pk =
    if pk = m.masterKey then some m else s.stored pk := by
  have hmp : (s.store m).map = s.map.insert m.masterKey
      { (s.map.lookup m.masterKey).getD {} with m := some m } := by
    unfold store
    split <;> simp
  unfold stored
  rw [hmp]
  by_cases hpk : pk = m.masterKey
  · rw [if_pos hpk, hpk, lookup_insert, bind_some]
  · rw [if_neg hpk, lookup_insert_ne hpk]

theorem mem_keys_store : key ∈ (s.store m).ephemeralValidatorKeys ↔
    (m.revoked = false ∧ key = m.signingKey) ∨
      key ∈ s.ephemeralValidatorKeys ∧ ∀ old, s.stored m.masterKey = some old →
        key ≠ old.signingKey := by
  rw [← stored_eq, ← mem_deleteOld]
  unfold store
  dsimp only
  cases hr : m.revoked with
  | true => simp
  | false =>
    rw [if_neg Bool.false_ne_true, mem_insertEphemeralKey]
    simp

/-- Signing keys of other masters' manifests. -/
def OthersActive (s : ManifestCache) (master key : PublicKey) : Prop :=
  ∃ pk m, pk ≠ master ∧ s.stored pk = some m ∧ m.revoked = false ∧ m.signingKey = key

theorem active_iff_others (pk : PublicKey) : s.Active key ↔ s.OthersActive pk key ∨
    ∃ m, s.stored pk = some m ∧ m.revoked = false ∧ m.signingKey = key := by
  constructor
  · rintro ⟨pk', m, hst, hrs⟩
    by_cases hpk : pk' = pk
    · exact .inr ⟨m, hpk ▸ hst, hrs⟩
    · exact .inl ⟨pk', m, hpk, hst, hrs⟩
  · rintro (⟨pk', m, -, h⟩ | ⟨m, h⟩)
    · exact ⟨pk', m, h⟩
    · exact ⟨pk, m, h⟩

theorem active_store : (s.store m).Active key ↔
    (m.revoked = false ∧ key = m.signingKey) ∨ s.OthersActive m.masterKey key := by
  rw [active_iff_others m.masterKey, or_comm]
  refine or_congr ?_ ?_
  · rw [stored_store, if_pos rfl]
    constructor
    · rintro ⟨_, ⟨⟩, hr, rfl⟩
      exact ⟨hr, rfl⟩
    · rintro ⟨hr, rfl⟩
      exact ⟨m, rfl, hr, rfl⟩
  · refine exists_congr fun pk => exists_congr fun m' => and_congr_right fun hpk => ?_
    rw [stored_store, if_neg hpk]

theorem exact_store_iff (h : s.Exact) : (s.store m).Exact ↔ ∀ old, s.stored m.masterKey = some old →
      (m.revoked = false ∧ m.signingKey = old.signingKey) ∨
        ¬s.OthersActive m.masterKey old.signingKey := by
  constructor
  · intro hex old hold
    by_cases hn : m.revoked = false ∧ m.signingKey = old.signingKey
    · exact .inl hn
    refine .inr fun ho => ?_
    rcases mem_keys_store.mp ((hex old.signingKey).mpr (active_store.mpr (.inr ho))) with
      ⟨hr, hke⟩ | ⟨-, hne⟩
    · exact hn ⟨hr, hke.symm⟩
    · exact hne old hold rfl
  · intro hc key
    rw [mem_keys_store, active_store, h key, active_iff_others m.masterKey]
    constructor
    · rintro (hn | ⟨ho | ⟨old, hold, -, hke⟩, hne⟩)
      · exact .inl hn
      · exact .inr ho
      · exact absurd hke.symm (hne old hold)
    · rintro (hn | ho)
      · exact .inl hn
      · by_cases hold : ∃ old, s.stored m.masterKey = some old ∧ key = old.signingKey
        · obtain ⟨old, hold, rfl⟩ := hold
          rcases hc old hold with ⟨hr, hke⟩ | hno
          · exact .inl ⟨hr, hke.symm⟩
          · exact absurd ho hno
        · exact .inr ⟨.inl ho, fun old hst hke => hold ⟨old, hst, hke⟩⟩

theorem stored_addTrustedKey (h : s.addTrustedKey pk comment = some s')
    (pk' : PublicKey) : s'.stored pk' = s.stored pk' := by
  unfold addTrustedKey at h
  dsimp only at h
  split at h
  · cases h
  next hno =>
    cases h
    obtain rfl | hpk := eq_or_ne pk' pk
    · rw [not_isSome_iff_eq_none, stored_eq] at hno
      rw [stored, lookup_insert, bind_some, hno]
      exact stored_eq.trans hno
    · rw [stored, lookup_insert_ne hpk, ← stored]

theorem step_cases (h : s.step verify e = some s') : (∃ m, e = .finishApply m ∧ s.Stores verify m ∧
      s' = ({ s with entered := s.entered.erase m } : ManifestCache).store m) ∨
    (∀ m, e = .finishApply m → ¬s.Stores verify m) ∧ (∀ pk, s'.stored pk = s.stored pk) ∧
      s'.ephemeralValidatorKeys = s.ephemeralValidatorKeys := by
  cases e with
  | addTrustedKey pk comment =>
    cases h
    refine .inr ⟨nofun, ?_⟩
    cases ha : s.addTrustedKey pk comment with
    | none => exact ⟨fun _ => rfl, rfl⟩
    | some s1 =>
      refine ⟨stored_addTrustedKey ha, ?_⟩
      unfold addTrustedKey at ha
      dsimp only at ha
      split at ha
      · cases ha
      · cases ha
        rfl
  | enterApply m =>
    refine .inr ⟨nofun, ?_⟩
    rw [step] at h
    split at h
    · cases h
      exact ⟨fun _ => rfl, rfl⟩
    · cases h
      exact ⟨fun _ => rfl, rfl⟩
  | finishApply m =>
    rw [step] at h
    split at h
    · next hme =>
        cases h
        by_cases hs : s.Stores verify m
        · refine .inl ⟨m, rfl, hs, ?_⟩
          have hca : ({ s with entered := s.entered.erase m } : ManifestCache).canApply
            m.masterKey m.sequence = .accepted := hs.2.2
          rw [finishManifest, if_pos hs.2.1, hca]
        refine .inr ⟨fun m' hm' => ?_, ?_⟩
        · cases hm'
          exact hs
        rw [finishManifest]
        split
        · next hv =>
            split
            · next hca => exact absurd ⟨hme, hv, hca⟩ hs
            · exact ⟨fun _ => rfl, rfl⟩
        · exact ⟨fun _ => rfl, rfl⟩
    · cases h

theorem exact_congr (hst : ∀ pk, s'.stored pk = s.stored pk)
    (hk : s'.ephemeralValidatorKeys = s.ephemeralValidatorKeys) : s'.Exact ↔ s.Exact := by
  unfold Exact Active
  rw [hk]
  simp [hst]

theorem exact_step_iff (h : s.Exact) (hse : s.step verify e = some s') :
    s'.Exact ↔ s.Careful verify e := by
  rcases step_cases hse with ⟨m, rfl, hs, rfl⟩ | ⟨hnt, hst, hk⟩
  · rw [exact_store_iff (s := { s with entered := s.entered.erase m }) h]
    constructor
    · intro hold _ old hst
      refine (hold old hst).imp_right fun hno pk m' hpk hm' hr hke => ?_
      exact hno ⟨pk, m', hpk, hm', hr, hke⟩
    · intro hc old hst
      refine (hc hs old hst).imp_right fun hno => ?_
      rintro ⟨pk, m', hpk, hm', hr, hke⟩
      exact hno pk m' hpk hm' hr hke
  · rw [exact_congr hst hk]
    refine iff_of_true h ?_
    cases e with
    | finishApply m => exact fun hs => absurd hs (hnt m rfl)
    | addTrustedKey pk comment | enterApply m => trivial

/-- A new one verifies, is trusted and greater; revoked stays revoked. -/
structure Orderly (verify : Manifest → Bool) (s s' : ManifestCache) : Prop where
  stored : ∀ pk m, s'.stored pk = some m → s.stored pk = some m ∨
    (verify m ∧ pk = m.masterKey ∧ s.Trusted pk ∧
      ∀ old, s.stored pk = some old → old.sequence < m.sequence)
  revoked : ∀ pk m, s.stored pk = some m → m.revoked → s'.stored pk = some m

theorem orderly_step (hse : s.step verify e = some s') : Orderly verify s s' := by
  rcases step_cases hse with ⟨m, rfl, ⟨-, hv, hca⟩, rfl⟩ | ⟨-, hst, -⟩
  · obtain ⟨ht, hlt⟩ := canApply_eq_accepted_iff.mp hca
    constructor
    · intro pk m' hm'
      rw [stored_store] at hm'
      split at hm'
      · next hpk =>
          cases hm'
          exact .inr ⟨hv, hpk, hpk ▸ ht, fun old hold => hlt old (hpk ▸ hold)⟩
      · exact .inl hm'
    · intro pk m' hm' hr
      rw [stored_store, if_neg]
      · exact hm'
      · rintro rfl
        rw [not_revoked_of_lt (hlt m' hm')] at hr
        cases hr
  · constructor
    · intro pk m hm
      exact .inl ((hst pk).symm.trans hm)
    · intro pk m hm _
      exact (hst pk).trans hm

end Lemmas

def Takes (verify : Manifest → Bool) (e : Event) (s s' : ManifestCache) : Prop :=
  s.step verify e = some s'

theorem exact_empty : ({} : ManifestCache).Exact := by
  intro key
  refine iff_of_false (notMem_empty key) ?_
  rintro ⟨pk, m, hst, -⟩
  cases hst

/-- In every interleaving manifests are stored in order, and the ephemeral keys are those of the
stored manifests exactly if no call replaces one whose signing key another one names. -/
theorem keys_of_history (verify : Manifest → Bool) (es : List Event) :
    Run.Along (Takes verify) (fun s _ s' => Orderly verify s s') {} es ∧
      (Run.Along (Takes verify) (fun _ _ s' => s'.Exact) {} es ↔
        Run.Along (Takes verify) (fun s e _ => s.Careful verify e) {} es) :=
  ⟨Run.along_of_step fun _ _ _ hstep => orderly_step hstep,
    Run.along_invariant_iff (fun _ _ _ h hstep => exact_step_iff h hstep) exact_empty⟩

/-- Two validators share a key; the first gets a new one. -/
def sharedKey : List Event :=
  let first : Manifest := ⟨[], [1], [9], 1⟩
  let second : Manifest := ⟨[], [2], [9], 1⟩
  let update : Manifest := ⟨[], [1], [8], 2⟩
  [.addTrustedKey [1] "", .addTrustedKey [2] "", .enterApply first, .finishApply first,
    .enterApply second, .finishApply second, .enterApply update, .finishApply update]

/-- The second validator's key is not in the node list. -/
theorem sharedKey_lost : ∃ s, sharedKey.foldlM (step fun _ => true) {} = some s ∧ s.Active [9] ∧
      [9] ∉ s.ephemeralValidatorKeys := by
  refine ⟨_, rfl, ⟨[2], ⟨[], [2], [9], 1⟩, ?_, rfl, rfl⟩, ?_⟩
  · decide
  · decide

end ManifestCache

end Sand
