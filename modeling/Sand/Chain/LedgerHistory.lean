import Sand.Protocol.Types
import Mathlib.Data.List.AList

/-!
# The history of built and validated ledgers

A difference between the two is reported with both hashes.
-/

namespace Sand.LedgerHistory

/-- The built and the validated hash of each index, or zero. -/
abbrev ConsensusValidated := AList fun _ : UInt32 => UInt256 × UInt256

def canonicalize (cache : ConsensusValidated) (index : UInt32) : UInt256 × UInt256 :=
  (cache.lookup index).getD (0, 0)

/-- The arguments of `handleMismatch`, if it is called. -/
abbrev Report := Option (UInt256 × UInt256)

def builtLedger (cache : ConsensusValidated) (index : UInt32) (hash : UInt256) :
    Report × ConsensusValidated :=
  let entry := canonicalize cache index
  if entry.1 ≠ hash then
    (if entry.2 ≠ 0 ∧ entry.2 ≠ hash then some (hash, entry.1) else none,
      cache.insert index (hash, entry.2))
  else
    (none, cache.insert index entry)

def validatedLedger (cache : ConsensusValidated) (index : UInt32) (hash : UInt256) :
    Report × ConsensusValidated :=
  let entry := canonicalize cache index
  if entry.2 ≠ hash then
    (if entry.1 ≠ 0 ∧ entry.1 ≠ hash then some (entry.1, hash) else none,
      cache.insert index (entry.1, hash))
  else
    (none, cache.insert index entry)

inductive Call where
  | builtLedger (index : UInt32) (hash : UInt256)
  | validatedLedger (index : UInt32) (hash : UInt256)

namespace Call

def index : Call → UInt32
  | builtLedger index _ | validatedLedger index _ => index

def hash : Call → UInt256
  | builtLedger _ hash | validatedLedger _ hash => hash

def run (cache : ConsensusValidated) : Call → Report × ConsensusValidated
  | builtLedger index hash => LedgerHistory.builtLedger cache index hash
  | validatedLedger index hash => LedgerHistory.validatedLedger cache index hash

end Call

-- The latest call is the first of a list.
variable (calls before : List Call) (index : UInt32)

def cacheAfter : List Call → ConsensusValidated
  | [] => ∅
  | call :: before => (call.run (cacheAfter before)).2

def lastBuilt : Option UInt256 :=
  calls.findSome? fun
    | .builtLedger i hash => if i = index then some hash else none
    | .validatedLedger _ _ => none

def lastValidated : Option UInt256 :=
  calls.findSome? fun
    | .builtLedger _ _ => none
    | .validatedLedger i hash => if i = index then some hash else none

/-- The call changes the last built or the last validated hash of its index, and both are known
then and differ. -/
def Mismatch (call : Call) (b v : UInt256) : Prop :=
  (lastBuilt (call :: before) call.index ≠ lastBuilt before call.index ∨
      lastValidated (call :: before) call.index ≠ lastValidated before call.index) ∧
    lastBuilt (call :: before) call.index = some b ∧
    lastValidated (call :: before) call.index = some v ∧ b ≠ v

def RightReport (call : Call) : Prop :=
  ∀ b v, (call.run (cacheAfter before)).1 = some (b, v) ↔ Mismatch before call b v

variable {calls before index}

theorem canonicalize_insert (cache : ConsensusValidated) (i : UInt32) (ent : UInt256 × UInt256) :
    canonicalize (cache.insert i ent) index =
      if i = index then ent else canonicalize cache index := by
  unfold canonicalize
  split_ifs with h
  · rw [h, AList.lookup_insert, Option.getD_some]
  · rw [AList.lookup_insert_ne fun heq => h heq.symm]

theorem canonicalize_cacheAfter : canonicalize (cacheAfter calls) index =
      ((lastBuilt calls index).getD 0, (lastValidated calls index).getD 0) := by
  induction calls with
  | nil => rfl
  | cons call before ih =>
    cases call with
    | builtLedger i hash =>
      simp only [cacheAfter, Call.run, builtLedger, lastBuilt, lastValidated, List.findSome?_cons]
      grind [canonicalize_insert, lastBuilt, lastValidated]
    | validatedLedger i hash =>
      simp only [cacheAfter, Call.run, validatedLedger, lastBuilt, lastValidated]
      grind [canonicalize_insert, lastBuilt, lastValidated]

section

variable (h0 : ∀ call ∈ before, call.hash ≠ 0)
include h0

theorem lastBuilt_ne_zero : lastBuilt before index ≠ some 0 := by
  intro h
  obtain ⟨call, hm, hca⟩ := List.exists_of_findSome?_eq_some h
  grind [Call.hash]

theorem lastValidated_ne_zero : lastValidated before index ≠ some 0 := by
  intro h
  obtain ⟨call, hm, hca⟩ := List.exists_of_findSome?_eq_some h
  grind [Call.hash]

theorem rightReport_validatedLedger {hash : UInt256} (hh : hash ≠ 0) :
    RightReport before (.validatedLedger index hash) := by
  have hbu : lastBuilt before index ≠ some 0 := lastBuilt_ne_zero h0
  have hl : lastBuilt (.validatedLedger index hash :: before) index = lastBuilt before index := rfl
  have hn : lastValidated (.validatedLedger index hash :: before) index = some hash := by
    simp [lastValidated]
  intro b v
  simp only [Call.run, validatedLedger, canonicalize_cacheAfter, Mismatch, Call.index, hl, hn]
  generalize lastBuilt before index = built, lastValidated before index = validated at *
  cases built <;> cases validated <;> grind

theorem rightReport_builtLedger_iff {hash : UInt256} (hh : hash ≠ 0) :
    RightReport before (.builtLedger index hash) ↔ (lastBuilt before index ≠ some hash →
      ∀ v, lastValidated before index = some v → v ≠ hash → lastBuilt before index = some v) := by
  have hbu : lastBuilt before index ≠ some 0 := lastBuilt_ne_zero h0
  have hva : lastValidated before index ≠ some 0 := lastValidated_ne_zero h0
  have hl : lastValidated (.builtLedger index hash :: before) index =
    lastValidated before index := rfl
  have hn : lastBuilt (.builtLedger index hash :: before) index = some hash := by
    simp [lastBuilt]
  simp only [RightReport, Call.run, builtLedger, canonicalize_cacheAfter, Mismatch, Call.index,
    hl, hn]
  generalize lastBuilt before index = built, lastValidated before index = validated at *
  constructor
  · intro h hne v hv hvh
    have hr := (h hash v).mpr ⟨.inl hne.symm, rfl, hv, hvh.symm⟩
    cases built <;> grind
  · intro h b v
    cases built <;> cases validated <;> grind

end

theorem rightReports_iff (h0 : ∀ call ∈ calls, call.hash ≠ 0) :
    (∀ call before, call :: before <:+ calls → RightReport before call) ↔
      ∀ index hash before, .builtLedger index hash :: before <:+ calls →
        lastBuilt before index ≠ some hash →
          ∀ v, lastValidated before index = some v → v ≠ hash → lastBuilt before index = some v := by
  have hb {call before} (h : call :: before <:+ calls) :
      call.hash ≠ 0 ∧ ∀ c ∈ before, c.hash ≠ 0 := by
    have hsu := h.subset
    simp only [List.cons_subset] at hsu
    exact ⟨h0 _ hsu.1, fun c hc => h0 _ (hsu.2 hc)⟩
  constructor
  · intro h index hash before hs
    obtain ⟨hh, hrs⟩ := hb hs
    exact (rightReport_builtLedger_iff hrs hh).mp (h _ _ hs)
  · intro h call before hs
    obtain ⟨hh, hrs⟩ := hb hs
    cases call with
    | builtLedger index hash =>
      exact (rightReport_builtLedger_iff hrs hh).mpr (h index hash before hs)
    | validatedLedger index hash => exact rightReport_validatedLedger hrs hh

/-- A ledger is validated, then another one built. -/
theorem validated_then_built_report :
    ((Call.builtLedger 5 1).run (cacheAfter [.validatedLedger 5 2])).1 = some (1, 0) ∧
      ¬ RightReport [.validatedLedger 5 2] (.builtLedger 5 1) := by
  refine ⟨by decide, ?_⟩
  rw [rightReport_builtLedger_iff (by decide) (by decide)]
  intro h
  cases h nofun 2 (by decide) (by decide)

theorem built_then_validated_reports :
    RightReport [] (.builtLedger 5 1) ∧ RightReport [.builtLedger 5 1] (.validatedLedger 5 2) := by
  have hreports : ∀ call before, call :: before <:+ [.validatedLedger 5 2, .builtLedger 5 1] →
      RightReport before call := by
    refine (rightReports_iff (by decide)).mpr ?_
    intro index hash before h hbuilt v hvalidated
    obtain h | h := List.suffix_cons_iff.mp h
    · cases h
    obtain h | h := List.suffix_cons_iff.mp h
    · cases h
      cases hvalidated
    · cases List.suffix_nil.mp h
  exact ⟨hreports _ _ (List.suffix_cons _ _), hreports _ _ List.suffix_rfl⟩

end Sand.LedgerHistory
