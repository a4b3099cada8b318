import Sand.Library.FiniteMap
import Sand.Protocol.Types

/-!
# The amendment table

A server's own list of amendments: which ones it knows, vetoes and takes to be enabled.
-/

namespace Sand

open List

structure AmendmentState where
  vetoed : Bool := false
  enabled : Bool := false
  supported : Bool := false
  deriving DecidableEq

structure Validation where
  isTrusted : Bool
  amendments : Option (List UInt256) := none
  deriving DecidableEq

/-- The status of all amendments requested in a window. -/
structure AmendmentSet where
  trustedValidations : Int := 0
  votes : AList fun _ : UInt256 => Int := ∅

namespace AmendmentSet

variable (set : AmendmentSet)

def addVoter : AmendmentSet :=
  { set with trustedValidations := set.trustedValidations + 1 }

variable (amendment : UInt256)

def count : Int :=
  (set.votes.lookup amendment).getD 0

def addVote : AmendmentSet :=
  { set with votes := set.votes.insert amendment (set.count amendment + 1) }

def addValidation (validation : Validation) : AmendmentSet :=
  if validation.isTrusted then
    (validation.amendments.getD []).foldl addVote set.addVoter
  else
    set

theorem count_addVote (am vote : UInt256) : (set.addVote vote).count am =
      set.count am + if vote = am then 1 else 0 := by
  obtain rfl | hvo := eq_or_ne vote am
  · simp [addVote, count]
  · have hne : am ≠ vote := fun h => hvo h.symm
    simp [addVote, count, AList.lookup_insert_ne hne, hvo]

theorem count_foldl_addVote (lst : List UInt256) : (lst.foldl addVote set).count amendment =
      set.count amendment + lst.count amendment := by
  induction lst generalizing set with
  | nil => simp
  | cons vote lst ih =>
    rw [foldl_cons, ih, count_addVote, count_cons]
    by_cases hvo : vote = amendment
    · simp only [hvo, beq_self_eq_true, if_true]
      omega
    · simp [hvo]

theorem trustedValidations_foldl_addVote (lst : List UInt256) :
    (lst.foldl addVote set).trustedValidations = set.trustedValidations := by
  induction lst generalizing set with
  | nil => rfl
  | cons vote lst ih => exact ih (set.addVote vote)

end AmendmentSet

variable (validations : List Validation)

def trusted : List Validation :=
  validations.filter (·.isTrusted)

def voters (amendment : UInt256) : Nat :=
  (trusted validations).countP fun validation => (validation.amendments.getD []).contains amendment

def listings (amendment : UInt256) : Nat :=
  ((trusted validations).map fun validation => (validation.amendments.getD []).count amendment).sum

theorem addValidation_counts (set : AmendmentSet) (vals : List Validation) (amendment : UInt256) :
    (vals.foldl AmendmentSet.addValidation set).trustedValidations =
        set.trustedValidations + (trusted vals).length ∧
      (vals.foldl AmendmentSet.addValidation set).count amendment =
        set.count amendment + listings vals amendment := by
  induction vals generalizing set with
  | nil => simp [trusted, listings]
  | cons validation rest ih =>
    rw [foldl_cons]
    obtain ⟨ht, hc⟩ := ih (set.addValidation validation)
    rw [ht, hc]
    by_cases hva : validation.isTrusted
    · have hs : set.addValidation validation =
          (validation.amendments.getD []).foldl AmendmentSet.addVote set.addVoter :=
        if_pos hva
      have hvr : set.addVoter.count amendment = set.count amendment := rfl
      have hl : trusted (validation :: rest) = validation :: trusted rest := filter_cons_of_pos hva
      rw [hs, AmendmentSet.trustedValidations_foldl_addVote, AmendmentSet.count_foldl_addVote,
        hvr, listings, listings, hl, length_cons, map_cons, sum_cons,
        AmendmentSet.addVoter]
      push_cast
      constructor <;> omega
    · have hs : set.addValidation validation = set := if_neg hva
      have hl : trusted (validation :: rest) = trusted rest := filter_cons_of_neg hva
      rw [hs, listings, listings, hl]
      exact ⟨rfl, rfl⟩

structure AmendmentTable where
  amendmentMap : AList fun _ : UInt256 => AmendmentState := ∅
  lastUpdateSeq : UInt32 := 0
  /-- How long a majority has to hold, in seconds. -/
  majorityTime : Int
  /-- The majority of trusted validations, out of 256. -/
  majorityFraction : Int

namespace AmendmentTable

variable (table : AmendmentTable)

def isEnabled (amendment : UInt256) : Bool :=
  (table.amendmentMap.lookup amendment).any (·.enabled)

/-- An amendment could have been enabled between the two. -/
def needValidatedLedger (ledgerSeq : UInt32) : Bool :=
  (ledgerSeq - 1) / 256 != (table.lastUpdateSeq - 1) / 256

def doValidatedLedger (_ledgerSeq : UInt32) (enabled : List UInt256) : AmendmentTable :=
  { table with
    amendmentMap := FiniteMap.filterMap table.amendmentMap fun amendment state =>
      some { state with enabled := enabled.contains amendment } }

theorem isEnabled_doValidatedLedger (ls : UInt32) (enabled : List UInt256) (am : UInt256) :
    (table.doValidatedLedger ls enabled).isEnabled am ↔ am ∈ table.amendmentMap ∧ am ∈ enabled := by
  rw [← AList.lookup_isSome]
  cases hlk : table.amendmentMap.lookup am <;> simp [isEnabled, doValidatedLedger, hlk]

/-- A validated ledger is taken over exactly when the table knows all amendments that it enables
and the window of the ledger is the table's own. -/
theorem tracks_validated_iff (ledgerSeq : UInt32) (enabled : List UInt256) :
    ((∀ amendment, (table.doValidatedLedger ledgerSeq enabled).isEnabled amendment = true ↔
          amendment ∈ enabled) ∧
        ∀ seq : UInt32, (seq - 1) / 256 = (ledgerSeq - 1) / 256 →
          (table.doValidatedLedger ledgerSeq enabled).needValidatedLedger seq = false) ↔
      (∀ amendment ∈ enabled, amendment ∈ table.amendmentMap) ∧
        (ledgerSeq - 1) / 256 = (table.lastUpdateSeq - 1) / 256 := by
  refine and_congr ?_ ?_
  · refine forall_congr' fun amendment => ?_
    rw [isEnabled_doValidatedLedger]
    exact and_iff_right_iff_imp
  have hn : ∀ seq, (table.doValidatedLedger ledgerSeq enabled).needValidatedLedger seq =
      false ↔ (seq - 1) / 256 = (table.lastUpdateSeq - 1) / 256 := by
    intro seq
    simp [needValidatedLedger, doValidatedLedger]
  constructor
  · intro hw
    exact (hn ledgerSeq).mp (hw ledgerSeq rfl)
  · intro hle seq hse
    exact (hn seq).mpr (hse.trans hle)

/-- A new table told of ledger 257. -/
theorem new_table_not_tracks :
    let table : AmendmentTable := { majorityTime := 1209600, majorityFraction := 204 }
    (table.doValidatedLedger 257 [1]).isEnabled 1 = false ∧
      (table.doValidatedLedger 257 [1]).needValidatedLedger 257 = true := by
  decide

/-! ## Voting -/

variable (trustedValidations : Int)

def threshold : Int :=
  (trustedValidations * table.majorityFraction + 255).tdiv 256

/-- What to do about an amendment, as flags. -/
def action (closeTime : UInt32) (enabledAmendments : List UInt256)
    (majorityAmendments : AList fun _ : UInt256 => UInt32) (set : AmendmentSet)
    (amendment : UInt256) (state : AmendmentState) : Option Flags :=
  let hasValMajority := decide (table.threshold set.trustedValidations ≤ set.count amendment)
  let majorityTime := (majorityAmendments.lookup amendment).getD 0
  if enabledAmendments.contains amendment then
    none
  else if hasValMajority && majorityTime == 0 && !state.vetoed then
    some tfGotMajority
  else if !hasValMajority && majorityTime != 0 then
    some tfLostMajority
  else if majorityTime != 0 &&
      decide (majorityTime.toNat + table.majorityTime ≤ closeTime.toNat) && !state.vetoed then
    some 0
  else
    none

def doVoting (closeTime : UInt32) (enabledAmendments : List UInt256)
    (majorityAmendments : AList fun _ : UInt256 => UInt32) (valSet : List Validation) :
    AList fun _ : UInt256 => Flags :=
  let amendmentSet := valSet.foldl AmendmentSet.addValidation {}
  FiniteMap.filterMap table.amendmentMap
    (table.action closeTime enabledAmendments majorityAmendments amendmentSet)

theorem threshold_le_iff (votes : Nat) : table.threshold trustedValidations ≤ votes ↔
      trustedValidations * table.majorityFraction ≤ 256 * votes := by
  unfold threshold
  generalize trustedValidations * table.majorityFraction = scaled
  rcases Int.le_total 0 (scaled + 255) with hpo | hng
  · rw [Int.tdiv_eq_ediv_of_nonneg hpo]
    omega
  · have hng' : 0 ≤ -(scaled + 255) := by omega
    rw [← Int.neg_neg (scaled + 255), Int.neg_tdiv, Int.tdiv_eq_ediv_of_nonneg hng']
    omega

/-- The table knows and does not veto the amendment, and the ledger has neither enabled it nor
recorded a majority. -/
def Open (enabledAmendments : List UInt256)
    (majorityAmendments : AList fun _ : UInt256 => UInt32) (amendment : UInt256) : Prop :=
  (∃ state, table.amendmentMap.lookup amendment = some state ∧ state.vetoed = false) ∧
    amendment ∉ enabledAmendments ∧ (majorityAmendments.lookup amendment).getD 0 = 0

variable (closeTime : UInt32) (enabledAmendments : List UInt256)
  (majorityAmendments : AList fun _ : UInt256 => UInt32) (valSet : List Validation)

theorem count_valSet (amendment : UInt256) :
    (valSet.foldl AmendmentSet.addValidation {}).trustedValidations = (trusted valSet).length ∧
      (valSet.foldl AmendmentSet.addValidation {}).count amendment = listings valSet amendment := by
  obtain ⟨ht, hc⟩ := addValidation_counts {} valSet amendment
  have h0 : (AmendmentSet.count {} amendment) = 0 := rfl
  rw [ht, hc, h0]
  exact ⟨Int.zero_add _, Int.zero_add _⟩

theorem action_eq_gotMajority_iff (set : AmendmentSet) (am : UInt256) (ste : AmendmentState) :
    table.action closeTime enabledAmendments majorityAmendments set am ste = some tfGotMajority ↔
      table.threshold set.trustedValidations ≤ set.count am ∧ ste.vetoed = false ∧
        am ∉ enabledAmendments ∧ (majorityAmendments.lookup am).getD 0 = 0 := by
  have hlo : tfLostMajority ≠ tfGotMajority := by decide
  have hno : ¬ 0#32 = tfGotMajority := by decide
  unfold action
  by_cases hen : am ∈ enabledAmendments
  · simp [hen]
  by_cases hv : table.threshold set.trustedValidations ≤ set.count am <;>
    by_cases hti : (majorityAmendments.lookup am).getD 0 = 0 <;>
      cases hve : ste.vetoed <;> simp [hen, hv, hti, hlo, hno]

theorem gotMajority_iff (amendment : UInt256) :
    (table.doVoting closeTime enabledAmendments majorityAmendments valSet).lookup amendment =
        some tfGotMajority ↔
      table.Open enabledAmendments majorityAmendments amendment ∧
        table.threshold (trusted valSet).length ≤ listings valSet amendment := by
  obtain ⟨ht, hc⟩ := count_valSet valSet amendment
  rw [doVoting, FiniteMap.lookup_filterMap, Option.bind_eq_some_iff]
  simp only [action_eq_gotMajority_iff, ht, hc, Open]
  constructor
  · rintro ⟨state, hlk, hv, hve, hen, hti⟩
    exact ⟨⟨⟨state, hlk, hve⟩, hen, hti⟩, hv⟩
  · rintro ⟨⟨⟨state, hlk, hve⟩, hen, hti⟩, hv⟩
    exact ⟨state, hlk, hv, hve, hen, hti⟩

/-- A majority is announced only on a real one exactly when the two slips of the count do no harm:
a threshold of no votes, and an amendment listed more than once. -/
theorem majority_real_iff : (∀ amendment,
        (table.doVoting closeTime enabledAmendments majorityAmendments valSet).lookup amendment =
          some tfGotMajority →
        0 < voters valSet amendment ∧
          (trusted valSet).length * table.majorityFraction ≤ 256 * voters valSet amendment) ↔
      ∀ amendment, table.Open enabledAmendments majorityAmendments amendment →
        (table.threshold (trusted valSet).length ≤ 0 → 0 < voters valSet amendment) ∧
          (voters valSet amendment < table.threshold (trusted valSet).length →
            listings valSet amendment < table.threshold (trusted valSet).length) := by
  refine forall_congr' fun amendment => ?_
  rw [gotMajority_iff, ← threshold_le_iff]
  constructor
  · intro hr ho
    refine ⟨fun hno => ?_, fun hf => ?_⟩
    · exact (hr ⟨ho, by omega⟩).1
    · by_contra hli
      have hvt := (hr ⟨ho, by omega⟩).2
      omega
  · rintro hex ⟨ho, hli⟩
    obtain ⟨hp, hre⟩ := hex ho
    have hvt : table.threshold (trusted valSet).length ≤ voters valSet amendment := by
      by_contra hf
      have hu := hre (by omega)
      omega
    refine ⟨?_, hvt⟩
    by_contra hno
    exact hno (hp (by omega))

/-- No vote is enough without a trusted validation, and one validation of three by listing the
amendment three times. -/
theorem majority_not_real : let table : AmendmentTable :=
      { amendmentMap := AList.singleton 1 { supported := true }
        majorityTime := 1209600
        majorityFraction := 204 }
    let silent : Validation := { isTrusted := true }
    let valSet := [{ isTrusted := true, amendments := some [1, 1, 1] }, silent, silent]
    (table.doVoting 0 [] ∅ []).lookup 1 = some tfGotMajority ∧ voters [] 1 = 0 ∧
      (table.doVoting 0 [] ∅ valSet).lookup 1 = some tfGotMajority ∧
      ¬ ((trusted valSet).length * table.majorityFraction ≤ 256 * voters valSet 1) := by
  decide

end AmendmentTable

end Sand
