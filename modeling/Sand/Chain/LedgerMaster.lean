import Sand.Protocol.Types
import Mathlib.Logic.Function.Basic

/-!
# Validated ledgers

When a ledger has been built, validations that were saved up may accept another one.
-/

namespace Sand

open Function List

structure ValSeq where
  valCount : ℕ := 0
  ledgerSeq : UInt32 := 0

def ValSeq.mergeValidation (vs : ValSeq) (seq : UInt32) : ValSeq :=
  ⟨vs.valCount + 1, if vs.ledgerSeq = 0 then seq else vs.ledgerSeq⟩

structure LedgerMaster where
  standalone : Bool
  validLedgerSeq : UInt32
  lastValidateHash : UInt256
  minValidations : ℤ
  getTrustedValidationCount : UInt256 → ℕ
  /-- The ledgers that current validations are of. -/
  validations : List UInt256
  /-- The sequence number, also in its validations. -/
  seqOf : UInt256 → UInt32
  haveLedger : UInt256 → Bool

namespace LedgerMaster

variable (m : LedgerMaster) (hash : UInt256)

def getNeededValidations : ℤ :=
  if m.standalone then 0
  else if m.lastValidateHash ≠ 0 then
    max m.minValidations (m.getTrustedValidationCount m.lastValidateHash * 150 / 256)
  else m.minValidations

def checkAccept : LedgerMaster :=
  if m.seqOf hash ≤ m.validLedgerSeq ∨
      m.getTrustedValidationCount hash < m.getNeededValidations then m
  else { m with validLedgerSeq := m.seqOf hash, lastValidateHash := hash }

def count : UInt256 → ValSeq :=
  m.validations.foldl (fun count h => update count h ((count h).mergeValidation (m.seqOf h)))
    fun _ => {}

def countedSeq : UInt32 :=
  let vs := m.count hash
  if vs.ledgerSeq = 0 ∧ m.haveLedger hash then m.seqOf hash else vs.ledgerSeq

def raise (best : UInt32 × UInt256) (hash : UInt256) : UInt32 × UInt256 :=
  if m.getNeededValidations < (m.count hash).valCount ∧ best.1 < m.countedSeq hash then
    (m.countedSeq hash, hash)
  else best

/-- Those that `checkAccept` is called for, the counts in any order. -/
def consensusBuilt (order : List UInt256) : List UInt256 :=
  if m.standalone ∨ m.seqOf hash ≤ m.validLedgerSeq then []
  else
    let m := m.checkAccept hash
    if m.seqOf hash ≤ m.validLedgerSeq then [hash]
    else
      let (maxSeq, maxLedger) := order.foldl m.raise (m.validLedgerSeq, hash)
      if m.validLedgerSeq < maxSeq then [hash, maxLedger] else [hash]

/-- A later ledger with the validations needed and `spare` more. -/
def Enough (spare : ℕ) (hash : UInt256) : Prop :=
  hash ∈ m.validations ∧ m.validLedgerSeq < m.seqOf hash ∧
    m.getNeededValidations + spare ≤ m.validations.count hash

def Highest : Prop := m.Enough 0 hash ∧ ∀ h, m.Enough 0 h → m.seqOf h ≤ m.seqOf hash

variable {m hash} {order : List UInt256}

theorem count_eq :
    m.count hash = ⟨m.validations.count hash, if hash ∈ m.validations then m.seqOf hash else 0⟩ := by
  unfold count
  induction m.validations using List.reverseRecOn with
  | nil => rfl
  | append_singleton validations h ih =>
    rw [foldl_concat, update_apply, count_append]
    by_cases heq : hash = h
    · subst heq
      rw [if_pos rfl, ih, ValSeq.mergeValidation]
      grind
    · rw [if_neg heq, ih]
      grind

theorem raise_eq (hm : hash ∈ m.validations) (best : UInt32 × UInt256) : m.raise best hash =
      if m.getNeededValidations < m.validations.count hash ∧ best.1 < m.seqOf hash then
        (m.seqOf hash, hash)
      else best := by
  have hse : m.countedSeq hash = m.seqOf hash := by
    rw [countedSeq, count_eq, if_pos hm, ite_id]
  rw [raise, hse, count_eq]

/-- The loop finds a highest ledger with more validations than needed. -/
theorem foldl_raise (hm : ∀ h ∈ order, h ∈ m.validations) (best : UInt32 × UInt256)
    (hbe : m.validLedgerSeq ≤ best.1) :
    let result := order.foldl m.raise best
    best.1 ≤ result.1 ∧ (∀ h ∈ order, m.Enough 1 h → m.seqOf h ≤ result.1) ∧
      (result = best ∨ ∃ h, m.Enough 1 h ∧ result = (m.seqOf h, h)) := by
  induction order generalizing best with
  | nil => exact ⟨UInt32.le_refl _, nofun, .inl rfl⟩
  | cons hash order ih =>
    obtain ⟨hs, hrs⟩ := forall_mem_cons.mp hm
    rw [foldl_cons, raise_eq hs]
    split_ifs with hr
    · have hv := UInt32.lt_of_le_of_lt hbe hr.2
      obtain ⟨hle, ha, hf⟩ := ih hrs (m.seqOf hash, hash) (UInt32.le_of_lt hv)
      refine ⟨UInt32.le_trans (UInt32.le_of_lt hr.2) hle,
        forall_mem_cons.mpr ⟨fun _ => hle, ha⟩, .inr ?_⟩
      rcases hf with hsa | hf
      · exact ⟨hash, ⟨hs, hv, by exact_mod_cast hr.1⟩, hsa⟩
      · exact hf
    · obtain ⟨hle, ha, hf⟩ := ih hrs best hbe
      refine ⟨hle, forall_mem_cons.mpr ⟨fun he => ?_, ha⟩, hf⟩
      refine UInt32.le_trans (UInt32.not_lt.mp fun hlt => hr ⟨?_, hlt⟩) hle
      exact_mod_cast he.2.2

/-- The highest ledger is overlooked if it has just the validations it needs and none with more is
as high, or if the ledger that was built is old. -/
theorem none_overlooked_iff (hst : m.standalone = false)
    (ho : ∀ h, h ∈ order ↔ h ∈ m.validations) (hbu : m.checkAccept hash = m) :
    (((∃ h, m.Enough 0 h) → ∃ h ∈ m.consensusBuilt hash order, m.Highest h) ∧
      ∀ h ∈ m.consensusBuilt hash order, h = hash ∨ m.Highest h) ↔
    ((∃ h, m.Enough 0 h) → m.validLedgerSeq < m.seqOf hash ∧
      ((∃ h, m.Enough 1 h ∧ m.Highest h) ∨ m.Highest hash ∧ ∀ h, ¬ m.Enough 1 h)) := by
  unfold consensusBuilt
  simp only [hst, hbu, Bool.false_eq_true, false_or]
  by_cases hold : m.seqOf hash ≤ m.validLedgerSeq
  · simp [hold, UInt32.not_lt.mpr hold]
  rw [if_neg hold, if_neg hold]
  obtain ⟨-, ha, hf⟩ := foldl_raise (fun h => (ho h).mp) (m.validLedgerSeq, hash) (UInt32.le_refl _)
  generalize order.foldl m.raise (m.validLedgerSeq, hash) = best at ha hf ⊢
  have ht : ∀ h, m.Enough 1 h → m.seqOf h ≤ best.1 := fun h he => ha h ((ho h).mpr he.1) he
  rcases hf with rfl | ⟨b, hb, rfl⟩
  · -- no ledger has more validations than needed, so only the one that was built is checked
    have hno : ∀ h, ¬ m.Enough 1 h := fun h he => UInt32.not_lt.mpr (ht h he) he.2.1
    simp [hno, UInt32.not_le.mp hold]
  · have he : m.Enough 0 b := ⟨hb.1, hb.2.1, by have := hb.2.2; push_cast at *; omega⟩
    have hhi : (∃ h, m.Enough 1 h ∧ m.Highest h) ↔ m.Highest b :=
      ⟨fun ⟨h, h1, hh⟩ => ⟨he, fun h' h0 => UInt32.le_trans (hh.2 h' h0) (ht h h1)⟩,
        fun hh => ⟨b, hb, hh⟩⟩
    have hmo : ¬ ∀ h, ¬ m.Enough 1 h := fun hno => hno b hb
    have hso : ∃ h, m.Enough 0 h := ⟨b, he⟩
    simp only [if_pos hb.2.1, hhi, hso, hmo, UInt32.not_le.mp hold, and_false, or_false,
      true_and, forall_const, mem_cons, not_mem_nil, exists_eq_or_imp, forall_eq_or_imp]
    grind

/-- Two validations of ledger 1; ledger 2 is built. -/
def sample (minValidations : ℤ) : LedgerMaster where
  standalone := false
  validLedgerSeq := 8
  lastValidateHash := 0
  minValidations := minValidations
  getTrustedValidationCount _ := 0
  validations := [1, 1]
  seqOf hash := if hash = 1 then 10 else 9
  haveLedger _ := false

theorem enough_sample {n : ℤ} {spare : ℕ} (hn : n + spare ≤ 2) : (sample n).Enough spare 1 :=
  ⟨by simp [sample], by simp [sample], hn⟩

theorem highest_sample {n : ℤ} (hn : n ≤ 2) : (sample n).Highest 1 := by
  refine ⟨enough_sample (by simpa using hn), fun h he => ?_⟩
  have hm : h ∈ [1, 1] := he.1
  obtain rfl : h = 1 := by simpa using hm
  exact UInt32.le_refl _

theorem two_of_two_overlooked : (sample 2).Highest 1 ∧ (sample 2).checkAccept 2 = sample 2 ∧
      (sample 2).consensusBuilt 2 [1] = [2] :=
  ⟨highest_sample le_rfl, rfl, by decide⟩

theorem two_of_one_found : ∃ h ∈ (sample 1).consensusBuilt 2 [1], (sample 1).Highest h :=
  ((none_overlooked_iff rfl (by simp [sample]) rfl).mpr fun _ =>
    ⟨by decide, .inl ⟨1, enough_sample le_rfl, highest_sample (by decide)⟩⟩).1
    ⟨1, enough_sample (by decide)⟩

end LedgerMaster

end Sand
