import Sand.Chain.RangeSet

/-!
# The validated range

The complete ledgers up to the published one are reported without those still being saved.
-/

namespace Sand.ValidatedRange

open RangeSet Finset

section Functions

variable (pendingSaves : Finset ℕ)

def lower : ℕ → ℕ
  | 0 => 0
  | maxVal + 1 => if maxVal + 1 ∈ pendingSaves then lower maxVal else maxVal + 1

/-- The loop that raises the minimum, with what is left up to `2 ^ 32`, where it wraps to zero. -/
def raise : ℕ → ℕ → ℕ
  | 0, _ => 0
  | left + 1, minVal => if minVal ∈ pendingSaves then raise left (minVal + 1) else minVal

def cut (range : ℕ × ℕ) (v : ℕ) : ℕ × ℕ :=
  if range.1 ≤ v ∧ v ≤ range.2 then
    if (range.1 + range.2) % 2 ^ 32 / 2 < v then (range.1, v - 1) else (v + 1, range.2)
  else range

def cutAll (range : ℕ × ℕ) : ℕ × ℕ := (pendingSaves.sort (· ≤ ·)).foldl cut range

def bottom (completeLedgers : Map) (pubLedgerSeq : ℕ) : ℕ :=
  let missing := prevMissing completeLedgers pubLedgerSeq
  if missing = absent then pubLedgerSeq else missing + 1

def getValidatedRange (completeLedgers : Map) (pubLedgerSeq : ℕ) : Option (ℕ × ℕ) :=
  if pubLedgerSeq = 0 then none
  else
    let minVal := bottom completeLedgers pubLedgerSeq
    if pendingSaves ≠ ∅ ∧ (minVal ≠ 0 ∨ pubLedgerSeq ≠ 0) then
      let range := cutAll pendingSaves
        (raise pendingSaves (2 ^ 32 - minVal) minVal, lower pendingSaves pubLedgerSeq)
      some (if range.2 < range.1 then (0, 0) else range)
    else some (minVal, pubLedgerSeq)

end Functions

/-- The range is empty, or complete without a pending save. -/
def Saved (s pendingSaves : Finset ℕ) (range : ℕ × ℕ) : Prop :=
  range = (0, 0) ∨ range.1 ≤ range.2 ∧ ∀ q, range.1 ≤ q → q ≤ range.2 → q ∈ s ∧ q ∉ pendingSaves

variable {pendingSaves s : Finset ℕ} {rs : Map} {pub : ℕ}

theorem lower_le (n : ℕ) : lower pendingSaves n ≤ n := by
  fun_induction lower pendingSaves n <;> omega

theorem raise_spec {left mv : ℕ} (he : mv + left = 2 ^ 32) :
    mv ≤ raise pendingSaves left mv ∧ raise pendingSaves left mv < 2 ^ 32 ∧
        raise pendingSaves left mv ∉ pendingSaves ∨
      raise pendingSaves left mv = 0 ∧ ∀ q, mv ≤ q → q < 2 ^ 32 → q ∈ pendingSaves := by
  fun_induction raise pendingSaves left mv with
  | case1 mv => exact .inr ⟨rfl, by omega⟩
  | case2 left mv hme ih =>
    have := ih (by omega)
    grind
  | case3 left mv hme => exact .inl ⟨le_rfl, by omega, hme⟩

theorem foldl_cut_spec (l : List ℕ) (rg : ℕ × ℕ) :
    rg.1 ≤ (l.foldl cut rg).1 ∧ (l.foldl cut rg).2 ≤ rg.2 ∧
      ∀ v ∈ l, ¬ ((l.foldl cut rg).1 ≤ v ∧ v ≤ (l.foldl cut rg).2) := by
  induction l generalizing rg with
  | nil => simp
  | cons v l ih =>
    have hc : rg.1 ≤ (cut rg v).1 ∧ (cut rg v).2 ≤ rg.2 ∧
        ¬ ((cut rg v).1 ≤ v ∧ v ≤ (cut rg v).2) := by
      unfold cut
      split_ifs <;> grind
    have := ih (cut rg v)
    grind

theorem cutAll_spec (rg : ℕ × ℕ) :
    rg.1 ≤ (cutAll pendingSaves rg).1 ∧ (cutAll pendingSaves rg).2 ≤ rg.2 ∧ ∀ v ∈ pendingSaves,
        ¬ ((cutAll pendingSaves rg).1 ≤ v ∧ v ≤ (cutAll pendingSaves rg).2) := by
  simpa [cutAll] using foldl_cut_spec (pendingSaves.sort (· ≤ ·)) rg

theorem bottom_spec (h : Represents rs s) (hp : pub < 2 ^ 31) (hme : pub ∈ s) :
    bottom rs pub ≤ pub ∧ ∀ q, bottom rs pub ≤ q → q ≤ pub → q ∈ s := by
  have hlt : pub < absent := hp.trans (by decide)
  unfold bottom
  rw [prevMissing_eq h hlt]
  cases hma : ((Finset.range pub).filter (· ∉ s)).max with
  | bot => simpa using fun q hq hle => le_antisymm hle hq ▸ hme
  | coe m =>
    have hm := Finset.mem_filter.mp (mem_of_max hma)
    rw [mem_range] at hm
    rw [WithBot.unbotD_coe, if_neg (by omega)]
    refine ⟨hm.1, fun q hq hle => ?_⟩
    by_contra ho
    have hlt : q < pub := lt_of_le_of_ne hle fun heq => ho (heq ▸ hme)
    have hle := le_max_of_eq (Finset.mem_filter.mpr ⟨Finset.mem_range.mpr hlt, ho⟩) hma
    omega

theorem saved_cutAll (range : ℕ × ℕ) (hin : ∀ q, range.1 ≤ q → q ≤ range.2 → q ∈ s) :
    let cut := cutAll pendingSaves range
    Saved s pendingSaves (if cut.2 < cut.1 then (0, 0) else cut) := by
  obtain ⟨hlow, hhigh, hpending⟩ := @cutAll_spec pendingSaves range
  dsimp only
  split_ifs with hlt
  · exact .inl rfl
  · refine .inr ⟨not_lt.mp hlt, fun q hq hq' => ⟨?_, fun hmem => hpending q hmem ⟨hq, hq'⟩⟩⟩
    exact hin q (hlow.trans hq) (hq'.trans hhigh)

/-- If some sequence from the bottom of the complete stretch on is not pending, the minimum does not
wrap, and what is reported is complete and saved. -/
theorem saved_of_not_all_pending (h : Represents rs s) (hpos : 0 < pub) (hpub : pub < 2 ^ 31)
    (hmem : pub ∈ s) (hsaved : ∃ q, bottom rs pub ≤ q ∧ q < 2 ^ 32 ∧ q ∉ pendingSaves) :
    ∃ range, getValidatedRange pendingSaves rs pub = some range ∧ Saved s pendingSaves range ∧
      (pendingSaves = ∅ → range.1 ≤ range.2 ∧ 0 < range.2) := by
  obtain ⟨hle, hin⟩ := bottom_spec h hpub hmem
  unfold getValidatedRange
  rw [if_neg hpos.ne']
  by_cases hnone : pendingSaves = ∅
  · rw [if_neg (by simp [hnone])]
    exact ⟨_, rfl, .inr ⟨hle, fun q hq hq' => ⟨hin q hq hq', by simp [hnone]⟩⟩, fun _ => ⟨hle, hpos⟩⟩
  dsimp only
  rw [if_pos ⟨hnone, .inr hpos.ne'⟩]
  refine ⟨_, rfl, saved_cutAll _ fun q hq hq' => hin q ?_ (hq'.trans (lower_le pub)),
    fun hempty => absurd hempty hnone⟩
  obtain ⟨hraised, -⟩ | ⟨-, hall⟩ := @raise_spec pendingSaves _ _
    (Nat.add_sub_of_le (show bottom rs pub ≤ 2 ^ 32 by omega))
  · exact hraised.trans hq
  · obtain ⟨q', hq', hlt, hnot⟩ := hsaved
    exact absurd (hall q' hq' hlt) hnot

theorem represents_single {a b : ℕ} (hle : a ≤ b) (hb : b < absent) :
    Represents [(a, b)] (Finset.Icc a b) :=
  ⟨⟨by simp [hle, hb], by simp⟩, fun w => by simp [hasValue, contains]⟩

/-- The second of three ledgers is still being saved. -/
theorem second_pending : ∃ range, getValidatedRange {2} [(1, 3)] 3 = some range ∧
    Saved (Finset.Icc 1 3) {2} range ∧ (({2} : Finset ℕ) = ∅ → range.1 ≤ range.2 ∧ 0 < range.2) :=
  saved_of_not_all_pending (represents_single (by decide) (by decide)) (by decide) (by decide)
    (by decide) ⟨3, by decide, by decide, by decide⟩

theorem foldl_cut_of_lt {l : List ℕ} {range : ℕ × ℕ} (h : ∀ v ∈ l, range.2 < v) :
    l.foldl cut range = range := by
  induction l with
  | nil => rfl
  | cons v l ih =>
    rw [List.forall_mem_cons] at h
    rw [List.foldl_cons, cut, if_neg (by omega), ih h.2]

/-- Only the second ledger is complete, and it and all later ones are pending. -/
theorem all_pending : getValidatedRange (Finset.Icc 2 (2 ^ 32 - 1)) [(2, 2)] 2 = some (0, 1) ∧
    hasValue [(2, 2)] 1 = false := by
  have hr : raise (Finset.Icc 2 (2 ^ 32 - 1)) (2 ^ 32 - 2) 2 = 0 := by
    have := @raise_spec (Finset.Icc 2 (2 ^ 32 - 1)) (2 ^ 32 - 2) 2 (by decide)
    rw [mem_Icc] at this
    omega
  have hl : lower (Finset.Icc 2 (2 ^ 32 - 1)) 2 = 1 := by simp [lower]
  have hc : cutAll (Finset.Icc 2 (2 ^ 32 - 1)) (0, 1) = (0, 1) :=
    foldl_cut_of_lt fun v hv => by
      rw [mem_sort, mem_Icc] at hv
      exact hv.1
  have hbo : bottom [(2, 2)] 2 = 2 := by decide
  refine ⟨?_, by decide⟩
  have hne : Finset.Icc 2 (2 ^ 32 - 1) ≠ ∅ := ne_empty_of_mem (a := 2) (by simp)
  rw [getValidatedRange, if_neg (by decide), hbo]
  dsimp only
  rw [if_pos ⟨hne, .inl (by decide)⟩, hr, hl, hc]
  rfl

end Sand.ValidatedRange
