import Mathlib.Data.Finset.Sort
import Sand.Library.OrderedMap

/-!
# Traversal by successors

An ordered set of keys can be walked with nothing but the question which key comes next.
-/

namespace Successor

open List

variable {κ : Type} [LinearOrder κ]

/-- The least key above `key` and, if given, below `last`. -/
def IsSucc (S : Set κ) (key : κ) (last : Option κ) : Option κ → Prop
  | some next => next ∈ S ∧ key < next ∧ (∀ l ∈ last, next < l) ∧ ∀ k ∈ S, key < k → next ≤ k
  | none => ∀ k ∈ S, key < k → ∃ l ∈ last, l ≤ k

/-- Asks on until the key is not to be passed over. -/
def skip (succ : κ → Option κ) (passed : κ → Bool) : Nat → κ → Option (Option κ)
  | 0, _ => none
  | fuel + 1, key =>
    match succ key with
    | none => some none
    | some next => if passed next then skip succ passed fuel next else some (some next)

variable {S : Set κ} {succ : κ → Option κ}

/-- The search ends with the next key not passed over. -/
theorem skip_isSucc {last : Option κ} {passed : κ → Bool}
    (hs : ∀ key, IsSucc S key last (succ key)) {keys : List κ}
    (hks : ∀ k, passed k → k ∈ keys) (fuel : Nat) (key : κ)
    (hfu : (keys.filter fun k => key < k).length < fuel) :
    ∃ next, skip succ passed fuel key = some next ∧
      IsSucc { k | k ∈ S ∧ passed k = false } key last next := by
  induction fuel generalizing key with
  | zero => exact absurd hfu (Nat.not_lt_zero _)
  | succ fuel ih =>
    rw [skip]
    have hn := hs key
    cases hky : succ key with
    | none =>
      rw [hky] at hn
      exact ⟨none, rfl, fun k hk => hn k hk.1⟩
    | some next =>
      rw [hky] at hn
      obtain ⟨hm, hlt, hls, hla⟩ := hn
      dsimp only
      by_cases hpassed : passed next
      · -- fewer keys are left to be passed over
        have hfe : (keys.filter fun k => next < k).length <
            (keys.filter fun k => key < k).length := by
          have hsu : (keys.filter fun k => next < k).length ≤
              ((keys.filter fun k => key < k).filter fun k => next < k).length := by
            rw [filter_filter]
            refine List.Sublist.length_le (monotone_filter_right keys fun k hk => ?_)
            have hgt : next < k := by simpa using hk
            simp [hgt, hlt.trans hgt]
          refine lt_of_le_of_lt hsu (length_filter_lt_length_iff_exists.mpr ?_)
          refine ⟨next, mem_filter.mpr ⟨hks next hpassed, ?_⟩, ?_⟩
          · simpa using hlt
          · simp
        obtain ⟨next', hsk, hs'⟩ := ih next (by omega)
        rw [if_pos hpassed]
        refine ⟨next', hsk, ?_⟩
        have hab : ∀ k, k ∈ S ∧ passed k = false → key < k → next < k := by
          rintro k ⟨hk, hnt⟩ hgt
          refine lt_of_le_of_ne (hla k hk hgt) ?_
          rintro rfl
          rw [hpassed] at hnt
          cases hnt
        cases next' with
        | none => exact fun k hk hgt => hs' k hk (hab k hk hgt)
        | some next' =>
          obtain ⟨hm', hlt', hls', hla'⟩ := hs'
          exact ⟨hm', hlt.trans hlt', hls', fun k hk hgt => hla' k hk (hab k hk hgt)⟩
      · rw [if_neg hpassed]
        refine ⟨some next, rfl, ⟨hm, by simpa using hpassed⟩, hlt, hls, ?_⟩
        exact fun k hk => hla k hk.1

/-! ## Walking two sets -/

def lower : Option κ → Option κ → Option κ
  | none, b => b
  | some a, none => some a
  | some a, some b => if b < a then some b else some a

/-- Drops a key that is not below `last`. -/
def bounded : Option κ → Option κ → Option κ
  | some last, some next => if last ≤ next then none else some next
  | _, next => next

/-- The lower of two next keys, the first bounded by `last`. -/
theorem isSucc_bounded_lower {A B : Set κ} {key : κ} {last a b : Option κ}
    (ha : IsSucc A key last a) (hb : IsSucc B key none b) :
    IsSucc (A ∪ B) key last (bounded last (lower a b)) := by
  have hke : ∀ {next}, next ∈ A ∪ B → key < next → (∀ k ∈ A ∪ B, key < k → next ≤ k) →
      IsSucc (A ∪ B) key last (bounded last (some next)) := by
    intro next hm hlt hla
    cases last with
    | none => exact ⟨hm, hlt, nofun, hla⟩
    | some l =>
      rw [bounded]
      by_cases hle : l ≤ next
      · rw [if_pos hle]
        exact fun k hk hgt => ⟨l, rfl, hle.trans (hla k hk hgt)⟩
      rw [if_neg hle]
      refine ⟨hm, hlt, ?_, hla⟩
      rintro _ ⟨⟩
      exact not_le.mp hle
  cases a with
  | none =>
    cases b with
    | none =>
      have hno : bounded last (lower none none) = none := by
        cases last <;> rfl
      rw [hno]
      rintro k (hk | hk) hgt
      · exact ha k hk hgt
      · obtain ⟨l, hl, _⟩ := hb k hk hgt
        cases hl
    | some b =>
      obtain ⟨hbm, hbt, _, hbl⟩ := hb
      by_cases hls : ∃ l ∈ last, l ≤ b
      · -- both have nothing below `last`
        obtain ⟨l, hl, hle⟩ := hls
        have hno : bounded last (lower none (some b)) = none := by
          cases hl
          simp [bounded, lower, hle]
        rw [hno]
        rintro k (hk | hk) hgt
        · exact ha k hk hgt
        · exact ⟨l, hl, hle.trans (hbl k hk hgt)⟩
      · refine hke (.inr hbm) hbt ?_
        rintro k (hk | hk) hgt
        · obtain ⟨l, hl, hle⟩ := ha k hk hgt
          by_contra hlt
          exact hls ⟨l, hl, hle.trans (not_le.mp hlt).le⟩
        · exact hbl k hk hgt
  | some a =>
    obtain ⟨ham, halt, _, hal⟩ := ha
    cases b with
    | none =>
      refine hke (.inl ham) halt ?_
      rintro k (hk | hk) hgt
      · exact hal k hk hgt
      · obtain ⟨l, hl, _⟩ := hb k hk hgt
        cases hl
    | some b =>
      obtain ⟨hbm, hbt, _, hbl⟩ := hb
      rw [lower]
      by_cases hlt : b < a
      · rw [if_pos hlt]
        refine hke (.inr hbm) hbt ?_
        rintro k (hk | hk) hgt
        · exact hlt.le.trans (hal k hk hgt)
        · exact hbl k hk hgt
      · rw [if_neg hlt]
        refine hke (.inl ham) halt ?_
        rintro k (hk | hk) hgt
        · exact hal k hk hgt
        · exact (not_lt.mp hlt).trans (hbl k hk hgt)

theorem isSucc_find_upperBound {α : Type} (m : OrderedMap κ α) (p : α → Bool) (key : κ) :
    IsSucc { k | ∃ a, m.find k = some a ∧ p a } key none
      (((m.upperBound key).find? fun entry => p entry.2).map Prod.fst) := by
  have hm : ∀ {k a}, (k, a) ∈ m.upperBound key ↔ m.find k = some a ∧ key < k := by
    intro k a
    rw [OrderedMap.upperBound, mem_filter, OrderedMap.find_eq_some_iff, decide_eq_true_eq]
  cases hf : (m.upperBound key).find? fun entry => p entry.2 with
  | none =>
    rintro k ⟨a, ha, hp⟩ hgt
    have hnt := List.find?_eq_none.mp hf (k, a) (hm.mpr ⟨ha, hgt⟩)
    exact absurd hp hnt
  | some entry =>
    obtain ⟨next, a⟩ := entry
    obtain ⟨hp, before, after, hap, hbe⟩ := List.find?_eq_some_iff_append.mp hf
    obtain ⟨ha, hlt⟩ := hm.mp (mem_of_find?_eq_some hf)
    refine ⟨⟨a, ha, hp⟩, hlt, nofun, ?_⟩
    rintro k ⟨b, hb, hpb⟩ hgt
    have hk : (k, b) ∈ before ++ (next, a) :: after := hap ▸ hm.mpr ⟨hb, hgt⟩
    have hso : (before ++ (next, a) :: after).Pairwise fun x y => x.1 < y.1 := by
      rw [← hap]
      exact m.sorted.filter _
    rcases mem_append.mp hk with hk | hk
    · have hnt := hbe (k, b) hk
      simp only [hpb] at hnt
      cases hnt
    · rcases mem_cons.mp hk with heq | hk
      · exact (congrArg Prod.fst heq).ge
      · have haf := (pairwise_append.mp hso).2.1
        exact ((pairwise_cons.mp haf).1 _ hk).le

/-- The keys found by asking, `n` times at most. -/
def enumerate (succ : κ → Option κ) : Nat → κ → List κ
  | 0, _ => []
  | n + 1, key =>
    match succ key with
    | none => []
    | some next => next :: enumerate succ n next

/-- Asking lists the keys in order, each once, and ends. -/
theorem enumerate_eq (hs : ∀ key, IsSucc S key none (succ key))
    (n : Nat) (key : κ) (keys : Finset κ) (hks : ∀ k, k ∈ keys ↔ k ∈ S ∧ key < k) :
    enumerate succ n key = (keys.sort (· ≤ ·)).take n := by
  induction n generalizing key keys with
  | zero => rw [enumerate, take_zero]
  | succ n ih =>
    rw [enumerate]
    have hn := hs key
    cases hky : succ key with
    | none =>
      rw [hky] at hn
      have he : keys = ∅ := by
        refine Finset.eq_empty_of_forall_notMem fun k hk => ?_
        obtain ⟨hm, hlt⟩ := (hks k).mp hk
        obtain ⟨l, hl, _⟩ := hn k hm hlt
        cases hl
      rw [he, Finset.sort_empty, take_nil]
    | some next =>
      rw [hky] at hn
      obtain ⟨hm, hlt, _, hla⟩ := hn
      have hrs : ∀ k, k ∈ keys.erase next ↔ k ∈ S ∧ next < k := by
        intro k
        rw [Finset.mem_erase, hks]
        constructor
        · rintro ⟨hne, hk, hgt⟩
          exact ⟨hk, lt_of_le_of_ne (hla k hk hgt) hne.symm⟩
        · rintro ⟨hk, hgt⟩
          exact ⟨hgt.ne', hk, hlt.trans hgt⟩
      have hi : keys = insert next (keys.erase next) :=
        (Finset.insert_erase ((hks next).mpr ⟨hm, hlt⟩)).symm
      rw [hi, Finset.sort_insert _ ?_ (Finset.notMem_erase next keys), take_succ_cons]
      · exact congrArg (next :: ·) (ih next _ hrs)
      · exact fun k hk => ((hrs k).mp hk).2.le

end Successor
