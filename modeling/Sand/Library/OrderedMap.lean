import Mathlib.Data.List.Nodup
import Mathlib.Order.Lattice

/-!
# Ordered maps

A map kept as the list of its entries in the order of their keys.
-/

structure OrderedMap (κ α : Type) [LinearOrder κ] where
  entries : List (κ × α)
  sorted : entries.Pairwise fun a b => a.1 < b.1

namespace OrderedMap

open List Prod

variable {κ α : Type} [LinearOrder κ]

def empty : OrderedMap κ α :=
  ⟨[], .nil⟩

def find (m : OrderedMap κ α) (k : κ) : Option α :=
  (m.entries.find? fun entry => entry.1 = k).map snd

def insert (m : OrderedMap κ α) (k : κ) (a : α) : OrderedMap κ α where
  entries := (m.entries.filter fun entry => entry.1 < k) ++
    (k, a) :: m.entries.filter fun entry => k < entry.1
  sorted := by
    refine pairwise_append.mpr ⟨m.sorted.filter _, ?_, ?_⟩
    · refine pairwise_cons.mpr ⟨fun entry he => ?_, m.sorted.filter _⟩
      simpa using (mem_filter.mp he).2
    intro entry he entry' he'
    have hlt : entry.1 < k := by simpa using (mem_filter.mp he).2
    rcases mem_cons.mp he' with rfl | he'
    · exact hlt
    · have hgt : k < entry'.1 := by simpa using (mem_filter.mp he').2
      exact hlt.trans hgt

def erase (m : OrderedMap κ α) (k : κ) : OrderedMap κ α where
  entries := m.entries.filter fun entry => entry.1 ≠ k
  sorted := m.sorted.filter _

def insertNew (m : OrderedMap κ α) (k : κ) (a : α) : OrderedMap κ α :=
  if (m.find k).isSome then m else m.insert k a

variable (l : List (κ × α))

def ofList : OrderedMap κ α :=
  l.foldl (fun m entry => m.insertNew entry.1 entry.2) empty

def upperBound (m : OrderedMap κ α) (k : κ) : List (κ × α) :=
  m.entries.filter fun entry => k < entry.1

variable {k k' : κ} {a : α} {m : OrderedMap κ α}

/-! ## Look-up -/

theorem nodup_keys (m : OrderedMap κ α) : (m.entries.map fst).Nodup :=
  pairwise_map.mpr (m.sorted.imp fun hlt => ne_of_lt hlt)

theorem find?_key_eq_some_iff {l : List (κ × α)} (hkeys : (l.map fst).Nodup) :
    (l.find? fun entry => entry.1 = k).map snd = some a ↔ (k, a) ∈ l := by
  constructor
  · intro h
    obtain ⟨⟨k', a'⟩, hfind, rfl⟩ := Option.map_eq_some_iff.mp h
    have hkey : k' = k := by simpa using List.find?_some hfind
    rw [← hkey]
    exact mem_of_find?_eq_some hfind
  · intro hmem
    cases hfind : l.find? fun entry => entry.1 = k with
    | none =>
      have hnot := List.find?_eq_none.mp hfind (k, a) hmem
      simp at hnot
    | some entry =>
      have hkey : entry.1 = k := by simpa using List.find?_some hfind
      rw [inj_on_of_nodup_map hkeys (mem_of_find?_eq_some hfind) hmem hkey]
      rfl

theorem find_eq_some_iff : m.find k = some a ↔ (k, a) ∈ m.entries :=
  find?_key_eq_some_iff m.nodup_keys

theorem find_eq_none_iff : m.find k = none ↔ ∀ a, (k, a) ∉ m.entries := by
  rw [Option.eq_none_iff_forall_ne_some]
  exact forall_congr' fun a => not_congr find_eq_some_iff

@[simp]
theorem find_empty (k : κ) : (empty : OrderedMap κ α).find k = none := rfl

theorem mem_insert_iff {a' : α} : (k', a') ∈ (m.insert k a).entries ↔
      (k' = k ∧ a' = a) ∨ (k' ≠ k ∧ (k', a') ∈ m.entries) := by
  simp only [insert, mem_append, mem_cons, mem_filter, decide_eq_true_eq, Prod.mk.injEq]
  rcases lt_trichotomy k' k with hlt | rfl | hgt
  · simp [hlt, hlt.not_gt, hlt.ne]
  · simp
  · simp [hgt, hgt.not_gt, hgt.ne']

variable (m)

@[simp]
theorem find_insert (k : κ) (a : α) : (m.insert k a).find k = some a :=
  find_eq_some_iff.mpr (mem_insert_iff.mpr (.inl ⟨rfl, rfl⟩))

theorem find_insert_ne (a : α) (h : k' ≠ k) :
    (m.insert k a).find k' = m.find k' := by
  ext a'
  rw [find_eq_some_iff, find_eq_some_iff, mem_insert_iff]
  simp [h]

@[simp]
theorem find_erase (k : κ) : (m.erase k).find k = none := by
  refine find_eq_none_iff.mpr fun a hm => ?_
  have hne := (mem_filter.mp hm).2
  simp at hne

theorem find_erase_ne (h : k' ≠ k) : (m.erase k).find k' = m.find k' := by
  ext a'
  rw [find_eq_some_iff, find_eq_some_iff, erase, mem_filter]
  simp [h]

theorem find_insertNew (k k' : κ) (a : α) :
    (m.insertNew k a).find k' = (m.find k').or (if k = k' then some a else none) := by
  unfold insertNew
  obtain rfl | hk := eq_or_ne k k'
  · cases h : m.find k with
    | none => simp
    | some b => simp [h]
  · have hne : k' ≠ k := fun h => hk h.symm
    cases h : m.find k with
    | none => simp [hk, find_insert_ne m a hne]
    | some b => simp [hk]

theorem find_foldl_insertNew (k : κ) :
    (l.foldl (fun m entry => m.insertNew entry.1 entry.2) m).find k =
      (m.find k).or ((l.find? fun entry => entry.1 = k).map snd) := by
  induction l generalizing m with
  | nil => simp
  | cons entry l ih =>
    rw [foldl_cons, ih, find_insertNew, List.find?_cons, Option.or_assoc]
    by_cases hk : entry.1 = k
    · simp [hk]
    · simp [hk]

variable {m}

theorem find_ofList (k : κ) : (ofList l).find k = (l.find? fun entry => entry.1 = k).map snd := by
  rw [ofList, find_foldl_insertNew]
  simp

theorem entries_eq_of_find {m' : OrderedMap κ α} (h : ∀ k, m.find k = m'.find k) :
    m.entries = m'.entries := by
  have hnd (m : OrderedMap κ α) : m.entries.Nodup :=
    m.sorted.imp fun hlt heq => hlt.ne (congrArg fst heq)
  have hpe : m.entries.Perm m'.entries := by
    refine (perm_ext_iff_of_nodup (hnd m) (hnd m')).mpr fun ⟨k, a⟩ => ?_
    rw [← find_eq_some_iff, ← find_eq_some_iff, h]
  refine hpe.eq_of_pairwise (fun a b _ _ hab hba => ?_) m.sorted m'.sorted
  exact absurd hba hab.asymm

theorem entries_ofList_map {β : Type} (g : α → β) (l : List (κ × α)) :
    (ofList (l.map fun entry => (entry.1, g entry.2))).entries =
      (ofList l).entries.map fun entry => (entry.1, g entry.2) := by
  have hs : ((ofList l).entries.map fun entry => (entry.1, g entry.2)).Pairwise
      fun a b => a.1 < b.1 :=
    pairwise_map.mpr (ofList l).sorted
  have hf : ∀ k, (ofList (l.map fun entry => (entry.1, g entry.2))).find k =
      (⟨_, hs⟩ : OrderedMap κ β).find k := by
    intro k
    have hl := find_ofList l k
    rw [find_ofList, find, List.find?_map, List.find?_map, Option.map_map, Option.map_map]
    change Option.map (g ∘ snd) _ = Option.map (g ∘ snd) _
    rw [← Option.map_map, ← Option.map_map]
    exact congrArg (Option.map g) hl.symm
  exact entries_eq_of_find hf

theorem perm_ofList {l : List (κ × α)} (h : (l.map fst).Nodup) : (ofList l).entries.Perm l := by
  have hnd : (ofList l).entries.Nodup :=
    (ofList l).sorted.imp fun hlt heq => hlt.ne (congrArg fst heq)
  refine (perm_ext_iff_of_nodup hnd (List.Nodup.of_map _ h)).mpr fun ⟨k, a⟩ => ?_
  rw [← find_eq_some_iff, find_ofList]
  exact find?_key_eq_some_iff h

section Walk

variable {σ ε S F : Type} (step : σ → κ × α → Except ε σ) (slot : σ → κ → S) (frame : σ → F)
  (Pre Post : κ → α → S → Prop)

theorem foldlM_entries
    (hst : ∀ s k a, Pre k a (slot s k) → ∃ s', step s (k, a) = .ok s' ∧ Post k a (slot s' k) ∧
      (∀ k', k' ≠ k → slot s' k' = slot s k') ∧ frame s' = frame s)
    (es : List (κ × α)) (hs : es.Pairwise fun a b => a.1 < b.1) (s : σ)
    (hp : ∀ k a, (k, a) ∈ es → Pre k a (slot s k)) :
    ∃ s', es.foldlM step s = .ok s' ∧ (∀ k a, (k, a) ∈ es → Post k a (slot s' k)) ∧
      (∀ k, (∀ a, (k, a) ∉ es) → slot s' k = slot s k) ∧ frame s' = frame s := by
  induction es generalizing s with
  | nil => exact ⟨s, rfl, nofun, fun k _ => rfl, rfl⟩
  | cons entry es ih =>
    obtain ⟨k, a⟩ := entry
    obtain ⟨hlt, hs⟩ := pairwise_cons.mp hs
    obtain ⟨s1, hr, hse, ho, hfr⟩ := hst s k a (hp k a mem_cons_self)
    have hne : ∀ k' a', (k', a') ∈ es → k' ≠ k := fun k' a' hm => (hlt (k', a') hm).ne'
    obtain ⟨s2, hrs, hm, hn, hfr'⟩ := ih hs s1 fun k' a' hm => by
      rw [ho k' (hne k' a' hm)]
      exact hp k' a' (mem_cons_of_mem _ hm)
    refine ⟨s2, ?_, ?_, ?_, hfr'.trans hfr⟩
    · rw [foldlM_cons, hr]
      exact hrs
    · intro k' a' he
      rcases mem_cons.mp he with heq | he
      · obtain ⟨rfl, rfl⟩ := Prod.mk.inj heq
        rw [hn k' fun a' hm => hne k' a' hm rfl]
        exact hse
      · exact hm k' a' he
    · intro k' has
      have hk : k' ≠ k := fun heq => has a (heq ▸ mem_cons_self)
      rw [hn k' fun a' hm => has a' (mem_cons_of_mem _ hm), ho k' hk]

theorem foldlM_map (m : OrderedMap κ α)
    (hst : ∀ s k a, Pre k a (slot s k) → ∃ s', step s (k, a) = .ok s' ∧ Post k a (slot s' k) ∧
      (∀ k', k' ≠ k → slot s' k' = slot s k') ∧ frame s' = frame s)
    (s : σ) (hp : ∀ k a, m.find k = some a → Pre k a (slot s k)) :
    ∃ s', m.entries.foldlM step s = .ok s' ∧ (∀ k a, m.find k = some a → Post k a (slot s' k)) ∧
      (∀ k, m.find k = none → slot s' k = slot s k) ∧ frame s' = frame s := by
  obtain ⟨s', hr, hm, hn, hfr⟩ := foldlM_entries step slot frame Pre Post hst
    m.entries m.sorted s fun k a h => hp k a (find_eq_some_iff.mpr h)
  refine ⟨s', hr, fun k a h => ?_, fun k h => ?_, hfr⟩
  · exact hm k a (find_eq_some_iff.mp h)
  · exact hn k (find_eq_none_iff.mp h)

end Walk

end OrderedMap
