import Sand.Ledger.PageRemoval

/-!
# Directories stay in order

The numbers go up, no page is too long, no entry is there twice, and only the first and the last
page can be empty.
-/

namespace Sand

open PagedList List DirPages Prod List.Sublist

namespace DirPages

def Holds (ps : DirPages) (entry : Key) (page : UInt64) : Prop :=
  ∃ es, (page, es) ∈ ps ∧ entry ∈ es

structure Ordered (ps : DirPages) : Prop where
  sorted : ps.Sorted
  small : ∀ page es, (page, es) ∈ ps → es.length ≤ dirNodeMax
  nodup : (entries ps).Nodup
  inner : ∀ page, (page, []) ∈ ps → page = first 0 ps ∨ page = last 0 ps

variable {ps xs ys : DirPages} {entry : Key} {page p : UInt64} {es es' : List Key}

theorem holds_iff_mem_entries : (∃ page, ps.Holds entry page) ↔ entry ∈ entries ps := by
  rw [mem_entries]
  rfl

theorem ordered_nil : Ordered [] := ⟨List.Pairwise.nil, nofun, nodup_nil, nofun⟩

theorem Ordered.numbers_nodup (h : ps.Ordered) : (ps.map fst).Nodup := by
  refine h.sorted.imp fun hlt heq => ?_
  rw [heq] at hlt
  exact UInt64.lt_irrefl _ hlt

theorem Ordered.eq_of_mem (h : ps.Ordered) (hes : (page, es) ∈ ps) (hes' : (page, es') ∈ ps) :
    es = es' :=
  congrArg snd (inj_on_of_nodup_map h.numbers_nodup hes hes' rfl)

/-! ### Adding -/

theorem sorted_append_succ (h : Sorted (xs ++ [(p, es)])) (hf : p + 1 ≠ 0) (es' : List Key) :
    Sorted (xs ++ [(p, es)] ++ [(p + 1, es')]) := by
  have hlt := lt_succ_of_ne hf
  unfold Sorted at h ⊢
  rw [map_append, pairwise_append]
  refine ⟨h, by simp, fun a ha b hb => ?_⟩
  rw [map_singleton, mem_singleton] at hb
  subst hb
  rw [map_append, pairwise_append] at h
  rw [map_append, mem_append, map_singleton, mem_singleton] at ha
  rcases ha with ha | rfl
  · exact UInt64.lt_trans (h.2.2 a ha p (by simp)) hlt
  · exact hlt

theorem Ordered.appended (h : Ordered (xs ++ [(p, es)])) (hr : es.length ≠ dirNodeMax)
    (he : entry ∉ entries (xs ++ [(p, es)])) : Ordered (xs ++ [(p, es ++ [entry])]) := by
  have hl : ∀ es, last 0 (xs ++ [(p, es)]) = p := by simp [last]
  refine ⟨?_, ?_, ?_, ?_⟩
  · simpa [Sorted] using h.sorted
  · intro page es1 hm
    rcases mem_append.mp hm with hxs | hl
    · exact h.small page es1 (mem_append_left _ hxs)
    obtain ⟨rfl, rfl⟩ := mk.inj (mem_singleton.mp hl)
    have := h.small page es (by simp)
    rw [length_append, length_singleton]
    omega
  · have hpe : (entries (xs ++ [(p, es ++ [entry])])).Perm
        (entry :: entries (xs ++ [(p, es)])) := by
      simp only [entries_append, entries_cons, entries_nil, append_nil]
      rw [← append_assoc]
      exact perm_append_singleton entry _
    rw [hpe.nodup_iff]
    exact nodup_cons.mpr ⟨he, h.nodup⟩
  · intro page hm
    rcases mem_append.mp hm with hxs | hl'
    · have hold := h.inner page (mem_append_left _ hxs)
      rw [hl, first_append] at hold ⊢
      exact hold
    · have := congrArg snd (mem_singleton.mp hl')
      simp at this

theorem Ordered.extended (h : Ordered (xs ++ [(p, es)])) (hr : es.length = dirNodeMax)
    (hf : p + 1 ≠ 0) (he : entry ∉ entries (xs ++ [(p, es)])) :
    Ordered (xs ++ [(p, es)] ++ [(p + 1, [entry])]) := by
  refine ⟨sorted_append_succ h.sorted hf _, ?_, ?_, ?_⟩
  · intro page es1 hm
    rcases mem_append.mp hm with hold | hnw
    · exact h.small page es1 hold
    · obtain ⟨rfl, rfl⟩ := mk.inj (mem_singleton.mp hnw)
      exact Nat.le_of_ble_eq_true rfl
  · rw [entries_append, entries_cons, entries_nil, append_nil]
    have hpe := perm_append_singleton entry (entries (xs ++ [(p, es)]))
    rw [hpe.nodup_iff]
    exact nodup_cons.mpr ⟨he, h.nodup⟩
  · intro page hm
    rcases mem_append.mp hm with hold | hnw
    · rcases h.inner page hold with hfs | hl
      · cases xs <;> exact .inl hfs
      have hl : page = p := by simpa [last] using hl
      subst hl
      have hes := h.eq_of_mem hold (mem_append_right _ (mem_singleton_self _))
      rw [← hes] at hr
      cases hr
    · have := congrArg snd (mem_singleton.mp hnw)
      simp at this

theorem Ordered.add (h : ps.Ordered) (he : entry ∉ entries ps) {ps' : DirPages}
    (had : ps.add entry = some (page, ps')) :
    ps'.Ordered ∧ ∀ k q, ps'.Holds k q ↔ ps.Holds k q ∨ (k = entry ∧ q = page) := by
  rcases eq_nil_or_concat' ps with rfl | ⟨xs, ⟨p, es⟩, rfl⟩
  · cases had
    refine ⟨⟨by simp [Sorted], ?_, by simp, by simp⟩, ?_⟩
    · intro page es1 hm
      obtain ⟨rfl, rfl⟩ := mk.inj (mem_singleton.mp hm)
      exact Nat.le_of_ble_eq_true rfl
    · intro k q
      simp [Holds, and_comm]
  · simp only [add, List.getLast?_concat, dropLast_concat] at had
    by_cases hr : es.length = dirNodeMax
    · rw [if_neg (not_not_intro hr)] at had
      by_cases hf : p + 1 = 0
      · rw [if_pos hf] at had
        cases had
      rw [if_neg hf] at had
      cases had
      refine ⟨h.extended hr hf he, fun k q => ?_⟩
      simp only [Holds, mem_append, mem_singleton, mk.injEq]
      constructor
      · rintro ⟨es1, hm | ⟨rfl, rfl⟩, hk⟩
        · exact .inl ⟨es1, hm, hk⟩
        · exact .inr ⟨mem_singleton.mp hk, rfl⟩
      · rintro (⟨es1, hm, hk⟩ | ⟨rfl, rfl⟩)
        · exact ⟨es1, .inl hm, hk⟩
        · exact ⟨[k], .inr ⟨rfl, rfl⟩, mem_singleton_self k⟩
    · rw [if_pos hr] at had
      cases had
      refine ⟨h.appended hr he, fun k q => ?_⟩
      simp only [Holds, mem_append, mem_singleton, mk.injEq]
      constructor
      · rintro ⟨es1, hm | ⟨rfl, rfl⟩, hk⟩
        · exact .inl ⟨es1, .inl hm, hk⟩
        · rcases mem_append.mp hk with hk | hk
          · exact .inl ⟨es, .inr ⟨rfl, rfl⟩, hk⟩
          · exact .inr ⟨mem_singleton.mp hk, rfl⟩
      · rintro (⟨es1, hm | ⟨rfl, rfl⟩, hk⟩ | ⟨rfl, rfl⟩)
        · exact ⟨es1, .inl hm, hk⟩
        · exact ⟨es1 ++ [entry], .inr ⟨rfl, rfl⟩, mem_append_left _ hk⟩
        · exact ⟨es ++ [k], .inr ⟨rfl, rfl⟩, mem_append_right _ (mem_singleton_self k)⟩

/-! ### Removing -/

variable (keepRoot : Bool)

theorem prune_cases (xs : DirPages) (p : UInt64) (ys : DirPages) :
    (prune keepRoot xs p ys = [] ∧ entries (xs ++ ys) = []) ∨
      (prune keepRoot xs p ys = xs ++ (p, []) :: ys ∧ (xs = [] ∨ ys = [])) ∨
      (prune keepRoot xs p ys = xs ++ ys ∧ xs ≠ [] ∧ ys ≠ []) := by
  match xs, ys with
  | [], [] => exact .inl ⟨rfl, rfl⟩
  | [], [(q, es)] =>
    rw [prune]
    split
    · next hgo => exact .inl ⟨rfl, by simp_all⟩
    · exact .inr (.inl ⟨rfl, .inl rfl⟩)
  | [], y :: y' :: ys => exact .inr (.inl ⟨rfl, .inl rfl⟩)
  | [(q, es)], [] =>
    rw [prune]
    split
    · next hgo => exact .inl ⟨rfl, by simp_all⟩
    · exact .inr (.inl ⟨rfl, .inr rfl⟩)
  | x :: x' :: xs, [] => exact .inr (.inl ⟨rfl, .inr rfl⟩)
  | [x], y :: ys => exact .inr (.inr ⟨rfl, cons_ne_nil _ _, cons_ne_nil _ _⟩)
  | x :: x' :: xs, y :: ys => exact .inr (.inr ⟨rfl, cons_ne_nil _ _, cons_ne_nil _ _⟩)

theorem sublist_prune (xs : DirPages) (p : UInt64) (ys : DirPages) :
    List.Sublist (prune keepRoot xs p ys) (xs ++ (p, []) :: ys) := by
  rcases prune_cases keepRoot xs p ys with ⟨h, -⟩ | ⟨h, -⟩ | ⟨h, -⟩ <;> rw [h]
  · exact nil_sublist _
  · exact (refl xs).append (sublist_cons_self _ ys)

theorem mem_prune_iff {kr : Bool} {k : Key} (hk : k ∈ es) :
    (page, es) ∈ prune kr xs p ys ↔ (page, es) ∈ xs ++ (p, []) :: ys := by
  constructor
  · exact fun hm => (sublist_prune kr xs p ys).subset hm
  · intro hm
    have hm' : (page, es) ∈ xs ++ ys := by
      rcases mem_append.mp hm with hm | hm
      · exact mem_append_left _ hm
      rcases mem_cons.mp hm with heq | hm
      · rw [(mk.inj heq).2] at hk
        cases hk
      · exact mem_append_right _ hm
    rcases prune_cases kr xs p ys with ⟨-, hni⟩ | ⟨h, -⟩ | ⟨h, -⟩
    · have : k ∈ entries (xs ++ ys) := mem_entries.mpr ⟨page, es, hm', hk⟩
      rw [hni] at this
      cases this
    · rwa [h]
    · rwa [h]

theorem Ordered.shrunk (h : Ordered (xs ++ (p, es) :: ys)) (hpe : es'.Perm (es.erase entry))
    (hne : es' ≠ []) : Ordered (xs ++ (p, es') :: ys) := by
  have hsu : ∀ k ∈ es', k ∈ es := fun k hk => mem_of_mem_erase (hpe.mem_iff.mp hk)
  refine ⟨by simpa [Sorted] using h.sorted, ?_, ?_, ?_⟩
  · intro page es1 hm
    rcases mem_append.mp hm with hm | hm
    · exact h.small page es1 (mem_append_left _ hm)
    rcases mem_cons.mp hm with heq | hm
    · rw [(mk.inj heq).2, hpe.length_eq]
      exact (length_erase_le).trans (h.small p es (by simp))
    · exact h.small page es1 (mem_append_right _ (mem_cons_of_mem _ hm))
  · have hnd := h.nodup
    simp only [entries_append, entries_cons] at hnd ⊢
    have hsb : List.Sublist (entries xs ++ (es.erase entry ++ entries ys))
        (entries xs ++ (es ++ entries ys)) :=
      (refl _).append ((erase_sublist).append (refl _))
    have hpe' : (entries xs ++ (es' ++ entries ys)).Perm
        (entries xs ++ (es.erase entry ++ entries ys)) :=
      List.Perm.append_left _ (hpe.append_right _)
    exact hpe'.nodup_iff.mpr (hnd.sublist hsb)
  · intro page hm
    rw [last_setEntries 0 p es' es, first_setEntries 0 p es' es]
    rcases mem_append.mp hm with hm | hm
    · exact h.inner page (mem_append_left _ hm)
    · rcases mem_cons.mp hm with heq | hm
      · exact absurd (mk.inj heq).2.symm hne
      · exact h.inner page (mem_append_right _ (mem_cons_of_mem _ hm))

theorem inner_prune (h : Ordered (xs ++ (p, es) :: ys)) :
    ∀ page, (page, []) ∈ prune keepRoot xs p ys → page = first 0 (prune keepRoot xs p ys) ∨
        page = last 0 (prune keepRoot xs p ys) := by
  intro page hm
  have hold : (page, []) ∈ xs ++ ys → page = first 0 (xs ++ (p, es) :: ys) ∨
      page = last 0 (xs ++ (p, es) :: ys) := by
    intro hm
    apply h.inner
    rcases mem_append.mp hm with hm | hm
    · exact mem_append_left _ hm
    · exact mem_append_right _ (mem_cons_of_mem _ hm)
  rcases prune_cases keepRoot xs p ys with ⟨hp, -⟩ | ⟨hp, hs⟩ | ⟨hp, hxs, hys⟩
  · rw [hp] at hm
    cases hm
  · rw [hp] at hm ⊢
    rw [first_setEntries 0 p [] es, last_setEntries 0 p [] es]
    rcases mem_append.mp hm with hm' | hm'
    · exact hold (mem_append_left _ hm')
    rcases mem_cons.mp hm' with heq | hm'
    · rw [(mk.inj heq).1]
      rcases hs with rfl | rfl
      · exact .inl rfl
      · exact .inr (by simp [last])
    · exact hold (mem_append_right _ hm')
  · rw [hp] at hm ⊢
    have hfs : first 0 (xs ++ (p, es) :: ys) = first 0 (xs ++ ys) := by
      cases xs with
      | nil => exact absurd rfl hxs
      | cons x xs => rfl
    have hl : last 0 (xs ++ (p, es) :: ys) = last 0 (xs ++ ys) := by
      cases ys with
      | nil => exact absurd rfl hys
      | cons y ys => simp [last]
    rw [← hfs, ← hl]
    exact hold hm

section

variable (h : Ordered (xs ++ (p, es) :: ys))
include h

theorem holds_setEntries_iff (he : entry ∈ es)
    (hpe : es'.Perm (es.erase entry)) (k : Key) (q : UInt64) :
    Holds (xs ++ (p, es') :: ys) k q ↔ Holds (xs ++ (p, es) :: ys) k q ∧ k ≠ entry := by
  have hnd := h.nodup
  simp only [entries_append, entries_cons, nodup_append, mem_append] at hnd
  obtain ⟨-, ⟨hes, -, hys⟩, hxs⟩ := hnd
  have hm : ∀ k, k ∈ es' ↔ k ∈ es ∧ k ≠ entry := by
    intro k
    rw [hpe.mem_iff, hes.mem_erase_iff, and_comm]
  have ho : ∀ {q es1}, (q, es1) ∈ xs ∨ (q, es1) ∈ ys → k ∈ es1 → k ≠ entry := by
    rintro q es1 hs hk rfl
    rcases hs with hs | hs
    · exact hxs k (mem_entries.mpr ⟨q, es1, hs, hk⟩) k (.inl he) rfl
    · exact hys k he k (mem_entries.mpr ⟨q, es1, hs, hk⟩) rfl
  simp only [Holds, mem_append, mem_cons, mk.injEq]
  constructor
  · rintro ⟨es1, hle | ⟨rfl, rfl⟩ | hri, hk⟩
    · exact ⟨⟨es1, .inl hle, hk⟩, ho (.inl hle) hk⟩
    · obtain ⟨hk, hne⟩ := (hm k).mp hk
      exact ⟨⟨es, .inr (.inl ⟨rfl, rfl⟩), hk⟩, hne⟩
    · exact ⟨⟨es1, .inr (.inr hri), hk⟩, ho (.inr hri) hk⟩
  · rintro ⟨⟨es1, hle | ⟨rfl, rfl⟩ | hri, hk⟩, hne⟩
    · exact ⟨es1, .inl hle, hk⟩
    · exact ⟨es', .inr (.inl ⟨rfl, rfl⟩), (hm k).mpr ⟨hk, hne⟩⟩
    · exact ⟨es1, .inr (.inr hri), hk⟩

theorem Ordered.remove (he : entry ∈ es) (hpe : es'.Perm (es.erase entry)) (kr : Bool) :
    Ordered (DirPages.remove kr xs p es' ys) ∧ ∀ k q, (DirPages.remove kr xs p es' ys).Holds k q ↔
        Holds (xs ++ (p, es) :: ys) k q ∧ k ≠ entry := by
  have hh := holds_setEntries_iff h he hpe
  rw [DirPages.remove]
  by_cases hem : es'.isEmpty = true
  · obtain rfl : es' = [] := isEmpty_iff.mp hem
    constructor
    · have hsu : List.Sublist (prune kr xs p ys) (xs ++ (p, []) :: ys) := sublist_prune kr xs p ys
      refine ⟨?_, ?_, ?_, inner_prune kr h⟩
      · have hso : Sorted (xs ++ (p, []) :: ys) := by simpa [Sorted] using h.sorted
        exact hso.sublist (hsu.map _)
      · intro page es1 hm
        rcases mem_append.mp (hsu.subset hm) with hm | hm
        · exact h.small page es1 (mem_append_left _ hm)
        rcases mem_cons.mp hm with heq | hm
        · rw [(mk.inj heq).2]
          exact Nat.zero_le _
        · exact h.small page es1 (mem_append_right _ (mem_cons_of_mem _ hm))
      · have hnd := h.nodup
        have hsu' : List.Sublist (entries (xs ++ (p, []) :: ys)) (entries (xs ++ (p, es) :: ys)) := by
          simp only [entries_append, entries_cons]
          exact (refl _).append ((nil_sublist es).append (refl _))
        exact hnd.sublist ((hsu.map snd).flatten.trans hsu')
    · intro k q
      rw [← hh k q]
      constructor
      · rintro ⟨es1, hm, hk⟩
        exact ⟨es1, (mem_prune_iff hk).mp hm, hk⟩
      · rintro ⟨es1, hm, hk⟩
        exact ⟨es1, (mem_prune_iff hk).mpr hm, hk⟩
  · rw [if_neg hem]
    exact ⟨h.shrunk hpe (by simpa using hem), hh⟩

/-- A directory that loses its last entry at either end goes. -/
theorem Ordered.remove_eq_nil
    (hpe : es'.Perm (es.erase entry)) (hon : ∀ k ∈ entries (xs ++ (p, es) :: ys), k = entry)
    (he : entry ∈ es) (hs : xs = [] ∨ ys = []) : DirPages.remove false xs p es' ys = [] := by
  have hnd := h.nodup
  simp only [entries_append, entries_cons, nodup_append] at hnd
  obtain ⟨-, ⟨hes, -, hys⟩, hxs⟩ := hnd
  have hni : es' = [] := by
    refine eq_nil_iff_forall_not_mem.mpr fun k hk => ?_
    obtain ⟨hne, hk⟩ := hes.mem_erase_iff.mp (hpe.mem_iff.mp hk)
    exact hne (hon k (by simp [hk]))
  -- the other pages are empty
  have ho : ∀ q es1, (q, es1) ∈ xs ∨ (q, es1) ∈ ys → es1 = [] := by
    intro q es1 hm
    refine eq_nil_iff_forall_not_mem.mpr fun k hk => ?_
    rcases hm with hm | hm
    · have hk' : k ∈ entries xs := mem_entries.mpr ⟨q, es1, hm, hk⟩
      have heq : k = entry := hon k (by simp [hk'])
      exact hxs k hk' entry (by simp [he]) heq
    · have hk' : k ∈ entries ys := mem_entries.mpr ⟨q, es1, hm, hk⟩
      have heq : k = entry := hon k (by simp [hk'])
      exact hys entry he k hk' heq.symm
  have hn := h.numbers_nodup
  rw [DirPages.remove, hni, if_pos isEmpty_nil]
  rcases hs with rfl | rfl
  · rcases ys with _ | ⟨⟨q, es1⟩, _ | ⟨⟨q', es2⟩, ys⟩⟩
    · rfl
    · obtain rfl : es1 = [] := ho q es1 (by simp)
      rfl
    · obtain rfl : es1 = [] := ho q es1 (by simp)
      have hm : last 0 ([] ++ (p, es) :: (q, []) :: (q', es2) :: ys) ∈
          ((q', es2) :: ys).map fst := last_mem q (by simp)
      simp only [nil_append, map_cons, nodup_cons] at hn hm
      rcases h.inner q (by simp) with hfs | hl
      · have hfs : q = p := hfs
        exact absurd (mem_cons.mpr (.inl hfs.symm)) hn.1
      · rw [nil_append] at hl
        rw [← hl] at hm
        exact absurd hm hn.2.1
  · rcases xs with _ | ⟨⟨q, es1⟩, _ | ⟨⟨q', es2⟩, xs⟩⟩
    · rfl
    · obtain rfl : es1 = [] := ho q es1 (by simp)
      rfl
    · obtain rfl : es2 = [] := ho q' es2 (by simp)
      simp only [cons_append, map_cons, map_append, nodup_cons, mem_cons, mem_append, not_or] at hn
      rcases h.inner q' (by simp) with hfs | hl
      · exact absurd hfs.symm hn.1.1
      · have hl : q' = p := by simpa [last] using hl
        exact absurd hl hn.2.1.2.1

end

end DirPages

end Sand
