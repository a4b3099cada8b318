import Mathlib.Data.List.Nodup

/-!
# Paged lists

A list kept in numbered pages that are linked in both directions.
-/

structure LinkedPage (ν κ : Type) where
  entries : List κ
  next : ν
  previous : ν

namespace PagedList

open Function List Prod

variable {ν κ : Type}

/-- The first page's number, or that of the page behind. -/
def first (next : ν) : List (ν × List κ) → ν
  | [] => next
  | (p, _) :: _ => p

/-- The last page's number, or that of the page before. -/
def last (previous : ν) : List (ν × List κ) → ν
  | [] => previous
  | (p, _) :: rest => last p rest

/-- Linked one after the other, between two numbers. -/
def Chain (page : ν → Option (LinkedPage ν κ)) (previous : ν) : List (ν × List κ) → ν → Prop
  | [], _ => True
  | (p, es) :: rest, next =>
    page p = some ⟨es, first next rest, previous⟩ ∧ Chain page p rest next

def entries (ps : List (ν × List κ)) : List κ :=
  ps.flatMap snd

@[simp]
theorem first_append (next : ν) (xs ys : List (ν × List κ)) :
    first next (xs ++ ys) = first (first next ys) xs := by
  cases xs <;> rfl

@[simp]
theorem last_append (prev : ν) (xs ys : List (ν × List κ)) :
    last prev (xs ++ ys) = last (last prev xs) ys := by
  induction xs generalizing prev with
  | nil => rfl
  | cons x xs ih => exact ih x.1

theorem first_setEntries (next p : ν) (es es' : List κ) (xs ys : List (ν × List κ)) :
    first next (xs ++ (p, es) :: ys) = first next (xs ++ (p, es') :: ys) := by
  rw [first_append, first_append]
  rfl

theorem last_setEntries (prev p : ν) (es es' : List κ) (xs ys : List (ν × List κ)) :
    last prev (xs ++ (p, es) :: ys) = last prev (xs ++ (p, es') :: ys) := by
  rw [last_append, last_append]
  rfl

theorem last_mem {xs : List (ν × List κ)} (prev : ν) (h : xs ≠ []) : last prev xs ∈ xs.map fst := by
  induction xs generalizing prev with
  | nil => exact absurd rfl h
  | cons x xs ih =>
    cases xs with
    | nil => simp [last]
    | cons y ys => exact mem_cons_of_mem _ (ih x.1 (by simp))

@[simp]
theorem entries_append (xs ys : List (ν × List κ)) :
    entries (xs ++ ys) = entries xs ++ entries ys := by
  simp [entries]

@[simp]
theorem entries_cons (p : ν) (es : List κ) (ps : List (ν × List κ)) :
    entries ((p, es) :: ps) = es ++ entries ps := rfl

@[simp]
theorem entries_nil : entries ([] : List (ν × List κ)) = [] := rfl

theorem mem_entries {ps : List (ν × List κ)} {k : κ} :
    k ∈ entries ps ↔ ∃ p es, (p, es) ∈ ps ∧ k ∈ es := by
  simp [entries]

variable {page page' : ν → Option (LinkedPage ν κ)} {previous next p : ν} {es : List κ}
  {xs ys ps : List (ν × List κ)}

theorem chain_append : Chain page previous (xs ++ ys) next ↔
      Chain page previous xs (first next ys) ∧ Chain page (last previous xs) ys next := by
  induction xs generalizing previous with
  | nil => simp [Chain, last]
  | cons x xs ih =>
    simp [cons_append, Chain, ih, first_append, last, and_assoc]

theorem Chain.frame (h : Chain page previous ps next)
    (hpa : ∀ p ∈ ps.map fst, page' p = page p) : Chain page' previous ps next := by
  induction ps generalizing previous with
  | nil => trivial
  | cons x xs ih =>
    refine ⟨(hpa x.1 (by simp)).trans h.1, ih h.2 fun p hp => hpa p ?_⟩
    exact mem_cons_of_mem _ hp

theorem Chain.page_eq (h : Chain page previous (xs ++ (p, es) :: ys) next) :
    page p = some ⟨es, first next ys, last previous xs⟩ :=
  (chain_append.mp h).2.1

theorem Chain.isSome (h : Chain page previous ps next) (hp : p ∈ ps.map fst) : (page p).isSome := by
  obtain ⟨⟨p, es⟩, hm, rfl⟩ := mem_map.mp hp
  obtain ⟨xs, ys, rfl⟩ := append_of_mem hm
  rw [h.page_eq]
  rfl

/-! ### Changing pages -/

section Changes

variable [DecidableEq ν]

def alter (page : ν → Option (LinkedPage ν κ)) (p : ν) (f : LinkedPage ν κ → LinkedPage ν κ) :
    ν → Option (LinkedPage ν κ) :=
  update page p ((page p).map f)

theorem alter_self {pg : LinkedPage ν κ} (h : page p = some pg)
    (f : LinkedPage ν κ → LinkedPage ν κ) : alter page p f p = some (f pg) := by
  rw [alter, update_self, h]
  rfl

theorem alter_of_ne {q : ν} (h : q ≠ p) (f : LinkedPage ν κ → LinkedPage ν κ) :
    alter page p f q = page q :=
  update_of_ne h _ _

theorem Chain.alter_frame (h : Chain page previous ps next) (hp : p ∉ ps.map fst)
    (f : LinkedPage ν κ → LinkedPage ν κ) : Chain (alter page p f) previous ps next := by
  refine h.frame fun q hq => alter_of_ne ?_ f
  rintro rfl
  exact hp hq

theorem Chain.setPrevious (h : Chain page previous ((p, es) :: ps) next)
    (hp : p ∉ ps.map fst) (previous' : ν) :
    Chain (alter page p fun pg => { pg with previous := previous' }) previous' ((p, es) :: ps)
      next :=
  ⟨alter_self h.1 _, h.2.alter_frame hp _⟩

theorem Chain.setNext (h : Chain page previous (ps ++ [(p, es)]) next)
    (hp : p ∉ ps.map fst) (next' : ν) :
    Chain (alter page p fun pg => { pg with next := next' }) previous (ps ++ [(p, es)]) next' := by
  rw [chain_append] at h ⊢
  exact ⟨h.1.alter_frame hp _, alter_self h.2.1 _, trivial⟩

variable (zero : ν)

/-- They start at zero, are linked, and there are no others. -/
structure Kept (page : ν → Option (LinkedPage ν κ)) (ps : List (ν × List κ)) : Prop where
  chain : Chain page (last zero ps) ps zero
  absent : ∀ p, p ∉ ps.map fst → page p = none
  nodup : (ps.map fst).Nodup
  head : first zero ps = zero

variable {zero}

theorem Kept.isSome_iff (h : Kept zero page ps) : (page p).isSome = true ↔ p ∈ ps.map fst := by
  constructor
  · intro hs
    by_contra hno
    rw [h.absent p hno] at hs
    cases hs
  · intro hp
    exact h.chain.isSome hp

section

omit [DecidableEq ν]

theorem Kept.exists_head (h : Kept zero page ps) (hne : ps ≠ []) :
    ∃ es rest, ps = (zero, es) :: rest := by
  cases ps with
  | nil => exact absurd rfl hne
  | cons x rest =>
    have h0 : x.1 = zero := h.head
    exact ⟨x.2, rest, by rw [← h0]⟩

theorem kept_nil (hpa : ∀ p, page p = none) : Kept zero page [] :=
  ⟨trivial, fun p _ => hpa p, nodup_nil, rfl⟩

end

theorem Kept.start (h : Kept zero page []) (es : List κ) :
    Kept zero (update page zero (some ⟨es, zero, zero⟩)) [(zero, es)] := by
  refine ⟨⟨update_self .., trivial⟩, fun q hq => ?_, by simp, rfl⟩
  rw [update_of_ne (by simpa using hq)]
  exact h.absent q (by simp)

theorem Kept.setEntries (h : Kept zero page (xs ++ (p, es) :: ys)) (es' : List κ) :
    Kept zero (alter page p fun pg => { pg with entries := es' }) (xs ++ (p, es') :: ys) := by
  have hnd := h.nodup
  simp only [map_append, map_cons, nodup_append, nodup_cons] at hnd
  have hxs : p ∉ xs.map fst := fun hp => hnd.2.2 p hp p (by simp) rfl
  have hc := h.chain
  rw [chain_append, last_setEntries zero p es es'] at hc
  refine ⟨?_, fun q hq => ?_, ?_, ?_⟩
  · rw [chain_append]
    exact ⟨hc.1.alter_frame hxs _, alter_self hc.2.1 _, hc.2.2.alter_frame hnd.2.1.1 _⟩
  · rw [alter_of_ne (by rintro rfl; simp at hq)]
    exact h.absent q (by simpa using hq)
  · simpa using h.nodup
  · rw [first_setEntries zero p es' es]
    exact h.head

theorem Kept.addPage (h : Kept zero page (xs ++ [(p, es)])) {q : ν}
    (hq : q ∉ (xs ++ [(p, es)]).map fst) (es' : List κ) :
    Kept zero (update (alter (alter page p fun pg => { pg with next := q }) zero
        fun pg => { pg with previous := q }) q (some ⟨es', zero, p⟩))
      (xs ++ [(p, es)] ++ [(q, es')]) := by
  have hp : p ∉ xs.map fst := by
    intro hp
    have hnd := h.nodup
    simp only [map_append, nodup_append] at hnd
    exact hnd.2.2 p hp p (by simp) rfl
  have hn := h.chain.setNext hp q
  obtain ⟨es0, rest, hps⟩ := h.exists_head (by simp)
  have hnd := h.nodup
  rw [hps] at hn hnd
  have hpr := hn.setPrevious (nodup_cons.mp hnd).1 q
  rw [← hps] at hpr
  refine ⟨?_, fun p' hp' => ?_, ?_, ?_⟩
  · rw [chain_append]
    refine ⟨?_, ?_, trivial⟩
    · have hl : last zero (xs ++ [(p, es)] ++ [(q, es')]) = q := by simp [last]
      rw [hl]
      refine hpr.frame fun p' hp' => update_of_ne ?_ _ _
      rintro rfl
      exact hq hp'
    · simp [last, first]
  · have hne : p' ≠ q := by
      rintro rfl
      simp at hp'
    have hold : p' ∉ (xs ++ [(p, es)]).map fst := by
      intro hm
      apply hp'
      rw [map_append]
      exact mem_append_left _ hm
    have h0 : p' ≠ zero := by
      rintro rfl
      rw [hps] at hold
      simp at hold
    rw [update_of_ne hne, alter_of_ne h0, alter_of_ne (by rintro rfl; simp at hold)]
    exact h.absent p' hold
  · rw [map_append, nodup_append]
    refine ⟨h.nodup, by simp, fun a ha b hb => ?_⟩
    rw [map_singleton, mem_singleton] at hb
    subst hb
    rintro rfl
    exact hq ha
  · rw [first_append, hps]
    rfl

theorem Kept.unlink {a b : ν} {ea eb : List κ}
    (h : Kept zero page (xs ++ [(a, ea)] ++ (p, es) :: (b, eb) :: ys)) :
    Kept zero (update (alter (alter page a fun pg => { pg with next := b }) b
        fun pg => { pg with previous := a }) p none)
      (xs ++ [(a, ea)] ++ (b, eb) :: ys) := by
  have hnd := h.nodup
  simp only [map_append, map_cons, map_nil, nodup_append, nodup_cons,
    mem_cons, mem_append, not_mem_nil, or_false] at hnd
  obtain ⟨⟨-, -, hxa⟩, ⟨hpb, hby, -⟩, hd⟩ := hnd
  have hax : a ∉ xs.map fst := fun ha => hxa a ha a rfl rfl
  have hab : a ≠ b := hd a (.inr rfl) b (.inr (.inl rfl))
  have hbx : b ∉ (xs ++ [(a, ea)]).map fst := by
    intro hb
    simp only [map_append, map_cons, map_nil, mem_append, mem_singleton] at hb
    exact hd b hb b (.inr (.inl rfl)) rfl
  have hay : a ∉ ((b, eb) :: ys).map fst := by
    intro ha
    exact hd a (.inr rfl) a (.inr (by simpa using ha)) rfl
  have hpx : p ∉ (xs ++ [(a, ea)]).map fst := by
    intro hp
    simp only [map_append, map_cons, map_nil, mem_append, mem_singleton] at hp
    exact hd p hp p (.inl rfl) rfl
  have hpy : p ∉ ((b, eb) :: ys).map fst := by
    intro hp
    exact hpb (by simpa using hp)
  have hc := h.chain
  rw [chain_append] at hc
  have hle := (hc.1.setNext hax b).alter_frame hbx fun pg => { pg with previous := a }
  have hr := ((hc.2.2.alter_frame hay fun pg => { pg with next := b }).setPrevious hby a)
  have hf : ∀ q, q ≠ p → update (alter (alter page a fun pg => { pg with next := b }) b
      fun pg => { pg with previous := a }) p none q =
        alter (alter page a fun pg => { pg with next := b }) b
          (fun pg => { pg with previous := a }) q :=
    fun q hq => update_of_ne hq _ _
  refine ⟨?_, fun q hq => ?_, ?_, ?_⟩
  · rw [chain_append]
    constructor
    · have hl : last zero (xs ++ [(a, ea)] ++ (b, eb) :: ys) =
          last zero (xs ++ [(a, ea)] ++ (p, es) :: (b, eb) :: ys) := by simp [last]
      rw [hl]
      refine hle.frame fun q hq => hf q ?_
      rintro rfl
      exact hpx hq
    · have hl : ∀ z, last z (xs ++ [(a, ea)]) = a := by simp [last]
      rw [hl]
      refine hr.frame fun q hq => hf q ?_
      rintro rfl
      exact hpy hq
  · obtain rfl | hqp := eq_or_ne q p
    · exact update_self ..
    have hqa : q ≠ a := by
      rintro rfl
      simp at hq
    have hqb : q ≠ b := by
      rintro rfl
      simp at hq
    rw [hf q hqp, alter_of_ne hqb, alter_of_ne hqa]
    refine h.absent q fun hm => hq ?_
    simp only [map_append, map_cons, mem_append, mem_cons] at hm ⊢
    tauto
  · refine List.Nodup.sublist ?_ h.nodup
    exact List.Sublist.map _ ((List.Sublist.refl _).append (sublist_cons_self _ _))
  · have hh := h.head
    cases xs <;> simpa [first] using hh

end Changes

end PagedList
