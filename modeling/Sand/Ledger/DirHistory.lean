import Sand.Ledger.DirPages
import Sand.Library.Run

/-!
# Histories of a directory

Each entry is removed with the page number that adding it returned.
-/

namespace Sand

open PagedList List View Option Prod DirPages

/-- A view, and a directory's entries with their pages. -/
structure DirWorld where
  view : View
  record : List (Key × UInt64)

inductive DirEvent where
  | add (entry : Key)
  | delete (keepRoot stable soft : Bool) (entry : Key) (page : UInt64)
  deriving DecidableEq

def DirEvent.next (root : DirRoot) (w : DirWorld) : DirEvent → Option DirWorld
  | .add entry =>
    if entry ∈ w.record.map fst then none
    else
      match (dirAdd root entry).run w.view with
      | (.ok (.tesSUCCESS, page), v) => some ⟨v, (entry, page) :: w.record⟩
      | (.ok _, v) => some ⟨v, w.record⟩
      | (.error _, _) => none
  | .delete keepRoot stable soft entry page =>
    if (entry, page) ∉ w.record then none
    else
      match (dirDelete keepRoot page root entry stable soft).run w.view with
      | (.ok .tesSUCCESS, v) => some ⟨v, w.record.filter fun x => x.1 ≠ entry⟩
      | (.ok _, v) => some ⟨v, w.record⟩
      | (.error _, _) => none

def DirEvent.Takes (root : DirRoot) (e : DirEvent) (w w' : DirWorld) : Prop :=
  e.next root w = some w'

def View.dirEntriesFrom (v : View) (root : DirRoot) : ℕ → UInt64 → ℕ → Except Fault (List Key)
  | 0, _, _ => .error .crash
  | fuel + 1, page, entry =>
    match v.dirNext root page entry with
    | .error fault => .error fault
    | .ok (.found page entry index) =>
      (v.dirEntriesFrom root fuel page entry).map (index :: ·)
    | .ok _ => .ok []

def View.dirEntries (v : View) (root : DirRoot) (fuel : ℕ) : Except Fault (List Key) :=
  v.dirEntriesFrom root fuel 0 0

/-! ### Reading a directory -/

variable {v : View} {root : DirRoot} {w w' : DirWorld} {ps xs ys : DirPages} {p : UInt64}
  {es : List Key}

theorem length_le_of_kept (h : Kept 0 (v.pages root) ps) : ps.length ≤ v.flatten.keys.length := by
  have hnd : (ps.map fun x => Key.dir root x.1).Nodup := by
    have hmp : (ps.map fun x => Key.dir root x.1) = (ps.map fst).map (Key.dir root) := by
      simp
    rw [hmp]
    exact h.nodup.map fun a b hab => by simpa using hab
  have hsu : (ps.map fun x => Key.dir root x.1) ⊆ v.flatten.keys := by
    intro k hk
    obtain ⟨x, hx, rfl⟩ := mem_map.mp hk
    have hs := h.isSome_iff.mpr (mem_map_of_mem hx)
    rw [View.pages, isSome_map, ← lookup_flatten] at hs
    exact AList.lookup_isSome.mp hs
  have := (List.Nodup.subperm hnd hsu).length_le
  rwa [length_map] at this

theorem get_of_kept (h : Kept 0 (v.pages root) (xs ++ (p, es) :: ys)) :
    ∃ previous, v.get (.dir root p) = some ⟨es, first 0 ys, previous⟩ :=
  ⟨_, get_of_pages h.chain.page_eq⟩

variable {i pages : ℕ}

theorem dirNextFrom_skip {q : UInt64} {es' : List Key}
    (h : Kept 0 (v.pages root) (xs ++ (p, es) :: (q, es') :: ys)) (hi : es[i]? = none) (pages : ℕ) :
    v.dirNextFrom root (pages + 1) p i = v.dirNextFrom root pages q 0 := by
  obtain ⟨previous, hg⟩ := get_of_kept h
  have hq : q ≠ 0 := by
    rintro rfl
    have hnd := h.nodup
    have hhe := h.head
    cases xs with
    | nil =>
      obtain rfl : p = 0 := hhe
      simp at hnd
    | cons x xs =>
      obtain ⟨x, ex⟩ := x
      obtain rfl : x = 0 := hhe
      simp at hnd
  have hs : (v.get (.dir root q)).isNone = false := by
    have hm : q ∈ (xs ++ (p, es) :: (q, es') :: ys).map fst := by simp
    have := h.isSome_iff.mpr hm
    rw [View.pages, isSome_map] at this
    rw [← not_isSome, this]
    rfl
  rw [dirNextFrom, hg]
  simp [hi, first, hq, ↓reduceIte, hs, Bool.false_eq_true]

section

variable (h : Kept 0 (v.pages root) (xs ++ (p, es) :: ys))
include h

theorem dirNextFrom_eq_exhausted (hp : ys.length < pages) (hrs : es.drop i ++ entries ys = []) :
    ∃ q j, v.dirNextFrom root pages p i = .ok (.exhausted q j) := by
  obtain ⟨pages, rfl⟩ := (@Nat.exists_eq_add_one pages).mpr (by omega)
  induction ys generalizing xs p es i pages with
  | nil =>
    obtain ⟨previous, hg⟩ := get_of_kept h
    have hi : es[i]? = none := by
      rw [List.getElem?_eq_none_iff, ← drop_eq_nil_iff]
      exact (append_eq_nil_iff.mp hrs).1
    refine ⟨p, i, ?_⟩
    rw [dirNextFrom, hg]
    simp [hi, first]
  | cons y ys ih =>
    obtain ⟨q, es'⟩ := y
    obtain ⟨hdr, hrs⟩ := append_eq_nil_iff.mp hrs
    have hi : es[i]? = none := by
      rwa [List.getElem?_eq_none_iff, ← drop_eq_nil_iff]
    rw [length_cons] at hp
    obtain ⟨pages, rfl⟩ := (@Nat.exists_eq_add_one pages).mpr (by omega)
    rw [dirNextFrom_skip h hi]
    have h' : Kept 0 (v.pages root) ((xs ++ [(p, es)]) ++ (q, es') :: ys) := by
      simpa using h
    exact ih h' (by simpa using hrs) pages (by omega)

variable {rest : List Key}

theorem found_here (hp : ys.length < pages)
    (hi : i < es.length) {k : Key} (hrs : es.drop i ++ entries ys = k :: rest) :
    v.dirNextFrom root pages p i = .ok (.found p (i + 1) k) ∧
      es.drop (i + 1) ++ entries ys = rest := by
  obtain ⟨pages, rfl⟩ := (@Nat.exists_eq_add_one pages).mpr (by omega)
  rw [drop_eq_getElem_cons hi, cons_append] at hrs
  obtain ⟨previous, hg⟩ := get_of_kept h
  refine ⟨?_, (List.cons.inj hrs).2⟩
  rw [dirNextFrom, hg]
  simp [List.getElem?_eq_getElem hi, (List.cons.inj hrs).1]

theorem dirNextFrom_eq_found (hp : ys.length < pages) {k : Key}
    (hrs : es.drop i ++ entries ys = k :: rest) :
    ∃ xs' q es' ys' j, xs ++ (p, es) :: ys = xs' ++ (q, es') :: ys' ∧
      v.dirNextFrom root pages p i = .ok (.found q j k) ∧ es'.drop j ++ entries ys' = rest := by
  induction ys generalizing xs p es i pages with
  | nil =>
    have hi : i < es.length := by
      by_contra hle
      simp [drop_eq_nil_iff.mpr (Nat.not_lt.mp hle)] at hrs
    exact ⟨xs, p, es, [], i + 1, rfl, found_here h hp hi hrs⟩
  | cons y ys ih =>
    obtain ⟨q, es'⟩ := y
    by_cases hi : i < es.length
    · exact ⟨xs, p, es, (q, es') :: ys, i + 1, rfl, found_here h hp hi hrs⟩
    have hno : es[i]? = none := List.getElem?_eq_none_iff.mpr (Nat.not_lt.mp hi)
    rw [length_cons] at hp
    obtain ⟨pages, rfl⟩ := (@Nat.exists_eq_add_one pages).mpr (by omega)
    rw [dirNextFrom_skip h hno]
    rw [drop_eq_nil_iff.mpr (Nat.not_lt.mp hi), nil_append, entries_cons] at hrs
    have h' : Kept 0 (v.pages root) ((xs ++ [(p, es)]) ++ (q, es') :: ys) := by
      simpa using h
    have hrest0 : es'.drop 0 ++ entries ys = k :: rest := by simpa using hrs
    have hp' : ys.length < pages := by omega
    obtain ⟨xs', q', es1, ys', j, hps, hr, hrs'⟩ := ih h' hp' hrest0
    exact ⟨xs', q', es1, ys', j, by simpa using hps, hr, hrs'⟩

theorem dirEntriesFrom_eq {fuel : ℕ} (hf : (es.drop i ++ entries ys).length < fuel) :
    v.dirEntriesFrom root fuel p i = .ok (es.drop i ++ entries ys) := by
  have hp : ys.length < v.flatten.keys.length + 1 := by
    have := length_le_of_kept h
    rw [length_append, length_cons] at this
    omega
  generalize hrs : es.drop i ++ entries ys = rest at hf
  induction rest generalizing xs p es ys i fuel with
  | nil =>
    obtain ⟨fuel, rfl⟩ := (@Nat.exists_eq_add_one fuel).mpr (by omega)
    obtain ⟨q, j, hr⟩ := dirNextFrom_eq_exhausted h hp hrs
    rw [dirEntriesFrom, dirNext, hr]
  | cons k rest ih =>
    rw [length_cons] at hf
    obtain ⟨fuel, rfl⟩ := (@Nat.exists_eq_add_one fuel).mpr (by omega)
    obtain ⟨xs', q, es', ys', j, hps, hr, hrs'⟩ := dirNextFrom_eq_found h hp hrs
    rw [hps] at h
    have hp' : ys'.length < v.flatten.keys.length + 1 := by
      have := length_le_of_kept h
      rw [length_append, length_cons] at this
      omega
    have hla : v.dirEntriesFrom root fuel q j = .ok rest := ih h hp' hrs' (by omega)
    rw [dirEntriesFrom, dirNext, hr]
    simp only [hla]
    rfl

end

/-! ### Histories -/

/-- The directory holds what the record says, in order. -/
structure DirWorld.Consistent (root : DirRoot) (w : DirWorld) (ps : DirPages) : Prop where
  ready : w.view.Ready []
  kept : Kept 0 (w.view.pages root) ps
  ordered : ps.Ordered
  record : ∀ entry page, (entry, page) ∈ w.record ↔ ps.Holds entry page

namespace DirWorld.Consistent

variable {entry : Key} {page : UInt64}

section

variable (h : w.Consistent root ps)
include h

theorem mem_entries_iff : entry ∈ entries ps ↔ entry ∈ w.record.map fst := by
  rw [← holds_iff_mem_entries]
  simp [h.record]

theorem dirAdd_run (ent : Key) : ∃ v' d', DirView root w.view d' [] v' ∧
      match ps.add ent with
      | some (page, ps') =>
        (dirAdd root ent).run w.view = (.ok (.tesSUCCESS, page), v') ∧ Kept 0 d' ps'
      | none =>
        (dirAdd root ent).run w.view = (.ok (.tecDIR_FULL, 0), v') ∧ d' = w.view.pages root := by
  obtain ⟨hrd, hkp, ho, -⟩ := h
  rcases eq_nil_or_concat' ps with rfl | ⟨xs, ⟨p, es⟩, rfl⟩
  · obtain ⟨v', d', hr, hv, hkp'⟩ := dirAdd_run_nil hrd hkp ent
    exact ⟨v', d', hv, hr, hkp'⟩
  simp only [add, List.getLast?_concat, dropLast_concat]
  by_cases hro : es.length = dirNodeMax
  · obtain ⟨v', d', hr, hv, hp⟩ := dirAdd_run_new hrd hkp hro ho.sorted ent
    refine ⟨v', d', hv, ?_⟩
    rw [if_neg (not_not_intro hro)]
    by_cases hfu : p + 1 = 0
    · rw [if_pos hfu] at hr hp ⊢
      exact ⟨hr, hp⟩
    · rw [if_neg hfu] at hr hp ⊢
      exact ⟨hr, hp⟩
  · obtain ⟨v', d', hr, hv, hkp'⟩ := dirAdd_run_append hrd hkp hro ent
    refine ⟨v', d', hv, ?_⟩
    rw [if_pos hro]
    exact ⟨hr, hkp'⟩

theorem of_view {v' : View} (hv : DirView root w.view (w.view.pages root) [] v') :
    (DirWorld.mk v' w.record).Consistent root ps :=
  ⟨hv.ready, by rw [hv.pages]; exact h.kept, h.ordered, h.record⟩

theorem exists_add (hm : entry ∉ w.record.map fst) :
    ∃ w', (DirEvent.add entry).Takes root w w' := by
  obtain ⟨v', d', -, hma⟩ := h.dirAdd_run entry
  simp only [DirEvent.Takes, DirEvent.next, if_neg hm]
  cases ha : ps.add entry with
  | none | some result =>
    simp only [ha] at hma
    rw [hma.1]
    exact ⟨_, rfl⟩

theorem add (hst : (DirEvent.add entry).Takes root w w') :
    ∃ ps', w'.Consistent root ps' ∧ (ps' = ps ∨ entry ∈ entries ps') := by
  obtain ⟨v', d', hv, hma⟩ := h.dirAdd_run entry
  rw [DirEvent.Takes, DirEvent.next] at hst
  by_cases hm : entry ∈ w.record.map fst
  · rw [if_pos hm] at hst
    cases hst
  rw [if_neg hm] at hst
  cases ha : ps.add entry with
  | none =>
    simp only [ha] at hma
    obtain ⟨hr, rfl⟩ := hma
    rw [hr] at hst
    cases hst
    exact ⟨ps, h.of_view hv, .inl rfl⟩
  | some result =>
    obtain ⟨page, ps'⟩ := result
    simp only [ha] at hma
    obtain ⟨hr, hkp⟩ := hma
    rw [hr] at hst
    cases hst
    obtain ⟨ho, hh⟩ := h.ordered.add (mt h.mem_entries_iff.mp hm) ha
    refine ⟨ps', ⟨hv.ready, by rw [hv.pages]; exact hkp, ho, fun k q => ?_⟩, .inr ?_⟩
    · rw [hh, mem_cons, h.record, Prod.mk.injEq, or_comm]
    · rw [← holds_iff_mem_entries]
      exact ⟨page, (hh entry page).mpr (.inr ⟨rfl, rfl⟩)⟩

/-- Its page still holds an entry, and removing it goes through. -/
theorem dirDelete_run (hm : (entry, page) ∈ w.record) (kr stb soft : Bool) :
    ∃ v' xs es es' ys, ps = xs ++ (page, es) :: ys ∧ entry ∈ es ∧ es'.Perm (es.erase entry) ∧
      (dirDelete kr page root entry stb soft).run w.view = (.ok .tesSUCCESS, v') ∧
      (DirWorld.mk v' (w.record.filter fun x => x.1 ≠ entry)).Consistent root
        (remove kr xs page es' ys) := by
  obtain ⟨es, hes, he⟩ := (h.record entry page).mp hm
  obtain ⟨xs, ys, rfl⟩ := append_of_mem hes
  obtain ⟨v', d', es', hr, hv, hpe, hkp⟩ := Sand.dirDelete_run h.ready h.kept he kr stb soft
  obtain ⟨ho, hh⟩ := h.ordered.remove he hpe kr
  refine ⟨v', xs, es, es', ys, rfl, he, hpe, hr, hv.ready, ?_, ho, ?_⟩
  · rw [hv.pages]
    exact hkp
  · intro k q
    rw [hh, mem_filter, h.record]
    simp

theorem delete {kr stb soft : Bool}
    (hst : (DirEvent.delete kr stb soft entry page).Takes root w w') :
    ∃ ps', w'.Consistent root ps' := by
  rw [DirEvent.Takes, DirEvent.next] at hst
  by_cases hm : (entry, page) ∈ w.record
  · rw [if_neg (not_not_intro hm)] at hst
    obtain ⟨v', xs, es, es', ys, rfl, -, -, hr, hn⟩ := h.dirDelete_run hm kr stb soft
    rw [hr] at hst
    cases hst
    exact ⟨_, hn⟩
  · rw [if_pos hm] at hst
    cases hst

end

theorem step (h : ∃ ps, w.Consistent root ps) {e : DirEvent} (hst : e.Takes root w w') :
    ∃ ps, w'.Consistent root ps := by
  obtain ⟨ps, h⟩ := h
  cases e with
  | add entry =>
    obtain ⟨ps', h', -⟩ := h.add hst
    exact ⟨ps', h'⟩
  | delete keepRoot stable soft entry page => exact h.delete hst

theorem start (hrd : v.Ready []) (has : ∀ page, v.get (.dir root page) = none) :
    ∃ ps, (DirWorld.mk v []).Consistent root ps := by
  refine ⟨[], hrd, kept_nil fun page => ?_, ordered_nil, fun entry page => ?_⟩
  · rw [View.pages, has]
    rfl
  · simp [DirPages.Holds]

theorem dirEntries (h : w.Consistent root ps) (hne : ps ≠ []) {fuel : ℕ}
    (hf : (entries ps).length < fuel) : w.view.dirEntries root fuel = .ok (entries ps) := by
  obtain ⟨es, ys, rfl⟩ := h.kept.exists_head hne
  have hkp : Kept 0 (w.view.pages root) ([] ++ (0, es) :: ys) := h.kept
  exact dirEntriesFrom_eq hkp hf

end DirWorld.Consistent

variable {es : List DirEvent}

/-- Whatever is added and removed with the page numbers returned: removals succeed, the pages are
linked both ways, none is too long, the numbers name the pages that hold the entries, and reading
gives each entry once. -/
theorem directory_of_history {v : View} (hrd : v.Ready [])
    (has : ∀ page, v.get (.dir root page) = none) (h : Run (DirEvent.Takes root) ⟨v, []⟩ es w) :
    (∀ entry, entry ∉ w.record.map fst → ∃ w', (DirEvent.add entry).Takes root w w') ∧
      (∀ entry page, (entry, page) ∈ w.record → ∀ keepRoot stable soft, ∃ v',
        (dirDelete keepRoot page root entry stable soft).run w.view = (.ok .tesSUCCESS, v')) ∧
      ∃ ps : DirPages, Kept 0 (w.view.pages root) ps ∧
        (∀ page entries, (page, entries) ∈ ps → entries.length ≤ 32) ∧
        (∀ entry page, (entry, page) ∈ w.record ↔ ps.Holds entry page) ∧
        (ps ≠ [] → ∃ l : List Key, l.Nodup ∧ (∀ entry, entry ∈ l ↔ entry ∈ w.record.map fst) ∧
          ∀ fuel, l.length < fuel → w.view.dirEntries root fuel = .ok l) := by
  obtain ⟨ps, hps⟩ := h.preserves (fun w => ∃ ps, w.Consistent root ps)
    (fun _ _ _ hst hin => DirWorld.Consistent.step hin hst)
    (DirWorld.Consistent.start hrd has)
  refine ⟨fun entry hm => hps.exists_add hm, fun entry page hm keepRoot stable soft => ?_,
    ps, hps.kept, hps.ordered.small, hps.record, fun hne => ?_⟩
  · obtain ⟨v', -, -, -, -, -, -, -, hr, -⟩ := hps.dirDelete_run hm keepRoot stable soft
    exact ⟨v', hr⟩
  · exact ⟨entries ps, hps.ordered.nodup, fun entry => hps.mem_entries_iff,
      fun fuel hf => hps.dirEntries hne hf⟩

def sampleDirView : View where
  context := ⟨⟨false, 1, 0⟩, ⟨10, 10, 20, 5⟩, 0, []⟩
  base := ∅
  items := ∅
  dropsCreated := 0
  dropsDestroyed := 0
  tab := none
  parents := []

theorem ready_sampleDirView : sampleDirView.Ready [] :=
  ⟨fun k sle h => by simp [sampleDirView] at h, nofun⟩

theorem get_sampleDirView (k : Key) : sampleDirView.get k = none := by
  simp [sampleDirView, View.get]

def sampleRun (root : DirRoot) (es : List DirEvent) : Option DirWorld :=
  es.foldlM (fun w e => e.next root w) ⟨sampleDirView, []⟩

theorem run_of_sampleRun (h : sampleRun root es = some w) : Run (DirEvent.Takes root)
    ⟨sampleDirView, []⟩ es w :=
  Run.of_foldlM (fun _ _ _ => id) h

theorem two_entries_read : ∃ w, Run (DirEvent.Takes (.owner 1)) ⟨sampleDirView, []⟩
      [.add (.offer 1 1), .add (.offer 1 2), .delete false false true (.offer 1 1) 0] w ∧
    w.record = [(.offer 1 2, 0)] ∧
    (∀ keepRoot stable soft, ∃ v', (dirDelete keepRoot 0 (.owner 1) (.offer 1 2) stable soft).run
      w.view = (.ok .tesSUCCESS, v')) := by
  obtain ⟨w, hw, hre⟩ : ∃ w, sampleRun (.owner 1)
      [.add (.offer 1 1), .add (.offer 1 2), .delete false false true (.offer 1 1) 0] = some w ∧
        w.record = [(.offer 1 2, 0)] := by
    refine ⟨_, rfl, ?_⟩
    decide +kernel
  have hr := run_of_sampleRun hw
  have hdi := directory_of_history ready_sampleDirView (fun _ => get_sampleDirView _) hr
  exact ⟨w, hr, hre, hdi.2.1 _ _ (by rw [hre]; simp)⟩

/-! ### Empty directories -/

/-- The last entry, on the first page or the last, not keeping the root. -/
def DirEvent.AtEnd (root : DirRoot) (w : DirWorld) : DirEvent → Prop
  | .add _ => True
  | .delete keepRoot _ _ entry page => keepRoot = false ∧
      ((∀ x ∈ w.record, x.1 = entry) →
        page = 0 ∨ ∀ node, w.view.get (.dir root page) = some node → node.indexNext = 0)

def DirEvent.TakesAtEnd (root : DirRoot) (e : DirEvent) (w w' : DirWorld) : Prop :=
  e.Takes root w w' ∧ e.AtEnd root w

instance decidableAtEnd (root : DirRoot) (w : DirWorld) :
    (e : DirEvent) → Decidable (e.AtEnd root w)
  | .add _ => isTrue trivial
  | .delete keepRoot _ _ entry page =>
    inferInstanceAs (Decidable (keepRoot = false ∧ ((∀ x ∈ w.record, x.1 = entry) →
      page = 0 ∨ ∀ node ∈ w.view.get (.dir root page), node.indexNext = 0)))

namespace DirWorld.Consistent

theorem record_eq_nil_iff (h : w.Consistent root ps) : w.record = [] ↔ entries ps = [] := by
  rw [eq_nil_iff_forall_not_mem, eq_nil_iff_forall_not_mem]
  constructor
  · intro hni entry he
    obtain ⟨x, hx, -⟩ := mem_map.mp (h.mem_entries_iff.mp he)
    exact hni x hx
  · intro hni x hx
    exact hni x.1 (h.mem_entries_iff.mpr (mem_map_of_mem hx))

theorem ne_zero {x : UInt64 × List Key} {q : UInt64} {es : List Key}
    (h : w.Consistent root (x :: xs ++ (q, es) :: ys)) : q ≠ 0 := by
  rintro rfl
  have hhe : x.1 = 0 := h.kept.head
  have hnd := h.kept.nodup
  rw [cons_append, map_cons, nodup_cons] at hnd
  exact hnd.1 (by rw [hhe]; simp)

theorem delete_atEnd (h : w.Consistent root ps) {stb soft : Bool} {entry : Key} {page : UInt64}
    (hst : (DirEvent.delete false stb soft entry page).Takes root w w')
    (hen : (∀ x ∈ w.record, x.1 = entry) →
      page = 0 ∨ ∀ node, w.view.get (.dir root page) = some node → node.indexNext = 0) :
    ∃ ps', w'.Consistent root ps' ∧ (entries ps' = [] → ps' = []) := by
  rw [DirEvent.Takes, DirEvent.next] at hst
  by_cases hm : (entry, page) ∈ w.record
  · rw [if_neg (not_not_intro hm)] at hst
    obtain ⟨v', xs, es, es', ys, rfl, he, hpe, hr, hn⟩ := h.dirDelete_run hm false stb soft
    rw [hr] at hst
    cases hst
    refine ⟨_, hn, fun hni => ?_⟩
    have hon : ∀ x ∈ w.record, x.1 = entry := by
      intro x hx
      by_contra hne
      have hke := hn.record_eq_nil_iff.mpr hni
      rw [filter_eq_nil_iff] at hke
      exact hke x hx (by simpa using hne)
    refine h.ordered.remove_eq_nil hpe (fun k hk => ?_) he ?_
    · obtain ⟨x, hx, rfl⟩ := mem_map.mp (h.mem_entries_iff.mp hk)
      exact hon x hx
    rcases hen hon with rfl | hl
    · cases xs with
      | nil => exact .inl rfl
      | cons x xs => exact absurd rfl h.ne_zero
    obtain ⟨previous, hg⟩ := get_of_kept h.kept
    have hfs : first 0 ys = 0 := hl _ hg
    cases ys with
    | nil => exact .inr rfl
    | cons y ys =>
      obtain ⟨q, eq⟩ := y
      obtain rfl : q = 0 := hfs
      exfalso
      cases xs with
      | nil =>
        have h' : w.Consistent root ((page, es) :: [] ++ (0, eq) :: ys) := h
        exact h'.ne_zero rfl
      | cons x xs =>
        have h' : w.Consistent root (x :: (xs ++ [(page, es)]) ++ (0, eq) :: ys) := by
          simpa using h
        exact h'.ne_zero rfl
  · rw [if_pos hm] at hst
    cases hst

theorem step_atEnd (h : ∃ ps, w.Consistent root ps ∧ (entries ps = [] → ps = [])) {e : DirEvent}
    (hst : e.Takes root w w') (hen : e.AtEnd root w) :
    ∃ ps, w'.Consistent root ps ∧ (entries ps = [] → ps = []) := by
  obtain ⟨ps, h, hgo⟩ := h
  cases e with
  | add entry =>
    obtain ⟨ps', h', rfl | hm⟩ := h.add hst
    · exact ⟨ps', h', hgo⟩
    · refine ⟨ps', h', fun hni => ?_⟩
      rw [hni] at hm
      cases hm
  | delete keepRoot stable soft entry page =>
    obtain ⟨rfl, hen⟩ := hen
    exact h.delete_atEnd hst hen

theorem dirIsEmpty_iff (h : w.Consistent root ps) (hgo : entries ps = [] → ps = []) :
    w.view.dirIsEmpty root ↔ w.record = [] := by
  rw [h.record_eq_nil_iff, dirIsEmpty]
  by_cases hps : ps = []
  · subst hps
    have hno := h.kept.absent 0 (by simp)
    rw [View.pages, map_eq_none_iff] at hno
    simp [hno]
  obtain ⟨es, ys, rfl⟩ := h.kept.exists_head hps
  have hkp : Kept 0 (w.view.pages root) ([] ++ (0, es) :: ys) := h.kept
  obtain ⟨previous, hg⟩ := get_of_kept hkp
  have hne : entries ((0, es) :: ys) ≠ [] := fun hni => hps (hgo hni)
  rw [hg]
  simp only [Bool.and_eq_true, List.isEmpty_iff, beq_iff_eq, hne, iff_false, not_and]
  rintro rfl
  cases ys with
  | nil => exact absurd rfl hne
  | cons y ys =>
    have h' : w.Consistent root ((0, []) :: [] ++ (y.1, y.2) :: ys) := h
    exact h'.ne_zero

end DirWorld.Consistent

/-- A directory goes with its last entry if that is always removed from the first page or
the last. -/
theorem directory_gone_of_history {v : View} (hrd : v.Ready [])
    (has : ∀ page, v.get (.dir root page) = none)
    (h : Run (DirEvent.TakesAtEnd root) ⟨v, []⟩ es w) :
    (w.record = [] → ∀ page, w.view.get (.dir root page) = none) ∧
      (w.view.dirIsEmpty root = true ↔ w.record = []) := by
  have hsa : ∃ ps, (DirWorld.mk v []).Consistent root ps ∧ (entries ps = [] → ps = []) := by
    obtain ⟨ps, hps⟩ := DirWorld.Consistent.start hrd has
    refine ⟨ps, hps, fun _ => ?_⟩
    by_contra hne
    obtain ⟨entries, rest, rfl⟩ := hps.kept.exists_head hne
    have hkp : Kept 0 (v.pages root) ([] ++ (0, entries) :: rest) := hps.kept
    obtain ⟨previous, hg⟩ := get_of_kept hkp
    rw [has] at hg
    cases hg
  obtain ⟨ps, hps, hgo⟩ := h.preserves
    (fun w => ∃ ps, w.Consistent root ps ∧ (entries ps = [] → ps = []))
    (fun _ _ _ hst hin => DirWorld.Consistent.step_atEnd hin hst.1 hst.2) hsa
  refine ⟨fun hni page => ?_, hps.dirIsEmpty_iff hgo⟩
  have hem : ps = [] := hgo (hps.record_eq_nil_iff.mp hni)
  subst hem
  have hno := hps.kept.absent page (by simp)
  rwa [View.pages, map_eq_none_iff] at hno

/-- Two pages, emptied from the second on. -/
def emptyingEvents : List DirEvent :=
  (List.range 33).map (fun i => .add (.offer 1 (.ofNat i))) ++
    .delete false true false (.offer 1 32) 1 ::
    (List.range 32).map fun i => .delete false true false (.offer 1 (.ofNat i)) 0

theorem two_pages_gone : ∃ w, Run (DirEvent.TakesAtEnd (.owner 1)) ⟨sampleDirView, []⟩
      emptyingEvents w ∧ (∀ page, w.view.get (.dir (.owner 1) page) = none) ∧
    w.view.dirIsEmpty (.owner 1) = true := by
  let next (e : DirEvent) (w : DirWorld) : Option DirWorld :=
    if e.AtEnd (.owner 1) w then e.next (.owner 1) w else none
  have hruns : (emptyingEvents.foldlM (fun w e => next e w) ⟨sampleDirView, []⟩).any
      fun w => w.record.isEmpty := by
    decide +kernel
  obtain ⟨w, hw, hempty⟩ := (any_eq_true _ _).mp hruns
  have hrun : Run (DirEvent.TakesAtEnd (.owner 1)) ⟨sampleDirView, []⟩ emptyingEvents w := by
    refine Run.of_foldlM (fun e w w' hnext => ?_) hw
    obtain ⟨hend, hnext⟩ := ite_none_right_eq_some.mp hnext
    exact ⟨hnext, hend⟩
  have hgone := directory_gone_of_history ready_sampleDirView (fun _ => get_sampleDirView _) hrun
  exact ⟨w, hrun, hgone.1 (List.isEmpty_iff.mp hempty), hgone.2.mpr (List.isEmpty_iff.mp hempty)⟩

/-- Three pages, emptied from the ends. -/
def strandingEvents : List DirEvent :=
  (List.range 65).map (fun i => .add (.offer 1 (.ofNat i))) ++
    (List.range 32).map (fun i => .delete false true false (.offer 1 (.ofNat i)) 0) ++
    [.delete false true false (.offer 1 64) 2] ++
    (List.range 32).map (fun i => .delete false true false (.offer 1 (.ofNat (32 + i))) 1)

theorem directory_left_behind : ∃ w,
    Run (DirEvent.Takes (.owner 1)) ⟨sampleDirView, []⟩ strandingEvents w ∧
      (∀ keepRoot stable soft entry page,
        .delete keepRoot stable soft entry page ∈ strandingEvents → keepRoot = false) ∧
      w.record = [] ∧ (∃ node, w.view.get (.dir (.owner 1) 0) = some node) ∧
      w.view.dirIsEmpty (.owner 1) = false := by
  have hc : (sampleRun (.owner 1) strandingEvents).any (fun w => w.record.isEmpty &&
      (w.view.get (.dir (.owner 1) 0)).isSome && !w.view.dirIsEmpty (.owner 1)) := by
    decide +kernel
  have hke : strandingEvents.all (fun e => match e with
      | .delete keepRoot _ _ _ _ => !keepRoot
      | .add _ => true) = true := by
    decide +kernel
  obtain ⟨w, hw, hal⟩ := (any_eq_true _ _).mp hc
  simp only [Bool.and_eq_true, List.isEmpty_iff, Bool.not_eq_true', isSome_iff_exists] at hal
  refine ⟨w, run_of_sampleRun hw, fun keepRoot stable soft entry page hm => ?_, hal.1.1,
    hal.1.2, hal.2⟩
  simpa using List.all_eq_true.mp hke _ hm

end Sand
