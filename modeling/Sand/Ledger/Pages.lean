import Sand.Ledger.Checkout
import Sand.Ledger.Directory
import Sand.Library.PagedList

/-!
# The pages of a directory

A directory is a paged list of entry indexes.
-/

namespace Sand

open LedgerM PagedList MonoM Function List Evolution DirNode

/-- Their numbers and entries, in order. -/
abbrev DirPages := List (UInt64 × List Key)

def DirNode.toPage (node : DirNode) : LinkedPage UInt64 Key :=
  ⟨node.indexes, node.indexNext, node.indexPrevious⟩

variable {v v' : View} {root : DirRoot} {page : UInt64}

namespace View

def pages (v : View) (root : DirRoot) (page : UInt64) : Option (LinkedPage UInt64 Key) :=
  (v.get (.dir root page)).map toPage

/-- Nothing but pages of the directory has changed. -/
def OnlyDir (root : DirRoot) (v v' : View) : Prop :=
  ∀ k, (∀ page, k ≠ .dir root page) → v'.get k = v.get k

theorem pages_of_get (h : v'.get = v.get) : v'.pages root = v.pages root := by
  funext page
  rw [pages, pages, h]

theorem pages_update {e : Option DirNode} (h : v'.get = Function.update v.get (.dir root page) e) :
    v'.pages root = Function.update (v.pages root) page (e.map toPage) := by
  funext page'
  rw [pages, h]
  obtain rfl | hpa := eq_or_ne page' page
  · simp
  · rw [update_of_ne (by simpa using hpa), update_of_ne hpa]
    rfl

theorem get_of_pages {pg : LinkedPage UInt64 Key} (h : v.pages root page = some pg) :
    v.get (.dir root page) = some ⟨pg.entries, pg.next, pg.previous⟩ := by
  obtain ⟨node, hn, rfl⟩ := Option.map_eq_some_iff.mp h
  exact hn

end View

/-- The pages, those checked out, and nothing else changed. -/
structure DirView (root : DirRoot) (v0 : View) (d : UInt64 → Option (LinkedPage UInt64 Key))
    (out : List UInt64) (v : View) : Prop where
  ready : v.Ready (out.map (Key.dir root))
  pages : v.pages root = d
  only : View.OnlyDir root v0 v

namespace DirView

variable {v0 : View} {d : UInt64 → Option (LinkedPage UInt64 Key)} {out : List UInt64}
  {pg : LinkedPage UInt64 Key}

theorem start (h : v.Ready []) : DirView root v (v.pages root) [] v := ⟨h, rfl, fun _ _ => rfl⟩

section

variable (h : DirView root v0 d out v)
include h

variable {out' : List UInt64}

theorem mono (hsu : ∀ p ∈ out', p ∈ out) : DirView root v0 d out' v := by
  refine ⟨h.ready.mono fun k hk => ?_, h.pages, h.only⟩
  obtain ⟨p, hp, rfl⟩ := mem_map.mp hk
  exact mem_map_of_mem (hsu p hp)

theorem get (hpa : d page = some pg) :
    v.get (.dir root page) = some ⟨pg.entries, pg.next, pg.previous⟩ :=
  View.get_of_pages (by rw [h.pages, hpa])

theorem get_none (hpa : d page = none) : v.get (.dir root page) = none := by
  rw [← h.pages, View.pages, Option.map_eq_none_iff] at hpa
  exact hpa

theorem of_get (hg : v'.get = v.get)
    (hrd : v'.Ready (out'.map (Key.dir root))) : DirView root v0 d out' v' :=
  ⟨hrd, (View.pages_of_get hg).trans h.pages, fun k hk => by rw [hg]; exact h.only k hk⟩

theorem of_update {e : Option DirNode} (hg : v'.get = Function.update v.get (.dir root page) e)
    (hrd : v'.Ready (out'.map (Key.dir root))) :
    DirView root v0 (Function.update d page (e.map toPage)) out' v' := by
  refine ⟨hrd, ?_, fun k hk => ?_⟩
  · rw [View.pages_update hg, h.pages]
  · rw [hg, update_of_ne (hk page)]
    exact h.only k hk

theorem run_peek (hpa : d page = some pg) :
    ∃ v', (peek (.dir root page) : LedgerM transfer _).run v =
        (.ok (some ⟨pg.entries, pg.next, pg.previous⟩), v') ∧
      DirView root v0 d (page :: out) v' := by
  obtain ⟨v', run, hg, hrd⟩ := exists_run_peek h.ready (h.get hpa)
  exact ⟨v', run, h.of_get hg hrd⟩

theorem run_peek_none (hpa : d page = none) :
    ∃ v', (peek (.dir root page) : LedgerM transfer _).run v = (.ok none, v') ∧
      DirView root v0 d out v' := by
  obtain ⟨v', run, hg, hrd⟩ := exists_run_peek_none h.ready (h.get_none hpa)
  exact ⟨v', run, h.of_get hg hrd⟩

theorem run_update (page : UInt64) (ho : page ∈ out) :
    ∃ v', (update (.dir root page) : LedgerM transfer Unit).run v = (.ok (), v') ∧
      DirView root v0 d out v' := by
  obtain ⟨v', run, hg, hrd⟩ := exists_run_update h.ready (mem_map_of_mem ho)
  exact ⟨v', run, h.of_get hg hrd⟩

theorem run_alter (page : UInt64) (ho : page ∈ out) (hpa : d page = some pg)
    (f : DirNode → DirNode) (g : LinkedPage UInt64 Key → LinkedPage UInt64 Key)
    (hfg : (f ⟨pg.entries, pg.next, pg.previous⟩).toPage = g pg) :
    ∃ v', (alterDir root page f).run v = (.ok (), v') ∧
      DirView root v0 (PagedList.alter d page g) out v' := by
  obtain ⟨v', run, hg, hrd⟩ := exists_run_alter (E := transfer)
    (f := f) h.ready (mem_map_of_mem ho) (h.get hpa)
  refine ⟨v', run, ?_⟩
  rw [PagedList.alter, hpa, Option.map_some, ← hfg]
  exact h.of_update hg hrd

theorem run_insert (hpa : d page = none) (node : DirNode) :
    ∃ v', (insertDir root page node).run v = (.ok (), v') ∧
      DirView root v0 (Function.update d page (some node.toPage)) (page :: out) v' := by
  obtain ⟨v', run, hg, hrd⟩ := exists_run_insert (E := transfer) h.ready (h.get_none hpa)
  exact ⟨v', run, h.of_update hg hrd⟩

end

theorem run_erase (h : DirView root v0 d (page :: out) v) (ho : page ∉ out) :
    ∃ v', (eraseDir root page).run v = (.ok (), v') ∧
      DirView root v0 (Function.update d page none) out v' := by
  obtain ⟨v', run, hg, hrd⟩ := exists_run_erase (E := transfer) h.ready (by
    simpa using ho)
  exact ⟨v', run, h.of_update hg hrd⟩

end DirView

/-! ### Adding an entry -/

/-- To the last page, or to a new one if that is full. -/
def DirPages.add (ps : DirPages) (entry : Key) : Option (UInt64 × DirPages) :=
  match ps.getLast? with
  | none => some (0, [(0, [entry])])
  | some (p, es) =>
    if es.length ≠ dirNodeMax then some (p, ps.dropLast ++ [(p, es ++ [entry])])
    else if p + 1 = 0 then none
    else some (p + 1, ps ++ [(p + 1, [entry])])

def DirPages.Sorted (ps : DirPages) : Prop := (ps.map Prod.fst).Pairwise (· < ·)

variable {p : UInt64}

theorem lt_succ_of_ne (hf : p + 1 ≠ 0) : p < p + 1 := by
  rw [UInt64.lt_iff_toNat_lt, UInt64.toNat_add]
  have hne : p.toNat + 1 ≠ 2 ^ 64 := by
    intro heq
    apply hf
    rw [← UInt64.toNat_inj, UInt64.toNat_add]
    simp [heq]
  have := p.toNat_lt
  rw [UInt64.toNat_one, Nat.mod_eq_of_lt (by omega)]
  omega

variable {xs : DirPages} {es : List Key}

theorem DirPages.Sorted.succ_notMem (h : DirPages.Sorted (xs ++ [(p, es)]))
    (hf : p + 1 ≠ 0) : p + 1 ∉ (xs ++ [(p, es)]).map Prod.fst := by
  have hlt := lt_succ_of_ne hf
  intro hm
  simp only [map_append, map_cons, map_nil, mem_append, mem_singleton] at hm
  rcases hm with hm | heq
  · have hs := h
    simp only [DirPages.Sorted, map_append, pairwise_append, map_cons] at hs
    have := hs.2.2 _ hm p (by simp)
    exact absurd this (UInt64.lt_asymm hlt)
  · rw [heq] at hlt
    exact absurd hlt (UInt64.lt_irrefl _)

variable {ps : DirPages}

theorem dirAdd_run_nil (hrd : v.Ready []) (hkp : Kept 0 (v.pages root) []) (ent : Key) :
    ∃ v' d', (dirAdd root ent).run v = (.ok (.tesSUCCESS, 0), v') ∧
      DirView root v d' [] v' ∧ Kept 0 d' [(0, [ent])] := by
  have hno := hkp.absent 0 (by simp)
  obtain ⟨v1, hrun1, h1⟩ := (DirView.start hrd).run_peek_none hno
  obtain ⟨v2, hrun2, h2⟩ := h1.run_insert hno {}
  obtain ⟨v3, hrun3, h3⟩ := h2.run_alter 0 mem_cons_self (update_self ..)
    (fun node => { node with indexes := [] ++ [ent] }) (fun pg => { pg with entries := [ent] })
    rfl
  refine ⟨v3, _, ?_, h3.mono (by simp), ?_⟩
  · rw [dirAdd, run_bind_ok hrun1]
    rw [run_bind_ok hrun2, run_bind, hrun3]
    rfl
  · have hst : Kept (0 : UInt64) _ ([] ++ (0, []) :: []) := hkp.start []
    exact hst.setEntries [ent]

theorem run_lastPage {β : Type} {v0 : View}
    {d : UInt64 → Option (LinkedPage UInt64 Key)} (h : DirView root v0 d [0] v)
    (hkp : Kept 0 d (xs ++ [(p, es)])) {sr : DirNode}
    (hr : v.get (.dir root 0) = some sr) :
    sr.indexPrevious = p ∧ ∃ v' node, node.indexes = es ∧ DirView root v0 d [p, 0] v' ∧
      ∀ next : DirNode → LedgerM transfer β, (if p = 0 then pure sr >>= next
          else peek (.dir root p) >>= fun found => deref found >>= next).run v =
            (next node).run v' := by
  have hpa := hkp.chain.page_eq
  have hl : PagedList.last 0 (xs ++ [(p, es)]) = p := by simp [PagedList.last]
  have hpr : sr.indexPrevious = p := by
    obtain ⟨es0, rest, hps⟩ := hkp.exists_head (by simp)
    have hc := hkp.chain
    rw [hl, hps] at hc
    have hg := h.get hc.1
    rw [hr] at hg
    cases hg
    rfl
  refine ⟨hpr, ?_⟩
  obtain rfl | h0 := eq_or_ne p 0
  · have hes : sr.indexes = es := by
      have hg := h.get hpa
      rw [hr] at hg
      exact congrArg DirNode.indexes (Option.some.inj hg)
    refine ⟨v, sr, hes, h.mono (by simp), fun next => ?_⟩
    rfl
  · obtain ⟨v', run, h'⟩ := h.run_peek hpa
    refine ⟨v', ⟨es, 0, PagedList.last (PagedList.last 0 (xs ++ [(p, es)])) xs⟩, rfl, h',
      fun next => ?_⟩
    rw [if_neg h0, run_bind, run]
    rfl

theorem dirAdd_run_append {es : List Key} (hrd : v.Ready [])
    (hkp : Kept 0 (v.pages root) (xs ++ [(p, es)])) (hro : es.length ≠ dirNodeMax)
    (ent : Key) :
    ∃ v' d', (dirAdd root ent).run v = (.ok (.tesSUCCESS, p), v') ∧
      DirView root v d' [] v' ∧ Kept 0 d' (xs ++ [(p, es ++ [ent])]) := by
  obtain ⟨es0, rest, hps⟩ := hkp.exists_head (by simp)
  have hc := hkp.chain
  rw [hps] at hc
  obtain ⟨v1, hrun1, h1⟩ := (DirView.start hrd).run_peek hc.1
  obtain ⟨hpr, v2, node, rfl, h2, hrun2⟩ := run_lastPage h1 hkp (h1.get hc.1)
  dsimp only at hpr
  obtain ⟨v3, hrun3, h3⟩ := h2.run_update p mem_cons_self
  obtain ⟨v4, hrun4, h4⟩ := h3.run_alter p mem_cons_self hkp.chain.page_eq
    (fun page => { page with indexes := node.indexes ++ [ent] })
    (fun pg => { pg with entries := node.indexes ++ [ent] }) rfl
  refine ⟨v4, _, ?_, h4.mono (by simp), hkp.setEntries _⟩
  rw [dirAdd, run_bind_ok hrun1]
  dsimp only
  rw [hpr] at hrun2 ⊢
  rw [hrun2, if_pos hro, run_bind_ok hrun3, run_bind, hrun4]
  rfl

theorem dirAdd_run_new {es : List Key} (hrd : v.Ready [])
    (hkp : Kept 0 (v.pages root) (xs ++ [(p, es)])) (hro : es.length = dirNodeMax)
    (hs : DirPages.Sorted (xs ++ [(p, es)])) (ent : Key) :
    ∃ v' d', (dirAdd root ent).run v =
        (.ok (if p + 1 = 0 then (.tecDIR_FULL, 0) else (.tesSUCCESS, p + 1)), v') ∧
      DirView root v d' [] v' ∧
      if p + 1 = 0 then d' = v.pages root
      else Kept 0 d' (xs ++ [(p, es)] ++ [(p + 1, [ent])]) := by
  obtain ⟨es0, rest, hps⟩ := hkp.exists_head (by simp)
  have hc := hkp.chain
  rw [hps] at hc
  obtain ⟨v1, hrun1, h1⟩ := (DirView.start hrd).run_peek hc.1
  obtain ⟨hpr, v2, node, hn, h2, hrun2⟩ := run_lastPage h1 hkp (h1.get hc.1)
  dsimp only at hpr
  by_cases hf : p + 1 = 0
  · simp only [if_pos hf]
    refine ⟨v2, _, ?_, h2.mono (by simp), rfl⟩
    rw [dirAdd, run_bind_ok hrun1]
    dsimp only
    rw [hpr] at hrun2 ⊢
    rw [hrun2, if_neg (by simp [hn, hro]), if_pos hf]
    rfl
  · simp only [if_neg hf]
    have hnw := hs.succ_notMem hf
    obtain ⟨v3, hrun3, h3⟩ := h2.run_alter p mem_cons_self hkp.chain.page_eq
      (fun page => { page with indexNext := p + 1 }) (fun pg => { pg with next := p + 1 }) rfl
    obtain ⟨v4, hrun4, h4⟩ := h3.run_update p mem_cons_self
    obtain ⟨pg, hpg⟩ : ∃ pg, alter (v.pages root) p (fun pg => { pg with next := p + 1 }) 0 =
        some pg := by
      obtain rfl | h0 := eq_or_ne 0 p
      · exact ⟨_, alter_self hkp.chain.page_eq _⟩
      · exact ⟨_, (alter_of_ne h0 _).trans hc.1⟩
    obtain ⟨v5, hrun5, h5⟩ := h4.run_alter 0 (by simp) hpg
      (fun page => { page with indexPrevious := p + 1 }) (fun pg => { pg with previous := p + 1 })
      rfl
    obtain ⟨v6, hrun6, h6⟩ := h5.run_update 0 (by simp)
    have hno : alter (alter (v.pages root) p fun pg => { pg with next := p + 1 }) 0
        (fun pg => { pg with previous := p + 1 }) (p + 1) = none := by
      rw [alter_of_ne hf, alter_of_ne fun heq => hnw (by rw [heq]; simp)]
      exact hkp.absent _ hnw
    obtain ⟨v7, hrun7, h7⟩ := h6.run_insert hno
      { indexPrevious := if p + 1 = 1 then 0 else p + 1 - 1 }
    obtain ⟨v8, hrun8, h8⟩ := h7.run_alter (p + 1) mem_cons_self
      (update_self ..) (fun page => { page with indexes := [] ++ [ent] })
      (fun pg => { pg with entries := [ent] })
      rfl
    refine ⟨v8, _, ?_, h8.mono (by simp), ?_⟩
    · rw [dirAdd, run_bind_ok hrun1]
      dsimp only
      rw [hpr] at hrun2 ⊢
      rw [hrun2, if_neg (by simp [hn, hro]), if_neg hf, run_bind_ok hrun3,
        run_bind_ok hrun4, run_bind_ok hrun5, run_bind_ok hrun6, run_bind_ok hrun7, run_bind, hrun8]
      rfl
    · have hpe : (if p + 1 = 1 then 0 else p + 1 - 1) = p := by
        split
        · next hon =>
            have hbk := UInt64.add_sub_cancel p 1
            rw [hon] at hbk
            exact hbk
        · exact UInt64.add_sub_cancel p 1
      rw [hpe]
      exact (hkp.addPage hnw []).setEntries [ent]

end Sand
