import Sand.Ledger.DirHistory

/-!
# Paging through an owner directory
-/

namespace Sand

open PagedList List Option Prod

/-- The loops over pages; `stop` once they return. -/
def View.eachPage {σ : Type} (v : View) (root : DirRoot) (visit : σ → Key → σ) (stop : σ → Bool) :
    ℕ → UInt64 → σ → Option σ
  | 0, _, _ => none
  | fuel + 1, pos, s =>
    match v.get (.dir root pos) with
    | none => some s
    | some sle =>
      let s := sle.indexes.foldl visit s
      if stop s ∨ sle.indexNext = 0 then some s
      else v.eachPage root visit stop fuel sle.indexNext s

/-- The keys of the entries that `f` is called on. -/
def View.forEachItem (v : View) (fuel : ℕ) (id : AccountID) : Option (List Key) :=
  v.eachPage (.owner id) (fun calls key => calls ++ [key]) (fun _ => false) fuel 0 []

/-- What `f` was called on; there is no limit once the function returns. -/
structure ItemWalk where
  calls : List Key
  found : Bool
  limit : Option ℕ

/-- One key of a page; the loop for `after = 0` is the other one with `found` set. -/
def ItemWalk.visit (after : Option Key) (f : Key → Bool) (w : ItemWalk) (key : Key) : ItemWalk :=
  match w.limit with
  | none => w
  | some limit =>
    if !w.found then { w with found := after = some key }
    else if f key then ⟨w.calls ++ [key], w.found, if limit ≤ 1 then none else some (limit - 1)⟩
    else { w with calls := w.calls ++ [key] }

open ItemWalk

/-- The calls, and what is returned; `after` is absent if it is zero. -/
def View.forEachItemAfter (v : View) (fuel : ℕ) (id : AccountID) (after : Option Key)
    (hint : UInt64) (limit : ℕ) (f : Key → Bool) : Option (List Key × Bool) :=
  let currentIndex :=
    if ∃ key ∈ after, ∃ dir ∈ v.get (.dir (.owner id) hint), key ∈ dir.indexes then hint else 0
  (v.eachPage (.owner id) (visit after f) (fun w => w.limit.isNone) fuel currentIndex
    ⟨[], after.isNone, some limit⟩).map fun w => (w.calls, w.found)

/-- What `f` is called on for some hint. -/
def View.PageOf (v : View) (fuel : ℕ) (id : AccountID) (limit : ℕ) (f : Key → Bool)
    (after : Option Key) (calls : List Key) : Prop :=
  ∃ hint, v.forEachItemAfter fuel id after hint limit f = some (calls, true)

/-- All keys, or those up to the one with which as many are accepted as the limit. -/
def UpTo (f : Key → Bool) (limit : ℕ) (keys calls : List Key) : Prop :=
  calls <+: keys ∧ ((calls = keys ∧ calls.countP f < limit) ∨
    calls.countP f = limit ∧ ∃ q key, calls = q ++ [key] ∧ f key)

/-- Pages, each continued from the last key that was accepted. -/
inductive Paged (page : Option Key → List Key → Prop) (f : Key → Bool) (limit : ℕ) :
    Option Key → List (List Key) → Prop where
  | last {after calls} (h : page after calls) (hlt : calls.countP f < limit) :
      Paged page f limit after [calls]
  | more {after q key rest} (h : page after (q ++ [key])) (heq : (q ++ [key]).countP f = limit)
      (hrest : Paged page f limit (some key) rest) :
      Paged page f limit after ((q ++ [key]) :: rest)

variable {f : Key → Bool} {after : Option Key} {limit : ℕ} {keys calls : List Key} {key : Key}

theorem UpTo.cons (h : UpTo f limit keys calls) (key : Key) :
    UpTo f (limit + if f key then 1 else 0) (key :: keys) (key :: calls) := by
  refine ⟨cons_prefix_cons.mpr ⟨rfl, h.1⟩, ?_⟩
  rw [countP_cons]
  rcases h.2 with ⟨rfl, hlt⟩ | ⟨heq, q, k, rfl, hk⟩
  · exact .inl ⟨rfl, by omega⟩
  · exact .inr ⟨by omega, key :: q, k, rfl, hk⟩

theorem foldl_returned (w : ItemWalk) (h : w.limit.isNone) (keys : List Key) :
    keys.foldl (visit after f) w = w := by
  induction keys with
  | nil => rfl
  | cons key keys ih =>
    rw [foldl_cons, visit, isNone_iff_eq_none.mp h]
    exact ih

/-- Before the key it starts after, nothing is done. -/
theorem foldl_before (h : ∀ key ∈ keys, after ≠ some key) :
    keys.foldl (visit after f) ⟨[], false, some limit⟩ = ⟨[], false, some limit⟩ := by
  induction keys with
  | nil => rfl
  | cons key keys ih =>
    rw [forall_mem_cons] at h
    simpa [visit, h.1] using ih h.2

theorem foldl_found (f : Key → Bool) (after : Option Key) (keys : List Key)
    (hl : 1 ≤ limit) (pre : List Key) : ∃ calls, UpTo f limit keys calls ∧
      ∃ l, keys.foldl (visit after f) ⟨pre, true, some limit⟩ = ⟨pre ++ calls, true, l⟩ := by
  induction keys generalizing pre limit with
  | nil => exact ⟨[], ⟨prefix_rfl, .inl ⟨rfl, hl⟩⟩, some limit, by simp⟩
  | cons key keys ih =>
    rw [foldl_cons]
    by_cases hf : f key
    · by_cases h1 : limit ≤ 1
      · obtain rfl : limit = 1 := by omega
        refine ⟨[key], ⟨by simp, .inr ⟨by simp [hf], [], key, rfl, hf⟩⟩, none, ?_⟩
        simp [visit, hf, foldl_returned]
      · obtain ⟨calls, hu, l, hw⟩ := ih (show 1 ≤ limit - 1 by omega) (pre ++ [key])
        have hc := hu.cons key
        rw [if_pos hf, Nat.sub_add_cancel hl] at hc
        exact ⟨key :: calls, hc, l, by simpa [visit, hf, h1] using hw⟩
    · obtain ⟨calls, hu, l, hw⟩ := ih hl (pre ++ [key])
      have hc := hu.cons key
      rw [if_neg hf] at hc
      exact ⟨key :: calls, hc, l, by simpa [visit, hf] using hw⟩

section Pages

variable {v : View} {σ : Type} {visit : σ → Key → σ} {stop : σ → Bool}
  (hs : ∀ s, stop s → ∀ keys : List Key, keys.foldl visit s = s)
include hs

theorem eachPage_suffix {root : DirRoot} {xs rest : DirPages} {p : UInt64} {es : List Key} {fuel : ℕ}
    (s : σ) (hk : Kept 0 (v.pages root) (xs ++ (p, es) :: rest)) (hf : rest.length < fuel) :
    v.eachPage root visit stop fuel p s = some ((es ++ entries rest).foldl visit s) := by
  induction rest generalizing xs p es fuel s with
  | nil =>
    obtain ⟨fuel, rfl⟩ := Nat.exists_eq_add_of_lt hf
    simp [View.eachPage, View.get_of_pages hk.chain.page_eq, first]
  | cons x rest ih =>
    obtain ⟨fuel, rfl⟩ := Nat.exists_eq_add_of_lt hf
    -- the first page has the number 0, and no other
    have hx : x.1 ≠ 0 := by
      have hn := hk.nodup
      have hh := hk.head
      cases xs <;> simp [first] at hn hh <;> grind
    rw [View.eachPage, View.get_of_pages hk.chain.page_eq, foldl_append]
    dsimp only [first]
    split_ifs with hr
    · rw [hs _ (hr.resolve_right hx)]
    · rw [append_cons] at hk
      exact ih _ hk (by simp; omega)

theorem eachPage_kept {root : DirRoot} {ps : DirPages} {fuel : ℕ}
    (hk : Kept 0 (v.pages root) ps) (hf : ps.length < fuel) (s : σ) :
    v.eachPage root visit stop fuel 0 s = some ((entries ps).foldl visit s) := by
  cases ps with
  | nil =>
    obtain ⟨fuel, rfl⟩ := Nat.exists_eq_add_of_lt hf
    simp [View.eachPage, map_eq_none_iff.mp (hk.absent 0 not_mem_nil)]
  | cons x rest =>
    obtain ⟨p, es⟩ := x
    obtain rfl : p = 0 := hk.head
    exact eachPage_suffix hs s (show Kept _ _ ([] ++ _) from hk) (Nat.lt_of_succ_lt hf)

end Pages

section Directory

variable {v : View} {id : AccountID} {ps : DirPages} {fuel : ℕ}
  (hk : Kept 0 (v.pages (.owner id)) ps) (hf : ps.length < fuel)
include hk hf

/-- The walk is over all entries, or from a page with the key on. -/
theorem after_walk (after : Option Key) (hint : UInt64) (limit : ℕ) (f : Key → Bool) :
    ∃ pre keys, entries ps = pre ++ keys ∧ (pre = [] ∨ ∃ key ∈ keys, after = some key) ∧
      v.forEachItemAfter fuel id after hint limit f =
        (some (keys.foldl (visit after f) ⟨[], after.isNone, some limit⟩)).map
          fun w => (w.calls, w.found) := by
  unfold View.forEachItemAfter
  dsimp only
  split_ifs with hh
  · obtain ⟨key, ha, dir, hd, hm⟩ := hh
    have hp : v.pages (.owner id) hint = some dir.toPage := by rw [View.pages, hd]; rfl
    obtain ⟨⟨p, es⟩, hin, heq⟩ := mem_map.mp (hk.isSome_iff.mp (by rw [hp]; rfl))
    obtain rfl : p = hint := heq
    obtain ⟨xs, ys, rfl⟩ := append_of_mem hin
    have hes := hk.chain.page_eq.symm.trans hp
    rw [some.injEq, DirNode.toPage, LinkedPage.mk.injEq] at hes
    obtain ⟨rfl, -, -⟩ := hes
    refine ⟨entries xs, dir.indexes ++ entries ys, by simp, .inr ⟨key, by simp [hm], ha⟩, ?_⟩
    rw [eachPage_suffix foldl_returned _ hk (by simp at hf; omega)]
  · refine ⟨[], entries ps, rfl, .inl rfl, ?_⟩
    rw [eachPage_kept foldl_returned hk hf]

variable (hn : (entries ps).Nodup) (hl : 1 ≤ limit)
include hn hl

theorem after_spec {pre post : List Key} (hps : entries ps = pre ++ after.toList ++ post)
    (hr : after = none → pre = []) (hint : UInt64) :
    ∃ calls, v.forEachItemAfter fuel id after hint limit f = some (calls, true) ∧
      UpTo f limit post calls := by
  obtain ⟨pre', keys, heq, hs, hw⟩ := after_walk hk hf after hint limit f
  obtain ⟨calls, hu, l, hc⟩ := foldl_found f after post hl []
  refine ⟨calls, ?_, hu⟩
  cases after with
  | none =>
    obtain rfl := hs.resolve_right (by rintro ⟨_, _, ⟨⟩⟩)
    obtain rfl : keys = post := by simpa [hr rfl, heq] using hps
    rw [hw, isNone_none, hc]
    rfl
  | some key =>
    rw [toList_some, append_assoc, singleton_append] at hps
    have hm : key ∈ keys := by
      rcases hs with rfl | ⟨_, hm, ⟨⟩⟩
      · rw [nil_append] at heq
        simp [← heq, hps]
      · exact hm
    obtain ⟨a, b, rfl⟩ := append_of_mem hm
    rw [hps] at hn heq
    have hd := (nodup_cons.mp (nodup_middle.mp hn)).1
    rw [mem_append, not_or] at hd
    rw [← append_assoc, append_cons_inj_of_notMem hd.1 hd.2] at heq
    obtain ⟨rfl, -, rfl⟩ := heq
    have ha : ∀ k ∈ a, some key ≠ some k := by
      rintro k hka ⟨⟩
      exact hd.1 (mem_append_right _ hka)
    rw [hw, foldl_append, foldl_cons, isNone_some, foldl_before ha]
    simp [visit, hc]

theorem Paged.flatten {pages : List (List Key)} {pre post : List Key}
    (h : Paged (v.PageOf fuel id limit f) f limit after pages)
    (hps : entries ps = pre ++ after.toList ++ post) (hr : after = none → pre = []) :
    pages.flatten = post := by
  induction h generalizing pre post with
  | last h hlt =>
    obtain ⟨hint, h⟩ := h
    obtain ⟨_, hc, -, hu⟩ := after_spec hk hf hn hl hps hr hint
    cases h.symm.trans hc
    obtain ⟨rfl, -⟩ := hu.resolve_right fun hu => hlt.ne hu.1
    exact append_nil _
  | @more after q key _ h _ _ ih =>
    obtain ⟨hint, h⟩ := h
    obtain ⟨_, hc, ⟨post, rfl⟩, -⟩ := after_spec hk hf hn hl hps hr hint
    cases h.symm.trans hc
    have hps : entries ps = (pre ++ after.toList ++ q) ++ [key] ++ post := by simpa using hps
    rw [flatten_cons, ih hps (by rintro ⟨⟩)]

/-- `f` is called on what follows the key, up to the limit; pages give every entry. -/
theorem forEachItemAfter_pages (f : Key → Bool) : v.forEachItem fuel id = some (entries ps) ∧
    (∀ after pre post hint, entries ps = pre ++ after.toList ++ post → (after = none → pre = []) →
      ∃ calls, v.forEachItemAfter fuel id after hint limit f = some (calls, true) ∧
        UpTo f limit post calls) ∧
    (∀ hint, ∀ key ∉ entries ps,
      v.forEachItemAfter fuel id (some key) hint limit f = some ([], false)) ∧
    ∀ pages, Paged (v.PageOf fuel id limit f) f limit none pages → pages.flatten = entries ps := by
  refine ⟨?_, fun _ _ _ hint hps hr => after_spec hk hf hn hl hps hr hint,
    fun hint key hno => ?_, fun pages hp => hp.flatten hk hf hn hl rfl fun _ => rfl⟩
  · rw [View.forEachItem, eachPage_kept (by simp) hk hf]
    simp [← flatMap_def]
  · obtain ⟨pre, keys, heq, hs, hw⟩ := after_walk hk hf (some key) hint limit f
    have hb : ∀ k ∈ keys, some key ≠ some k := by
      rintro k hm ⟨⟩
      exact hno (heq ▸ mem_append_right _ hm)
    rw [hw, isNone_some, foldl_before hb]
    rfl

end Directory

def twoOffers : View := { sampleDirView with
  base := AList.insert (.dir (.owner 1) 0) { indexes := [.offer 1 1, .offer 1 2] } ∅ }

theorem kept_twoOffers :
    Kept 0 (twoOffers.pages (.owner 1)) [(0, [.offer 1 1, .offer 1 2])] := by
  refine ⟨⟨rfl, trivial⟩, fun p hp => ?_, by decide, rfl⟩
  change (twoOffers.base.lookup (.dir (.owner 1) p)).map DirNode.toPage = none
  rw [twoOffers, AList.lookup_insert_ne (by simpa using hp)]
  rfl

theorem twoOffers_continued : ∃ calls,
    twoOffers.forEachItemAfter 2 1 (some (.offer 1 1)) 7 5 (fun _ => true) = some (calls, true) ∧
      UpTo (fun _ => true) 5 [.offer 1 2] calls :=
  (forEachItemAfter_pages kept_twoOffers (by decide) (by decide) (by decide) _).2.1 _ [] _ 7 rfl
    (by rintro ⟨⟩)

/-- After any additions and removals, going through the owner's directory at once, in pages of any
size, or entry by entry gives the entries that are recorded, each once and in one order. -/
theorem readers_agree_of_history {v : View} {id : AccountID} {es : List DirEvent} {w : DirWorld}
    (hrd : v.Ready []) (has : ∀ page, v.get (.dir (.owner id) page) = none)
    (h : Run (DirEvent.Takes (.owner id)) ⟨v, []⟩ es w) :
    ∃ l : List Key, l.Nodup ∧ (∀ entry, entry ∈ l ↔ entry ∈ w.record.map fst) ∧
      ∀ fuel, w.view.flatten.keys.length < fuel → w.view.forEachItem fuel id = some l ∧
        (∀ limit f pages, 1 ≤ limit →
          Paged (w.view.PageOf fuel id limit f) f limit none pages → pages.flatten = l) ∧
        (l ≠ [] → l.length < fuel → w.view.dirEntries (.owner id) fuel = .ok l) := by
  obtain ⟨ps, hps⟩ := h.preserves (fun w => ∃ ps, w.Consistent (.owner id) ps)
    (fun _ _ _ hst hi => DirWorld.Consistent.step hi hst) (DirWorld.Consistent.start hrd has)
  refine ⟨entries ps, hps.ordered.nodup, fun _ => hps.mem_entries_iff, fun fuel hf => ?_⟩
  have hl := (length_le_of_kept hps.kept).trans_lt hf
  refine ⟨?_, fun limit f pages hli hpa => ?_, fun hne hfu => ?_⟩
  · rw [View.forEachItem, eachPage_kept (by simp) hps.kept hl]
    simp [← flatMap_def]
  · exact hpa.flatten hps.kept hl hps.ordered.nodup hli rfl fun _ => rfl
  · refine hps.dirEntries ?_ hfu
    rintro rfl
    exact hne entries_nil

theorem one_offer_left : ∃ w l fuel, Run (DirEvent.Takes (.owner 1)) ⟨sampleDirView, []⟩
      [.add (.offer 1 1), .add (.offer 1 2), .delete false false true (.offer 1 1) 0] w ∧
    w.record = [(.offer 1 2, 0)] ∧ (∀ entry, entry ∈ l ↔ entry = .offer 1 2) ∧
    w.view.forEachItem fuel 1 = some l := by
  obtain ⟨w, hw, hre⟩ : ∃ w, sampleRun (.owner 1)
      [.add (.offer 1 1), .add (.offer 1 2), .delete false false true (.offer 1 1) 0] = some w ∧
        w.record = [(.offer 1 2, 0)] :=
    ⟨_, rfl, by decide +kernel⟩
  have hr := run_of_sampleRun hw
  obtain ⟨l, -, hm, hl⟩ := readers_agree_of_history ready_sampleDirView
    (fun _ => get_sampleDirView _) hr
  refine ⟨w, l, _, hr, hre, fun entry => ?_, (hl _ (Nat.lt_succ_self _)).1⟩
  rw [hm, hre]
  simp

end Sand
