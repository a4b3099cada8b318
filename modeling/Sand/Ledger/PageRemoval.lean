import Sand.Ledger.Pages

/-!
# Removal from a directory

The page loses the entry, and if that leaves it empty it may go, with the last one besides it.
-/

namespace Sand

variable {es : List Key} {node : DirNode}

open LedgerM PagedList MonoM Function List DirPages Evolution

variable {entry : Key}

theorem removeIndex_perm (h : entry ∈ es) (stb : Bool) :
    (removeIndex es entry stb).Perm (es.erase entry) := by
  cases stb with
  | true => exact List.Perm.refl _
  | false =>
    obtain ⟨xs, ys, rfl, hxs⟩ := eq_append_cons_of_mem h
    have hi : (xs ++ entry :: ys).idxOf entry = xs.length := by
      rw [idxOf_append_of_notMem hxs, idxOf_cons_self, Nat.add_zero]
    have her : (xs ++ entry :: ys).erase entry = xs ++ ys := by
      rw [erase_append_right _ hxs, erase_cons_head]
    have hs : ∀ last, (xs ++ entry :: ys).set xs.length last = xs ++ last :: ys := by
      intro last
      rw [set_append_right _ _ (le_refl _), Nat.sub_self, set_cons_zero]
    rw [her, removeIndex, hi]
    rcases eq_nil_or_concat ys with rfl | ⟨zs, last, rfl⟩
    · simp [hs]
    rw [concat_eq_append] at hs ⊢
    have hl : (xs ++ entry :: (zs ++ [last])).getLast? = some last := by
      rw [← cons_append, ← append_assoc, List.getLast?_concat]
    have hd : (xs ++ last :: (zs ++ [last])).dropLast = xs ++ last :: zs := by
      rw [← cons_append, ← append_assoc, dropLast_concat]
    simp only [Bool.false_eq_true, ↓reduceIte, hl, hs, hd]
    refine List.Perm.append_left xs ?_
    exact (perm_append_singleton last zs).symm

variable (keepRoot : Bool)

def DirPages.prune : DirPages → UInt64 → DirPages → DirPages
  | [], _, [] => []
  | [], p, [(q, es)] => if !keepRoot && es.isEmpty then [] else [(p, []), (q, es)]
  | [], p, ys => (p, []) :: ys
  | [(q, es)], p, [] => if !keepRoot && es.isEmpty then [] else [(q, es), (p, [])]
  | xs, p, [] => xs ++ [(p, [])]
  | xs, _, ys => xs ++ ys

variable {root : DirRoot} {v v0 : View} {d : UInt64 → Option (LinkedPage UInt64 Key)}
  {p : UInt64} {xs ys : DirPages}

variable {es' : List Key} {out : List UInt64}

theorem run_eraseBoth {q : UInt64} (h : DirView root v0 d out v) (ho : 0 ∈ out ∧ q ∈ out)
    (hk : Kept 0 d [(0, es), (q, es')]) :
    ∃ v' d', (eraseDir root 0 >>= fun _ => eraseDir root q >>= fun _ => pure .tesSUCCESS :
        LedgerM transfer TER).run v = (.ok .tesSUCCESS, v') ∧
      DirView root v0 d' [] v' ∧ Kept 0 d' [] := by
  have hq : 0 ≠ q := by simpa using hk.nodup
  have hbo : DirView root v0 d [0, q] v := h.mono (by simpa using ho)
  obtain ⟨v1, hrun1, h1⟩ := hbo.run_erase (by simpa using hq)
  obtain ⟨v2, hrun2, h2⟩ := h1.run_erase (by simp)
  refine ⟨v2, _, ?_, h2, kept_nil fun p => ?_⟩
  · rw [run_bind_ok hrun1, run_bind, hrun2]
    rfl
  obtain rfl | hpq := eq_or_ne p q
  · exact update_self ..
  rw [update_of_ne hpq]
  obtain rfl | h0 := eq_or_ne p 0
  · exact update_self ..
  · rw [update_of_ne h0]
    exact hk.absent p (by simp [hpq, h0])

theorem run_eraseIfEmpty {q look : UInt64} {pg : LinkedPage UInt64 Key}
    (h : DirView root v0 d out v) (hlo : d look = some pg)
    (ho : 0 ∈ look :: out ∧ q ∈ look :: out) (hk : Kept 0 d [(0, es), (q, es')]) :
    ∃ v' d', (peek (.dir root look) >>= fun found => deref found >>= fun sle =>
        if sle.indexes.isEmpty then
          eraseDir root 0 >>= fun _ => eraseDir root q >>= fun _ => pure .tesSUCCESS
        else pure .tesSUCCESS : LedgerM transfer TER).run v = (.ok .tesSUCCESS, v') ∧
      DirView root v0 d' [] v' ∧
      Kept 0 d' (if pg.entries.isEmpty then [] else [(0, es), (q, es')]) := by
  obtain ⟨v1, hrun1, h1⟩ := h.run_peek hlo
  rw [run_bind_ok hrun1, deref_some]
  change ∃ v' d', (if pg.entries.isEmpty then _ else _ : LedgerM transfer TER).run v1 = _ ∧ _ ∧ _
  by_cases he : pg.entries.isEmpty
  · simp only [he, ↓reduceIte]
    exact run_eraseBoth h1 ho hk
  · simp only [he, Bool.false_eq_true, ↓reduceIte]
    exact ⟨v1, d, rfl, h1.mono (by simp), hk⟩

theorem dirPrune_run_first (h : DirView root v0 d [0] v)
    (hk : Kept 0 d ((0, []) :: ys)) (hn : node.indexNext = first 0 ys)
    (hpr : node.indexPrevious = last 0 ys) :
    ∃ v' d', (dirPrune root 0 keepRoot node).run v = (.ok .tesSUCCESS, v') ∧
      DirView root v0 d' [] v' ∧ Kept 0 d' (prune keepRoot [] 0 ys) := by
  have hnd := hk.nodup
  rw [dirPrune, hn, hpr, if_pos rfl]
  match ys with
  | [] =>
    obtain ⟨v1, hrun1, h1⟩ := h.run_erase (by simp)
    refine ⟨v1, _, ?_, h1, kept_nil fun p => ?_⟩
    · simp only [last, ↓reduceIte, run_bind, hrun1]
      rfl
    obtain rfl | h0 := eq_or_ne p 0
    · exact update_self ..
    · rw [update_of_ne h0]
      exact hk.absent p (by simp [h0])
  | [(q, es)] =>
    have hq : q ≠ 0 := by
      have : 0 ≠ q := by simpa using hnd
      exact this.symm
    have hpg : d q = some ⟨es, 0, 0⟩ := hk.chain.2.1
    rw [prune, if_neg (show ¬last 0 [(q, es)] = 0 from hq)]
    cases keepRoot with
    | true => exact ⟨v, d, rfl, h.mono (by simp), hk⟩
    | false =>
      have hbo : (!false && decide (last 0 [(q, es)] = first 0 [(q, es)])) := by
        simp [last, first]
      rw [if_pos hbo]
      exact run_eraseIfEmpty h hpg (by simp [first]) hk
  | (q, es) :: (q', es') :: ys =>
    have hm : last 0 ((q, es) :: (q', es') :: ys) ∈ ((q', es') :: ys).map Prod.fst :=
      last_mem q (by simp)
    simp only [map_cons, nodup_cons] at hnd hm
    have hne : last 0 ((q, es) :: (q', es') :: ys) ≠ first 0 ((q, es) :: (q', es') :: ys) := by
      intro heq
      rw [heq] at hm
      exact hnd.2.1 hm
    have h0 : last 0 ((q, es) :: (q', es') :: ys) ≠ 0 := by
      intro heq
      rw [heq] at hm
      exact hnd.1 (mem_cons_of_mem _ hm)
    rw [if_neg h0, if_neg (by simp [hne])]
    exact ⟨v, d, rfl, h.mono (by simp), hk⟩

theorem dirPrune_run_last {es0 : List Key}
    (h : DirView root v0 d [p] v) (hk : Kept 0 d ((0, es0) :: xs ++ [(p, [])]))
    (hn : node.indexNext = 0) (hpr : node.indexPrevious = last 0 xs) :
    ∃ v' d', (dirPrune root p keepRoot node).run v = (.ok .tesSUCCESS, v') ∧
      DirView root v0 d' [] v' ∧ Kept 0 d' (prune keepRoot ((0, es0) :: xs) p []) := by
  have hnd := hk.nodup
  have hp : p ≠ 0 := by
    rintro rfl
    simp at hnd
  rw [dirPrune, hn, hpr, if_neg hp, if_neg (by simp)]
  match xs with
  | [] =>
    have hpg : d 0 = some ⟨es0, p, p⟩ := hk.chain.1
    cases keepRoot with
    | true => exact ⟨v, d, rfl, h.mono (by simp), hk⟩
    | false => exact run_eraseIfEmpty h hpg (by simp) hk
  | (q, es) :: xs =>
    have hm : last 0 ((q, es) :: xs) ∈ ((q, es) :: xs).map Prod.fst := last_mem 0 (by simp)
    have h0 : last 0 ((q, es) :: xs) ≠ 0 := by
      intro heq
      rw [heq] at hm
      rw [cons_append, map_cons, nodup_cons, map_append] at hnd
      exact hnd.1 (mem_append_left _ hm)
    rw [if_pos (by simp [h0])]
    exact ⟨v, d, rfl, h.mono (by simp), hk⟩

theorem dirPrune_run_middle {a b : UInt64} {ea eb : List Key}
    (h : DirView root v0 d [p] v) (hk : Kept 0 d (xs ++ [(a, ea)] ++ (p, []) :: (b, eb) :: ys))
    (hn : node.indexNext = b) (hpr : node.indexPrevious = a) :
    ∃ v' d', (dirPrune root p keepRoot node).run v = (.ok .tesSUCCESS, v') ∧
      DirView root v0 d' [] v' ∧ Kept 0 d' (xs ++ [(a, ea)] ++ (b, eb) :: ys) := by
  obtain ⟨es0, rest, hps⟩ : ∃ es0 rest, xs ++ [(a, ea)] = (0, es0) :: rest := by
    have hh := hk.head
    cases xs with
    | nil => exact ⟨ea, [], by rw [show a = 0 from hh]; rfl⟩
    | cons x xs => exact ⟨x.2, xs ++ [(a, ea)], by rw [← show x.1 = 0 from hh]; rfl⟩
  have hnd := hk.nodup
  rw [hps] at hnd
  simp only [cons_append, map_cons, map_append, nodup_cons, mem_append, mem_cons, not_or] at hnd
  obtain ⟨⟨-, hp, hb, -⟩, -⟩ := hnd
  have hpa : d a = some ⟨ea, p, last (last 0 (xs ++ [(a, ea)] ++ (p, []) :: (b, eb) :: ys)) xs⟩ := by
    have hc := hk.chain
    rw [append_assoc] at hc ⊢
    exact hc.page_eq
  have hab : a ≠ b ∧ a ≠ p ∧ p ≠ b := by
    have hnd := hk.nodup
    simp only [map_append, map_cons, map_nil, nodup_append, nodup_cons,
      mem_append, mem_cons, not_mem_nil, or_false, not_or] at hnd
    exact ⟨hnd.2.2 a (.inr rfl) b (.inr (.inl rfl)), hnd.2.2 a (.inr rfl) p (.inl rfl), hnd.2.1.1.1⟩
  obtain ⟨pgb, hpb⟩ : ∃ pgb, d b = some pgb := by
    refine Option.isSome_iff_exists.mp (hk.chain.isSome ?_)
    simp
  obtain ⟨v1, hrun1, h1⟩ := h.run_peek hpa
  obtain ⟨v2, hrun2, h2⟩ := h1.run_peek hpb
  obtain ⟨v3, hrun3, h3⟩ := h2.run_alter a (by simp) hpa (fun page => { page with indexNext := b })
    (fun pg => { pg with next := b }) rfl
  obtain ⟨v4, hrun4, h4⟩ := h3.run_update a (by simp)
  obtain ⟨v5, hrun5, h5⟩ := h4.run_alter b (by simp)
    ((alter_of_ne hab.1.symm _).trans hpb) (fun page => { page with indexPrevious := a })
    (fun pg => { pg with previous := a }) rfl
  obtain ⟨v6, hrun6, h6⟩ := h5.run_update b (by simp)
  have ho : ∀ x ∈ [p, a, b], x ∈ [b, a, p] := by simp
  obtain ⟨v7, hrun7, h7⟩ := (h6.mono ho).run_erase (by simp [hab.2.1.symm, hab.2.2])
  refine ⟨v7, _, ?_, h7.mono (by simp), hk.unlink⟩
  rw [dirPrune, hn, hpr, if_neg (Ne.symm hp), if_pos (Ne.symm hb), run_bind_ok hrun1,
    run_bind_ok hrun2]
  rw [run_bind_ok hrun3, run_bind_ok hrun4, run_bind_ok hrun5, run_bind_ok hrun6, run_bind, hrun7]
  rfl

def DirPages.remove (xs : DirPages) (p : UInt64) (es : List Key)
    (ys : DirPages) : DirPages :=
  if es.isEmpty then prune keepRoot xs p ys else xs ++ (p, es) :: ys

theorem dirPrune_run (node : DirNode) (h : DirView root v0 d [p] v)
    (hk : Kept 0 d (xs ++ (p, []) :: ys)) (hn : node.indexNext = first 0 ys)
    (hpr : node.indexPrevious = last (last 0 (xs ++ (p, []) :: ys)) xs) :
    ∃ v' d', (dirPrune root p keepRoot node).run v = (.ok .tesSUCCESS, v') ∧
      DirView root v0 d' [] v' ∧ Kept 0 d' (prune keepRoot xs p ys) := by
  cases xs with
  | nil =>
    obtain rfl : p = 0 := hk.head
    exact dirPrune_run_first keepRoot h hk hn hpr
  | cons x xs =>
    obtain ⟨q, es0⟩ := x
    obtain rfl : q = 0 := hk.head
    cases ys with
    | nil => exact dirPrune_run_last keepRoot h hk hn hpr
    | cons y ys =>
      obtain ⟨zs, ⟨a, ea⟩, hzs⟩ : ∃ zs z, (0, es0) :: xs = zs ++ [z] :=
        (eq_nil_or_concat' _).resolve_left (by simp)
      have hpu : prune keepRoot ((0, es0) :: xs) p (y :: ys) = (0, es0) :: xs ++ y :: ys := by
        cases xs <;> rfl
      rw [hzs] at hk hpr
      rw [hpu, hzs]
      refine dirPrune_run_middle keepRoot h hk hn ?_
      rw [hpr]
      simp [last]

theorem dirDelete_run (hrd : v.Ready []) (hk : Kept 0 (v.pages root) (xs ++ (p, es) :: ys))
    (hen : entry ∈ es) (kr stb soft : Bool) :
    ∃ v' d' es', (dirDelete kr p root entry stb soft).run v = (.ok .tesSUCCESS, v') ∧
      DirView root v d' [] v' ∧ es'.Perm (es.erase entry) ∧
      Kept 0 d' (remove kr xs p es' ys) := by
  have hpg := hk.chain.page_eq
  obtain ⟨v1, hrun1, h1⟩ := (DirView.start hrd).run_peek hpg
  have hpe : (if 1 < es.length then removeIndex es entry stb else []).Perm (es.erase entry) := by
    split
    · exact removeIndex_perm hen stb
    next hon =>
      have hle := length_erase_of_mem hen
      have hni : es.erase entry = [] := length_eq_zero_iff.mp (by omega)
      rw [hni]
  set es' := if 1 < es.length then removeIndex es entry stb else [] with hes'
  obtain ⟨v2, hrun2, h2⟩ := h1.run_alter p (by simp) hpg
    (fun node => { node with indexes := es' }) (fun pg => { pg with entries := es' }) rfl
  obtain ⟨v3, hrun3, h3⟩ := h2.run_update p (by simp)
  have hk' := hk.setEntries es'
  have hr : (dirDelete kr p root entry stb soft).run v = (if es'.isEmpty then dirPrune root p kr
          ⟨es, first 0 ys, last (last 0 (xs ++ (p, es) :: ys)) xs⟩
        else pure .tesSUCCESS : LedgerM transfer TER).run v3 := by
    rw [dirDelete, dirDeleteFrom, run_bind_ok hrun1]
    dsimp only
    rw [if_neg (not_not_intro hen), run_bind_ok hrun2, run_bind, hrun3]
    rfl
  by_cases he : es'.isEmpty
  · have hni : es' = [] := isEmpty_iff.mp he
    rw [hni] at hk' h3
    obtain ⟨v', d', hr', h', hk''⟩ := dirPrune_run kr
      ⟨es, first 0 ys, last (last 0 (xs ++ (p, es) :: ys)) xs⟩ h3 hk' rfl (by simp [last])
    refine ⟨v', d', es', ?_, h', hpe, ?_⟩
    · rw [hr, if_pos he, hr']
    · rw [remove, if_pos he]
      exact hk''
  · refine ⟨v3, _, es', ?_, h3.mono (by simp), hpe, ?_⟩
    · rw [hr, if_neg he]
      rfl
    · rw [remove, if_neg he]
      exact hk'

end Sand
