import Sand.Ledger.PageRemoval
import Sand.Ledger.TrustLine

/-!
# What a computation leaves alone

Directory operations touch pages only, and an owner count is in one root.
-/

namespace Sand

open LedgerM Evolution Key UInt32 Function

namespace View

/-- Only the items of the keys `touched` differ from those of `v`. -/
structure SameBut (touched : Key → Prop) (v v' : View) : Prop where
  base : v'.base = v.base
  items : ∀ k, ¬ touched k → v'.items.lookup k = v.items.lookup k

variable {touched : Key → Prop} {v v' : View}

theorem SameBut.refl (tch : Key → Prop) (v : View) : SameBut tch v v := ⟨rfl, fun _ _ => rfl⟩

instance : IsPreorder View (SameBut touched) where
  refl := SameBut.refl touched
  trans _ _ _ h h' := ⟨h'.base.trans h.base, fun k hk => (h'.items k hk).trans (h.items k hk)⟩

variable {k : Key} {f : Entry k → Entry k} {sle : Entry k}

theorem SameBut.get (h : SameBut touched v v') (hk : ¬ touched k) : v'.get k = v.get k := by
  rw [View.get, View.get, h.items k hk, h.base]

section

variable (hk : touched k)
include hk

theorem sameBut_setItem (item : Option (Action × Entry k)) :
    SameBut touched v (v.setItem k item) := by
  refine ⟨rfl, fun k' hk' => lookup_setItem_ne v item ?_⟩
  rintro rfl
  exact hk' hk

theorem sameBut_peek : SameBut touched v (v.peek k).2 := by
  unfold View.peek
  cases v.items.lookup k with
  | some item => exact SameBut.refl touched v
  | none =>
    cases v.base.lookup k with
    | none => exact SameBut.refl touched v
    | some sle => exact sameBut_setItem hk _

theorem sameBut_alter : SameBut touched v (v.alter k f) := by
  unfold View.alter
  split
  · exact SameBut.refl touched v
  · exact sameBut_setItem hk _
  · exact SameBut.refl touched v

theorem sameBut_update (h : v.update k = .ok v') : SameBut touched v v' := by
  unfold View.update at h
  split at h <;> cases h
  · exact sameBut_setItem hk _
  · exact SameBut.refl touched v

theorem sameBut_insert (h : v.insert k sle = .ok v') : SameBut touched v v' := by
  unfold View.insert at h
  split at h <;> cases h <;> exact sameBut_setItem hk _

theorem sameBut_erase (h : v.erase k = .ok v') : SameBut touched v v' := by
  unfold View.erase at h
  split at h <;> cases h <;> exact sameBut_setItem hk _

end

theorem SameBut.writes (h : SameBut touched v v') (hk : ¬ touched k) :
    v'.Writes k ↔ v.Writes k := by
  simp [Writes, h.items k hk]

theorem writes_insert (h : v.insert k sle = .ok v') : v'.Writes k := by
  unfold View.insert at h
  split at h <;> cases h <;> exact (writes_setItem v k _).mpr nofun

theorem SameBut.out (h : SameBut touched v v') (hk : ¬ touched k) : v'.Out k ↔ v.Out k := by
  simp [Out, h.items k hk]

theorem out_insert (h : v.insert k sle = .ok v') : v'.Out k := by
  unfold View.insert at h
  split at h <;> cases h <;> exact ⟨_, sle, lookup_setItem v k _, nofun⟩

theorem Writes.alter (h : v.Writes k) (f : Entry k → Entry k) : (v.alter k f).Writes k := by
  obtain ⟨⟨action, sle⟩, hi, hwr⟩ := h
  unfold View.alter
  cases action with
  | erase =>
    simp only [hi]
    exact ⟨_, hi, hwr⟩
  | _ =>
    simp only [hi]
    exact (writes_setItem v k _).mpr hwr

theorem writes_erase (hb : v.base.lookup k ≠ none) (h : v.erase k = .ok v') : v'.Writes k := by
  unfold View.erase at h
  split at h
  · next hno => exact absurd hno hb
  · cases h
    exact (writes_setItem v k _).mpr nofun
  · cases h
    exact (writes_setItem v k _).mpr nofun
  · cases h

theorem get_insert (h : v.insert k sle = .ok v') : v'.get k = some sle := by
  unfold View.insert at h
  split at h <;> cases h <;> exact get_setItem_some _ _ _

theorem get_erase (h : v.erase k = .ok v') : v'.get k = none := by
  unfold View.erase at h
  split at h
  · next hb =>
      cases h
      rw [get_setItem_none, hb]
  · cases h
    exact get_setItem_some _ _ _
  · cases h
    exact get_setItem_some _ _ _
  · cases h

theorem get_of_alter {sle' : Entry k} (h : (v.alter k f).get k = some sle') :
    v.get k = some sle' ∨ ∃ sle, v.get k = some sle ∧ sle' = f sle := by
  unfold View.alter at h
  cases hi : v.items.lookup k with
  | none =>
    simp only [hi] at h
    exact .inl h
  | some item =>
    obtain ⟨action, sle⟩ := item
    have hg := get_of_item hi
    cases action with
    | erase =>
      simp only [hi] at h
      exact .inl h
    | _ =>
      simp only [hi, get_setItem_some] at h
      exact .inr ⟨sle, hg, (Option.some.inj h).symm⟩

theorem edited_of_update (h : (v.alter k f).update k = .ok v') :
    ∃ sle, v.get k = some sle ∧ v'.get = Function.update v.get k (some (f sle)) ∧ v'.Writes k := by
  unfold View.alter at h
  cases hi : v.items.lookup k with
  | none => simp [hi, View.update] at h
  | some item =>
    obtain ⟨action, sle⟩ := item
    refine ⟨sle, ?_⟩
    rw [get_of_item hi]
    cases action
    case erase => simp [hi, View.update] at h
    all_goals
      simp only [hi, update_setItem_cache, update_setItem_insert, update_setItem_modify,
        Except.ok.injEq] at h
      subst h
      exact ⟨rfl, get_setItem v k _, (writes_setItem v k _).mpr (by rintro ⟨⟩)⟩

def Lists (v : View) (root : DirRoot) (page : UInt64) (entry : Key) : Prop :=
  ∃ node, v.get (.dir root page) = some node ∧ entry ∈ node.indexes

/-- Only the pages `added` may now list the entry. -/
def ListsBut (root : DirRoot) (entry : Key) (added : UInt64 → Prop) (v v' : View) : Prop :=
  ∀ page, ¬ added page → v'.Lists root page entry → v.Lists root page entry

instance {root : DirRoot} {entry : Key} {added : UInt64 → Prop} :
    IsPreorder View (ListsBut root entry added) where
  refl _ _ _ h := h
  trans _ _ _ h h' page hpa hli := h page hpa (h' page hpa hli)

theorem listsBut_of_get {root : DirRoot} {ent : Key} {ad : UInt64 → Prop}
    (h : ∀ page, ¬ ad page → v'.get (.dir root page) = v.get (.dir root page)) :
    ListsBut root ent ad v v' := by
  rintro page hpa ⟨node, hg, hm⟩
  exact ⟨node, (h page hpa).symm.trans hg, hm⟩

end View

open View MonoM

namespace LedgerM

variable {E : Evolution} {k : Key} {touched : Key → Prop}

theorem eq_ok_of_settle {x : Except Fault View} {a : Unit} {v v' : View}
    (h : settle v x = (.ok a, v')) : x = .ok v' := by
  cases x with
  | error fault => cases h
  | ok v'' =>
    cases h
    rfl

variable {q : View → View → Prop}

theorem keeps_deref [IsPreorder View q] {α : Type} (sle : Option α) :
    Keeps q (deref sle : LedgerM E α) := by
  cases sle with
  | none => exact keeps_throw _
  | some value => exact keeps_pure _

theorem keeps_peek_of_get (h : ∀ v v', v'.get = v.get → q v v') :
    Keeps q (peek k : LedgerM E _) := by
  intro v found v' run
  cases run
  exact h v _ (get_peek v k)

theorem keeps_update_of_get (h : ∀ v v', v'.get = v.get → q v v') :
    Keeps q (update k : LedgerM E Unit) := by
  intro v a v' run
  have hst : View.Evolves still v v' := evolves_of_run_update run
  exact h v v' (funext hst.entries)

section SameBut

theorem sameBut_peek (hk : touched k) : Keeps (SameBut touched) (peek k : LedgerM E _) := by
  intro v found v' run
  cases run
  exact View.sameBut_peek hk

theorem sameBut_alter {f : Entry k → Entry k} {h : ∀ sle, E.rel k (some sle) (some (f sle))}
    (hk : touched k) : Keeps (SameBut touched) (alter k f h : LedgerM E Unit) :=
  keeps_modify fun _ => View.sameBut_alter hk

theorem sameBut_update (hk : touched k) : Keeps (SameBut touched) (update k : LedgerM E Unit) :=
  fun _ _ _ run => View.sameBut_update hk (eq_ok_of_settle run)

theorem sameBut_insert {sle : Entry k} {hre : E.rel k none (some sle)} (hk : touched k) :
    Keeps (SameBut touched) (insert k sle hre : LedgerM E Unit) :=
  fun _ _ _ run => View.sameBut_insert hk (eq_ok_of_settle run)

theorem sameBut_erase {hre : ∀ sle, E.rel k (some sle) none} (hk : touched k) :
    Keeps (SameBut touched) (erase k hre : LedgerM E Unit) :=
  fun _ _ _ run => View.sameBut_erase hk (eq_ok_of_settle run)

end SameBut

section Lists

variable {root : DirRoot} {entry : Key} {added : UInt64 → Prop}

theorem listsBut_peek : Keeps (ListsBut root entry added) (peek k : LedgerM E _) :=
  keeps_peek_of_get fun _ _ hg => listsBut_of_get fun _ _ => by rw [hg]

theorem listsBut_update : Keeps (ListsBut root entry added) (update k : LedgerM E Unit) :=
  keeps_update_of_get fun _ _ hg => listsBut_of_get fun _ _ => by rw [hg]

variable {page : UInt64}

theorem listsBut_alterDir {f : DirNode → DirNode}
    (h : ¬ added page → ∀ node, (f node).indexes = node.indexes) :
    Keeps (ListsBut root entry added) (alterDir root page f) := by
  refine keeps_modify fun v => ?_
  rintro page' hpa' ⟨node, hg, hm⟩
  obtain rfl | hpa := eq_or_ne page' page
  · rcases get_of_alter hg with hold | ⟨sle, hold, rfl⟩
    · exact ⟨node, hold, hm⟩
    · rw [h hpa'] at hm
      exact ⟨sle, hold, hm⟩
  · have heq : SameBut (Eq (.dir root page)) v (v.alter (.dir root page) f) :=
      View.sameBut_alter rfl
    rw [heq.get (by simpa using Ne.symm hpa)] at hg
    exact ⟨node, hg, hm⟩

theorem listsBut_insertDir {node : DirNode} (h : node.indexes = []) :
    Keeps (ListsBut root entry added) (insertDir root page node) := by
  intro v a v' run
  have hin := eq_ok_of_settle run
  rintro page' hpa' ⟨node', hg, hm⟩
  obtain rfl | hpa := eq_or_ne page' page
  · rw [get_insert hin] at hg
    cases hg
    simp [h] at hm
  · have heq : SameBut (Eq (.dir root page)) v v' := View.sameBut_insert rfl hin
    rw [heq.get (by simpa using Ne.symm hpa)] at hg
    exact ⟨node', hg, hm⟩

theorem listsBut_eraseDir : Keeps (ListsBut root entry added) (eraseDir root page) := by
  intro v a v' run
  have her := eq_ok_of_settle run
  rintro page' hpa' ⟨node', hg, hm⟩
  obtain rfl | hpa := eq_or_ne page' page
  · rw [get_erase her] at hg
    cases hg
  · have heq : SameBut (Eq (.dir root page)) v v' := View.sameBut_erase rfl her
    rw [heq.get (by simpa using Ne.symm hpa)] at hg
    exact ⟨node', hg, hm⟩

end Lists

end LedgerM

open LedgerM

def Key.IsDir (k : Key) : Prop := ∃ root page, k = .dir root page

variable (root : DirRoot)

theorem Key.isDir_dir (page : UInt64) : (dir root page).IsDir := ⟨root, page, rfl⟩

/-- What page operations keep while no entry comes or goes. -/
structure KeptByLinks (root : DirRoot) (q : View → View → Prop) : Prop where
  peek : ∀ page, Keeps q (LedgerM.peek (.dir root page) : LedgerM transfer _)
  update : ∀ page, Keeps q (LedgerM.update (.dir root page) : LedgerM transfer Unit)
  alter : ∀ page f, (∀ node : DirNode, (f node).indexes = node.indexes) →
    Keeps q (alterDir root page f)
  insert : ∀ page node, node.indexes = [] → Keeps q (insertDir root page node)
  erase : ∀ page, Keeps q (eraseDir root page)

theorem keptByLinks_sameBut : KeptByLinks root (SameBut Key.IsDir) where
  peek page := sameBut_peek (isDir_dir root page)
  update page := sameBut_update (isDir_dir root page)
  alter page _ _ := sameBut_alter (isDir_dir root page)
  insert page _ _ := sameBut_insert (isDir_dir root page)
  erase page := sameBut_erase (isDir_dir root page)

theorem keptByLinks_listsBut (ent : Key) (ad : UInt64 → Prop) :
    KeptByLinks root (ListsBut root ent ad) where
  peek _ := listsBut_peek
  update _ := listsBut_update
  alter _ _ h := listsBut_alterDir fun _ => h
  insert _ _ h := listsBut_insertDir h
  erase _ := listsBut_eraseDir

section Directory

variable {root : DirRoot} {entry : Key} {v v' v1 : View} {page : UInt64} {node : DirNode}

theorem run_lastPage_eq_ok {α : Type} {last : UInt64} {sr : DirNode}
    {next : DirNode → LedgerM transfer α} {a : α}
    (h : (if last = 0 then pure sr >>= next
      else peek (.dir root last) >>= fun found => deref found >>= next).run v = (.ok a, v')) :
    ∃ sleNode v1, (v = v1 ∨ (peek (.dir root last) : LedgerM transfer _).run v =
        (.ok (some sleNode), v1)) ∧ (next sleNode).run v1 = (.ok a, v') := by
  split_ifs at h
  · exact ⟨sr, v, .inl rfl, h⟩
  obtain ⟨found, v1, hp, h⟩ := bind_eq_ok.mp h
  obtain ⟨sleNode, v2, hd, h⟩ := bind_eq_ok.mp h
  obtain ⟨rfl, rfl⟩ := run_deref_eq_ok hd
  exact ⟨sleNode, v1, .inr hp, h⟩

variable {hint : UInt64}

theorem kept_of_dirAdd {q : UInt64 → View → View → Prop} [∀ page, IsPreorder View (q page)]
    (hl : ∀ page, KeptByLinks root (q page))
    (had : ∀ page f, Keeps (q page) (alterDir root page f)) {ter : TER}
    (run : (dirAdd root entry).run v = (.ok (ter, hint), v')) : q hint v v' := by
  have hap : ∀ {page indexes v v'},
      (alterDir root page (fun node => { node with indexes := indexes ++ [entry] }) >>=
        fun _ => pure (TER.tesSUCCESS, page)).run v = (.ok (ter, hint), v') → q hint v v' := by
    intro page indexes v v' run
    obtain ⟨_, v1, ha, run⟩ := bind_eq_ok.mp run
    cases run
    exact had _ _ ha
  obtain ⟨found, v1, hp, run⟩ := bind_eq_ok.mp run
  refine trans_of (q hint) ((hl hint).peek 0 hp) ?_
  cases found with
  | none =>
    obtain ⟨_, v2, hin, run⟩ := bind_eq_ok.mp run
    exact trans_of (q hint) ((hl hint).insert 0 _ rfl hin) (hap run)
  | some sleRoot =>
    obtain ⟨sleNode, v2, hfe, run⟩ := run_lastPage_eq_ok run
    have h2 : q hint v1 v2 := by
      rcases hfe with rfl | hp
      · exact refl_of (q hint) _
      · exact (hl hint).peek _ hp
    refine trans_of (q hint) h2 ?_
    simp only [run_ite] at run
    by_cases hro : sleNode.indexes.length ≠ dirNodeMax
    · rw [if_pos hro] at run
      obtain ⟨_, v3, hup, run⟩ := bind_eq_ok.mp run
      exact trans_of (q hint) ((hl hint).update _ hup) (hap run)
    rw [if_neg hro] at run
    by_cases hfu : sleRoot.indexPrevious + 1 = 0
    · rw [if_pos hfu] at run
      cases run
      exact refl_of (q 0) _
    rw [if_neg hfu] at run
    obtain ⟨_, v3, hn, run⟩ := bind_eq_ok.mp run
    obtain ⟨_, v4, hup, run⟩ := bind_eq_ok.mp run
    obtain ⟨_, v5, hpe, run⟩ := bind_eq_ok.mp run
    obtain ⟨_, v6, hup', run⟩ := bind_eq_ok.mp run
    obtain ⟨_, v7, hin, run⟩ := bind_eq_ok.mp run
    refine trans_of (q hint) ((hl hint).alter _ _ (fun _ => ?_) hn) ?_
    · rfl
    refine trans_of (q hint) ((hl hint).update _ hup) ?_
    refine trans_of (q hint) ((hl hint).alter _ _ (fun _ => ?_) hpe) ?_
    · rfl
    refine trans_of (q hint) ((hl hint).update _ hup') ?_
    refine trans_of (q hint) ((hl hint).insert _ _ ?_ hin) (hap run)
    rfl

theorem sameBut_dirAdd : Keeps (SameBut Key.IsDir) (dirAdd root entry) :=
  fun _ _ _ run => kept_of_dirAdd (q := fun _ => SameBut Key.IsDir)
    (fun _ => keptByLinks_sameBut root)
    (fun page _ => sameBut_alter (isDir_dir root page)) run

theorem listsBut_dirAdd {entry' : Key} {ter : TER}
    (run : (dirAdd root entry).run v = (.ok (ter, hint), v')) :
    ListsBut root entry' (fun page => page = hint) v v' :=
  kept_of_dirAdd (q := fun hint => ListsBut root entry' fun page => page = hint)
    (fun _ => keptByLinks_listsBut root entry' _)
    (fun _ _ => listsBut_alterDir fun hne => absurd rfl hne) run

theorem kept_of_dirPrune {q : View → View → Prop} [IsPreorder View q]
    (hl : KeptByLinks root q) (page : UInt64) (kr : Bool) (node : DirNode) :
    Keeps q (dirPrune root page kr node) := by
  refine keeps_ite (fun _ => ?_) fun _ => keeps_ite (fun _ => ?_) fun _ => keeps_ite (fun _ => ?_)
    fun _ => ?_
  · refine keeps_ite (fun _ => ?_) fun _ => keeps_ite (fun _ => ?_) fun _ => keeps_pure _
    · exact keeps_bind (hl.erase 0) fun _ => keeps_pure _
    · refine keeps_bind (hl.peek _) fun _ => keeps_bind (keeps_deref _) fun _ => ?_
      refine keeps_ite (fun _ => ?_) fun _ => keeps_pure _
      exact keeps_bind (hl.erase 0) fun _ => keeps_bind (hl.erase _) fun _ => keeps_pure _
  · refine keeps_bind (hl.peek _) fun previous => keeps_bind (hl.peek _) fun next => ?_
    cases previous with
    | none => exact keeps_pure _
    | some _ =>
      cases next with
      | none => exact keeps_pure _
      | some _ =>
        refine keeps_bind (hl.alter _ _ fun _ => rfl) fun _ => ?_
        refine keeps_bind (hl.update _) fun _ => ?_
        refine keeps_bind (hl.alter _ _ fun _ => rfl) fun _ => ?_
        refine keeps_bind (hl.update _) fun _ => ?_
        exact keeps_bind (hl.erase _) fun _ => keeps_pure _
  · exact keeps_pure _
  · refine keeps_bind (hl.peek _) fun _ => keeps_bind (keeps_deref _) fun _ => ?_
    refine keeps_ite (fun _ => ?_) fun _ => keeps_pure _
    exact keeps_bind (hl.erase 0) fun _ => keeps_bind (hl.erase _) fun _ => keeps_pure _

theorem sameBut_dirDeleteFrom (kr stb : Bool) (tries : Nat) (page : UInt64) (soft : Bool) :
    Keeps (SameBut Key.IsDir) (dirDeleteFrom kr root entry stb tries page soft) := by
  have hl := keptByLinks_sameBut root
  induction tries generalizing page soft with
  | zero => exact keeps_pure _
  | succ tries ih =>
    refine keeps_bind (hl.peek page) fun found => ?_
    cases found with
    | none => exact keeps_ite (fun _ => ih _ _) fun _ => keeps_pure _
    | some node =>
      refine keeps_ite (fun _ => keeps_ite (fun _ => ih _ _) fun _ => keeps_pure _) fun _ => ?_
      refine keeps_bind (sameBut_alter (isDir_dir root page)) fun _ => ?_
      refine keeps_bind (hl.update page) fun _ => ?_
      exact keeps_ite (fun _ => kept_of_dirPrune hl _ _ _) fun _ => keeps_pure _

theorem sameBut_dirDelete (kr stb soft : Bool) (page : UInt64) :
    Keeps (SameBut Key.IsDir) (dirDelete kr page root entry stb soft) :=
  sameBut_dirDeleteFrom kr stb _ page soft

/-- Removed from the page that listed it, which is written. -/
structure RemovedFrom (root : DirRoot) (entry : Key) (v v' : View) (page : UInt64)
    (node : DirNode) : Prop where
  get : v.get (.dir root page) = some node
  mem : entry ∈ node.indexes
  writes : v.base.lookup (.dir root page) ≠ none → v'.Writes (.dir root page)
  lists : ListsBut root entry (fun _ => False) v v'
  gone : node.indexes.count entry = 1 → ¬ v'.Lists root page entry

theorem RemovedFrom.of_get (h : RemovedFrom root entry v1 v' page node) (hg : v1.get = v.get)
    (hb : v1.base = v.base) : RemovedFrom root entry v v' page node where
  get := hg ▸ h.get
  mem := h.mem
  writes := hb ▸ h.writes
  lists := by
    refine trans_of (ListsBut root entry fun _ => False) (listsBut_of_get fun page _ => ?_) h.lists
    rw [hg]
  gone := h.gone

theorem RemovedFrom.of_sameBut {tch : Key → Prop} (h : RemovedFrom root entry v v1 page node)
    (heq : SameBut tch v1 v') (hdi : ∀ page, ¬ tch (.dir root page)) :
    RemovedFrom root entry v v' page node where
  get := h.get
  mem := h.mem
  writes := fun hb => (heq.writes (hdi page)).mpr (h.writes hb)
  lists := trans_of (ListsBut root entry fun _ => False) h.lists
    (listsBut_of_get fun page _ => heq.get (hdi page))
  gone := by
    rintro hc ⟨node', hg, hm⟩
    rw [heq.get (hdi page)] at hg
    exact h.gone hc ⟨node', hg, hm⟩

variable {keepRoot stable : Bool}

theorem removedFrom_of_edit {v2 : View}
    (hg : v.get (.dir root page) = some node) (hm : entry ∈ node.indexes) {indexes : List Key}
    (hid : indexes = if 1 < node.indexes.length then removeIndex node.indexes entry stable
      else [])
    (ha : (alterDir root page fun node => { node with indexes := indexes }).run v = (.ok (), v1))
    (hup : (update (.dir root page) : LedgerM transfer Unit).run v1 = (.ok (), v2))
    (hpr : (if indexes.isEmpty then dirPrune root page keepRoot node
      else pure .tesSUCCESS).run v2 = (.ok .tesSUCCESS, v')) :
    RemovedFrom root entry v v' page node := by
  cases ha
  have hu := eq_ok_of_settle hup
  obtain ⟨sle, hsl, he, hwr⟩ := edited_of_update hu
  rw [hg] at hsl
  cases hsl
  have hsu : ∀ entry' ∈ indexes, entry' ∈ node.indexes.erase entry := by
    intro entry' hen'
    rw [hid] at hen'
    split at hen'
    · exact (removeIndex_perm hm stable).mem_iff.mp hen'
    · cases hen'
  have hlists2 : ListsBut root entry (fun _ => False) v v2 := by
    rintro page' - ⟨node', hg', hm'⟩
    rw [he] at hg'
    obtain rfl | hpa := eq_or_ne page' page
    · exact ⟨node, hg, hm⟩
    · rw [update_of_ne (by simpa using hpa)] at hg'
      exact ⟨node', hg', hm'⟩
  have hkp : ∀ {q : View → View → Prop} [IsPreorder View q], KeptByLinks root q → q v2 v' := by
    intro q _ hl
    split_ifs at hpr
    · exact kept_of_dirPrune hl page keepRoot node hpr
    · cases hpr
      exact refl_of q _
  have hbase2 : v2.base = v.base :=
    (trans_of (SameBut (Eq (.dir root page))) (View.sameBut_alter rfl)
      (View.sameBut_update rfl hu)).base
  have hli := hkp (keptByLinks_listsBut root entry fun _ => False)
  refine ⟨hg, hm, fun hb => ?_, trans_of _ hlists2 hli, fun hc hls => ?_⟩
  · exact (rel_of_run hpr).writes _ (by rwa [hbase2]) hwr
  obtain ⟨node', hg', hm'⟩ := hli page not_false hls
  rw [he, update_self] at hg'
  cases hg'
  have h0 : (node.indexes.erase entry).count entry = 0 := by
    rw [List.count_erase_self, hc]
  exact List.count_eq_zero.mp h0 (hsu entry hm')

theorem removedFrom_of_dirDelete {tries : Nat} {soft : Bool}
    (run : (dirDeleteFrom keepRoot root entry stable tries page soft).run v =
      (.ok .tesSUCCESS, v')) : ∃ found node, RemovedFrom root entry v v' found node := by
  induction tries generalizing page soft v with
  | zero => cases run
  | succ tries ih =>
    obtain ⟨found, v1, hp, run⟩ := bind_eq_ok.mp run
    have hf := (run_peek_eq_ok hp).1
    have hg : v1.get = v.get := funext (run_peek_eq_ok hp).2.entries
    have hb : v1.base = v.base := (run_peek_eq_ok hp).2.base
    suffices ∃ found node, RemovedFrom root entry v1 v' found node by
      obtain ⟨found, node, hrm⟩ := this
      exact ⟨found, node, hrm.of_get hg hb⟩
    cases found with
    | none =>
      split_ifs at run
      · exact ih run
      · cases run
    | some node =>
      rw [run_ite] at run
      by_cases hm : entry ∈ node.indexes
      · rw [if_neg (not_not.mpr hm)] at run
        obtain ⟨_, v2, ha, run⟩ := bind_eq_ok.mp run
        obtain ⟨_, v3, hup, run⟩ := bind_eq_ok.mp run
        exact ⟨page, node, removedFrom_of_edit (hg ▸ hf) hm rfl ha hup run⟩
      · split_ifs at run
        · exact ih run
        · cases run

end Directory

/-! ## Owner counts -/

/-- The adjustment stops at the ends of the range. -/
def adjustedCount (current : UInt32) (amount : Int) : UInt32 :=
  if 0 < amount then
    if current + .ofInt amount < current then .ofNat (2 ^ 32 - 1) else current + .ofInt amount
  else
    if current < current + .ofInt amount then 0 else current + .ofInt amount

theorem toNat_adjustedCount (cr : UInt32) {amt : Nat} (h : 0 < amt) :
    (adjustedCount cr amt).toNat = min (cr.toNat + amt % 2 ^ 32) (2 ^ 32 - 1) := by
  have hlt := cr.toNat_lt
  have ham : ((amt : Int) % 2 ^ 32).toNat = amt % 2 ^ 32 := by omega
  have had : (cr + ofInt amt).toNat = (cr.toNat + amt % 2 ^ 32) % 2 ^ 32 := by
    rw [UInt32.toNat_add, ofInt, toNat_ofNat', ham, Nat.mod_mod]
  unfold adjustedCount
  rw [if_pos (by exact_mod_cast h)]
  split
  · next hw =>
      rw [lt_iff_toNat_lt, had] at hw
      rw [toNat_ofNat']
      omega
  · next hw =>
      rw [lt_iff_toNat_lt, had] at hw
      omega

theorem adjusted_of_adjustOwnerCount {id : AccountID} {amount : Int} {v v' : View}
    (run : (adjustOwnerCount id amount).run v = (.ok (), v')) :
    ∃ root, v.get (.account id) = some root ∧ v'.get (.account id) =
        some { root with ownerCount := adjustedCount root.ownerCount amount } ∧
      v'.Writes (.account id) ∧ SameBut (Eq (.account id)) v v' := by
  obtain ⟨found, v1, hp, run⟩ := bind_eq_ok.mp run
  obtain ⟨root, v2, hd, run⟩ := bind_eq_ok.mp run
  obtain ⟨rfl, rfl⟩ := run_deref_eq_ok hd
  have hg : v1.get = v.get := funext (run_peek_eq_ok hp).2.entries
  have hsame1 : SameBut (Eq (.account id)) v v1 := sameBut_peek rfl hp
  obtain ⟨v2, ha, hup⟩ : ∃ v2,
      (setOwnerCount id (adjustedCount root.ownerCount amount)).run v1 = (.ok (), v2) ∧
        (update (.account id) : LedgerM transfer Unit).run v2 = (.ok (), v') := by
    unfold adjustedCount
    by_cases hpo : 0 < amount
    · rw [if_pos hpo] at run ⊢
      obtain ⟨_, v2, hs, run⟩ := bind_eq_ok.mp run
      exact ⟨v2, hs, run⟩
    · rw [if_neg hpo] at run ⊢
      obtain ⟨_, v2, hs, run⟩ := bind_eq_ok.mp run
      exact ⟨v2, hs, run⟩
  cases ha
  have hu := eq_ok_of_settle hup
  obtain ⟨root', hr', he, hwr⟩ := edited_of_update hu
  have hr : v.get (.account id) = some root := (run_peek_eq_ok hp).1
  rw [hg, hr] at hr'
  cases hr'
  refine ⟨root, hr, ?_, hwr, ?_⟩
  · rw [he, update_self]
  · exact trans_of (SameBut _) hsame1 (trans_of (SameBut _) (View.sameBut_alter rfl)
      (View.sameBut_update rfl hu))

end Sand
