import Sand.Amendment.Table
import Sand.Ledger.Frame
import Sand.Tx.History

/-!
# Activation of amendments

Flag ledgers are voted on, and the next ledger gets the pseudo-transactions.
-/

namespace Sand

open Evolution Transactor MonoM List LedgerM Change Prod Nat AmendmentTable AList Bool

/-- The recorded majorities and when each was reached. -/
def Amendments.record (entry : Amendments) : List (UInt256 × UInt32) :=
  entry.majorities.getD []

def Ledger.amendmentsEntry (ledger : Ledger) : Amendments :=
  (ledger.lookup .amendments : Option Amendments).getD {}

def getEnabledAmendments (ledger : Ledger) : List UInt256 :=
  ledger.amendmentsEntry.amendments

def getMajorityAmendments (ledger : Ledger) : AList fun _ : UInt256 => UInt32 :=
  ledger.amendmentsEntry.record.foldl (fun majorities majority =>
    majorities.insert majority.1 majority.2) ∅

variable {amendment : UInt256} {ledger : Ledger} {tx : STTx} {closeTime : UInt32}
  {entry entry' : Amendments} {flags : Flags} {majorityTime : Int}

variable {time : UInt32}

theorem mem_record_of_foldl {record : List (UInt256 × UInt32)}
    {mjs : AList fun _ : UInt256 => UInt32}
    (h : (record.foldl (fun mjs majority => mjs.insert majority.1 majority.2)
      mjs).lookup amendment = some time) :
    (amendment, time) ∈ record ∨ mjs.lookup amendment = some time := by
  induction record generalizing mjs with
  | nil => exact .inr h
  | cons majority record ih =>
    rcases ih h with hr | hlk
    · exact .inl (mem_cons_of_mem _ hr)
    obtain rfl | hke := eq_or_ne amendment majority.1
    · rw [lookup_insert] at hlk
      cases hlk
      exact .inl mem_cons_self
    · rw [lookup_insert_ne hke] at hlk
      exact .inr hlk

theorem mem_record_of_lookup (h : (getMajorityAmendments ledger).lookup amendment = some time) :
    (amendment, time) ∈ ledger.amendmentsEntry.record := by
  rcases mem_record_of_foldl h with hr | hem
  · exact hr
  · cases hem

/-! ## The transaction -/

/-- What a pseudo-transaction makes of the entry. -/
structure Amendments.Amended (flags : Flags) (amendment : UInt256) (closeTime : UInt32)
    (entry entry' : Amendments) : Prop where
  notEnabled : amendment ∉ entry.amendments
  cases : (flags.has tfGotMajority ∧ amendment ∉ entry.record.map fst ∧
      entry'.amendments = entry.amendments ∧
        entry'.record = entry.record ++ [(amendment, closeTime)]) ∨
    (flags.has tfLostMajority ∧ entry'.amendments = entry.amendments ∧
      entry'.record = entry.record.filter fun majority => majority.1 != amendment) ∨
    (flags.has tfGotMajority = false ∧ flags.has tfLostMajority = false ∧
      entry'.amendments = entry.amendments ++ [amendment] ∧
        entry'.record = entry.record.filter fun majority => majority.1 != amendment)

theorem getD_ite_isEmpty (list : List (UInt256 × UInt32)) :
    (if list.isEmpty then none else some list).getD [] = list := by
  cases list <;> rfl

theorem Change.amended_of_amend (h : amend tx amendment closeTime entry = .ok entry') :
    Amendments.Amended tx.flags amendment closeTime entry entry' := by
  unfold amend at h
  by_cases hen : amendment ∈ entry.amendments
  · rw [if_pos hen] at h
    cases h
  rw [if_neg hen] at h
  refine ⟨hen, ?_⟩
  cases hg : tx.flags.has tfGotMajority with
  | true =>
    cases hl : tx.flags.has tfLostMajority with
    | true => simp [hg, hl] at h
    | false =>
      cases hf : (entry.majorities.getD []).any fun majority => majority.1 == amendment with
      | true => simp [hg, hl, hf] at h
      | false =>
        have hkp : (entry.majorities.getD []).filter
            (fun majority => majority.1 != amendment) = entry.majorities.getD [] := by
          rw [filter_eq_self]
          intro majority hme
          rw [any_eq_false] at hf
          simpa using hf majority hme
        simp only [hg, hl, hf, Bool.and_false, Bool.false_and, false_eq_true,
          Bool.not_false, ↓reduceIte, hkp, Except.ok.injEq] at h
        subst h
        refine .inl ⟨rfl, fun hme => ?_, rfl, getD_ite_isEmpty _⟩
        obtain ⟨majority, hm, hn⟩ := mem_map.mp hme
        rw [any_eq_false] at hf
        exact hf majority hm (by simpa using hn)
  | false =>
    cases hl : tx.flags.has tfLostMajority with
    | true =>
      cases hf : (entry.majorities.getD []).any fun majority => majority.1 == amendment with
      | false => simp [hg, hl, hf] at h
      | true =>
        simp only [hg, hl, hf, Bool.and_false, Bool.false_and, false_eq_true,
          Bool.not_true, ↓reduceIte, Except.ok.injEq] at h
        subst h
        exact .inr (.inl ⟨rfl, rfl, getD_ite_isEmpty _⟩)
    | false =>
      simp only [hg, hl, Bool.and_false, false_eq_true, ↓reduceIte, Except.ok.injEq] at h
      subst h
      exact .inr (.inr ⟨rfl, rfl, rfl, getD_ite_isEmpty _⟩)

theorem Change.ne_success_of_amend {ter : TER}
    (h : amend tx amendment closeTime entry = .error ter) : ter ≠ .tesSUCCESS := by
  unfold amend at h
  dsimp only at h
  repeat' split at h
  all_goals
    cases h
    try exact nofun

/-- What `applyAmendment` does once the entry is there. -/
def Change.amendEntry (tx : STTx) (amendment : UInt256) : LedgerM ordinary TER := do
  let entry ← LedgerM.deref (← LedgerM.peek .amendments)
  match amend tx amendment (← LedgerM.context).info.parentCloseTime entry with
  | .error ter => return ter
  | .ok entry =>
    LedgerM.alter .amendments (fun _ => entry) fun _ => trivial
    LedgerM.update .amendments
    return TER.tesSUCCESS

theorem Change.amended_of_applyAmendment {v v' : View}
    (hru : (applyAmendment tx amendment).run v = (.ok .tesSUCCESS, v')) :
    ∃ entry', Amendments.Amended tx.flags amendment v.context.info.parentCloseTime
        ((v.get .amendments).getD {}) entry' ∧ v'.get .amendments = some entry' := by
  obtain ⟨found, v1, hpk, hru⟩ := bind_eq_ok.mp hru
  obtain ⟨hf, hsi⟩ := run_peek_eq_ok hpk
  -- whether the entry was there or not, it is now, and shows the same amendments
  suffices hth : ∀ v2 : View, v2.context = v.context →
      v2.get .amendments = some ((v.get .amendments).getD {}) →
      (amendEntry tx amendment).run v2 = (.ok .tesSUCCESS, v') →
      ∃ entry', Amendments.Amended tx.flags amendment v.context.info.parentCloseTime
        ((v.get .amendments).getD {}) entry' ∧ v'.get .amendments = some entry' by
    cases found with
    | none =>
      obtain ⟨_, v2, his, hru⟩ := bind_eq_ok.mp hru
      have hin := eq_ok_of_settle his
      refine hth v2 ?_ ?_ hru
      · exact (View.evolves_insert (E := unrestricted) trivial hin).context.trans hsi.context
      · rw [View.get_insert hin, hf]
        rfl
    | some entry =>
      refine hth v1 hsi.context ?_ hru
      rw [hsi.entries, hf]
      rfl
  intro v2 hct hge hru
  obtain ⟨found', v3, hpk', hru⟩ := bind_eq_ok.mp hru
  obtain ⟨hf', hsi'⟩ := run_peek_eq_ok hpk'
  obtain ⟨entry, v4, hd, hru⟩ := bind_eq_ok.mp hru
  obtain ⟨rfl, rfl⟩ := run_deref_eq_ok hd
  obtain ⟨context, v4, hct', hru⟩ := bind_eq_ok.mp hru
  cases hct'
  rw [hge] at hf'
  cases hf'
  dsimp only at hru
  rw [hsi'.context, hct] at hru
  cases hae : amend tx amendment v.context.info.parentCloseTime ((v.get .amendments).getD {}) with
  | error ter =>
    rw [hae] at hru
    cases hru
    exact absurd rfl (ne_success_of_amend hae)
  | ok entry' =>
    rw [hae] at hru
    obtain ⟨_, v4, hal, hrs⟩ := bind_eq_ok.mp hru
    cases hal
    obtain ⟨_, v5, hup, hrt⟩ := bind_eq_ok.mp hrs
    cases hrt
    obtain ⟨sle, _, hed, _⟩ := View.edited_of_update (eq_ok_of_settle hup)
    refine ⟨entry', amended_of_amend hae, ?_⟩
    rw [hed, Function.update_self]

theorem Change.amended_of_applied {env : Env} {o : OpenView} {out : Outcome}
    (h : Applied env tx (processor env tx (applyAmendment tx amendment)) o flags out) :
    out.view.ledger.amendmentsEntry = o.ledger.amendmentsEntry ∨
      Amendments.Amended tx.flags amendment o.info.parentCloseTime o.ledger.amendmentsEntry
        out.view.ledger.amendmentsEntry := by
  have hfe : ∀ {result v fee o'}, (claimFee tx).run (o.fresh flags) = (result, v) →
      finish o tx v fee = .ok o' → o'.ledger.amendmentsEntry = o.ledger.amendmentsEntry := by
    intro result v fee o' hc hfn
    have heq := rel_of_finish (evolves_claimFee (E := charge) hc) hfn .amendments
    unfold Ledger.amendmentsEntry
    rw [show o'.ledger.lookup .amendments = o.ledger.lookup .amendments from heq]
  cases h with
  | claimed _ _ hc hfn => exact .inl (hfe hc hfn)
  | uncharged _ _ hc hfn => exact .inl (hfe hc hfn)
  | @success s o' hru _ hfn =>
    rcases run_apply_iff.mp hru with ⟨_, _, hne⟩ | ⟨found, s1, hpe, hea⟩
    · exact absurd rfl hne
    have hpr := (prepare env tx (processor env tx
      (applyAmendment tx amendment))).mono (initial tx o flags)
    rw [prepared_iff.mpr hpe] at hpr
    have he : s1.view.get .amendments = o.ledger.lookup .amendments :=
      (hpr.evolves.entries .amendments).trans (OpenView.get_fresh o flags _)
    have hct : s1.view.context.info = o.info := congrArg Context.info hpr.evolves.context
    obtain ⟨s2, hv, hb⟩ : ∃ s2 : TxState, View.Evolves still s1.view s2.view ∧
        (liftM (applyAmendment tx amendment) : TxM ordinary TER).run s2 = (.ok .tesSUCCESS, s) := by
      cases found with
      | false => exact ⟨s1, View.Evolves.refl _ _, hea⟩
      | true =>
        obtain ⟨_, s2, hmm, hea⟩ := bind_eq_ok.mp hea
        cases hmm
        obtain ⟨_, s3, hup, hb⟩ := bind_eq_ok.mp hea
        obtain ⟨v, hud, rfl⟩ := TxM.run_liftM_ledger_eq_ok hup
        exact ⟨_, evolves_of_run_update hud, hb⟩
    obtain ⟨v', han, rfl⟩ := TxM.run_liftM_ledger_eq_ok hb
    obtain ⟨entry', ha, hge⟩ := amended_of_applyAmendment han
    have hbs : v'.base = o.ledger := (rel_of_run han).base.trans (hv.base.trans hpr.evolves.base)
    rw [hv.entries, he, hv.context, hct] at ha
    have hle := ledger_of_finish hfn
    rcases View.lookup_commit v' .amendments with hsh | hu
    · right
      have haf : o'.ledger.amendmentsEntry = entry' := by
        rw [Ledger.amendmentsEntry, hle, hsh, hge]
        rfl
      rw [show (Outcome.view _).ledger = o'.ledger from rfl, haf]
      exact ha
    · left
      rw [hbs] at hu
      unfold Ledger.amendmentsEntry
      rw [show (Outcome.view _).ledger = o'.ledger from rfl, hle, hu]

variable {ledger' : Ledger}

theorem Event.Takes.amended {e : Event} (h : e.Takes ledger ledger')
    (hb : e.tx.body = .amendment amendment) :
    ledger'.amendmentsEntry = ledger.amendmentsEntry ∨
      Amendments.Amended e.tx.flags amendment e.before.info.parentCloseTime
        ledger.amendmentsEntry ledger'.amendmentsEntry := by
  obtain ⟨p, hp, _, hap⟩ := h.applied_cases
  unfold processorOf at hp
  rw [hb] at hp
  cases hp
  rw [← h.before, ← h.after]
  exact amended_of_applied hap

/-! ## Voting -/

/-- Each amendment is named once, none that is enabled. -/
structure Amendments.WellFormed (entry : Amendments) : Prop where
  nodup : (entry.record.map fst).Nodup
  disjoint : ∀ amendment ∈ entry.amendments, amendment ∉ entry.record.map fst

theorem Amendments.Amended.wellFormed (h : Amended flags amendment closeTime entry entry')
    (he : entry.WellFormed) : entry'.WellFormed := by
  have hfi : ((entry.record.filter fun majority => majority.1 != amendment).map
      fst).Sublist (entry.record.map fst) := filter_sublist.map _
  rcases h.cases with ⟨_, hnw, ham, hr⟩ | ⟨_, ham, hr⟩ | ⟨_, _, ham, hr⟩
  · constructor
    · rw [hr, map_append, map_singleton, nodup_append]
      refine ⟨he.nodup, nodup_singleton _, ?_⟩
      rintro name hn name' hn' rfl
      simp only [mem_singleton] at hn'
      subst hn'
      exact hnw hn
    · rw [ham, hr]
      intro enabled hen hn
      rw [map_append, map_singleton, mem_append, mem_singleton] at hn
      rcases hn with hn | rfl
      · exact he.disjoint enabled hen hn
      · exact h.notEnabled hen
  · constructor
    · rw [hr]
      exact he.nodup.sublist hfi
    · rw [ham, hr]
      intro enabled hen hn
      exact he.disjoint enabled hen (hfi.subset hn)
  · constructor
    · rw [hr]
      exact he.nodup.sublist hfi
    · rw [ham, hr]
      intro enabled hen hn
      rw [mem_append, mem_singleton] at hen
      rcases hen with hen | rfl
      · exact he.disjoint enabled hen (hfi.subset hn)
      · simp at hn

/-- A server votes for an action on the flag ledger `parent`. -/
def Voted (majorityTime : Int) (parent : Ledger) (closeTime : UInt32) (amendment : UInt256)
    (flags : Flags) : Prop :=
  ∃ (table : AmendmentTable) (valSet : List Validation), table.majorityTime = majorityTime ∧
    (table.doVoting closeTime (getEnabledAmendments parent) (getMajorityAmendments parent)
      valSet).lookup amendment = some flags

variable {parent : Ledger}

/-- A vote to enable rests on a majority that has held long enough. -/
theorem Voted.enables (h : Voted majorityTime parent closeTime amendment flags)
    (hg : flags.has tfGotMajority = false) (hl : flags.has tfLostMajority = false) :
    ∃ time : UInt32, (amendment, time) ∈ parent.amendmentsEntry.record ∧
      time.toNat + majorityTime ≤ closeTime.toNat := by
  obtain ⟨table, valSet, rfl, hac⟩ := h
  rw [doVoting, FiniteMap.lookup_filterMap, Option.bind_eq_some_iff] at hac
  obtain ⟨state, _, hac⟩ := hac
  unfold action at hac
  dsimp only at hac
  split at hac
  · cases hac
  split at hac
  · cases hac
    cases hg
  split at hac
  · cases hac
    cases hl
  split at hac
  · next ht =>
      simp only [and_eq_true, decide_eq_true_eq, bne_iff_ne] at ht
      cases hlk : (getMajorityAmendments parent).lookup amendment with
      | none => simp [hlk] at ht
      | some time =>
        rw [hlk] at ht
        exact ⟨time, mem_record_of_lookup hlk, ht.1.2⟩
  · cases hac

/-- How far an entry can be from the one voted on. -/
structure Amendments.Follows (majorityTime : Int) (closeTime parentCloseTime : UInt32)
    (parent entry : Amendments) : Prop where
  wellFormed : entry.WellFormed
  kept : ∀ amendment ∈ parent.amendments, amendment ∈ entry.amendments
  enabled : ∀ amendment ∈ entry.amendments, amendment ∈ parent.amendments ∨
    ∃ time : UInt32, (amendment, time) ∈ parent.record ∧ time.toNat + majorityTime ≤ closeTime.toNat
  recorded : ∀ majority ∈ entry.record, majority ∈ parent.record ∨ majority.2 = parentCloseTime

theorem Amendments.Follows.amended {parentCloseTime : UInt32}
    (h : Follows majorityTime closeTime parentCloseTime parent.amendmentsEntry entry)
    (hvo : Voted majorityTime parent closeTime amendment flags)
    (ha : Amended flags amendment parentCloseTime entry entry') :
    Follows majorityTime closeTime parentCloseTime parent.amendmentsEntry entry' := by
  have hfi : ∀ majority ∈ entry.record.filter (fun majority => majority.1 != amendment),
      majority ∈ parent.amendmentsEntry.record ∨ majority.2 = parentCloseTime :=
    fun majority hm => h.recorded majority (mem_of_mem_filter hm)
  have hwf := ha.wellFormed h.wellFormed
  rcases ha.cases with ⟨_, _, ham, hr⟩ | ⟨_, ham, hr⟩ | ⟨hg, hl, ham, hr⟩
  · refine ⟨hwf, ham ▸ h.kept, ham ▸ h.enabled, ?_⟩
    rw [hr]
    intro majority hm
    rw [mem_append, mem_singleton] at hm
    rcases hm with hm | rfl
    · exact h.recorded majority hm
    · exact .inr rfl
  · exact ⟨hwf, ham ▸ h.kept, ham ▸ h.enabled, hr ▸ hfi⟩
  · refine ⟨hwf, ?_, ?_, hr ▸ hfi⟩
    · rw [ham]
      intro enabled hen
      exact mem_append_left _ (h.kept enabled hen)
    rw [ham]
    intro enabled hen
    rw [mem_append, mem_singleton] at hen
    rcases hen with hen | rfl
    · exact h.enabled enabled hen
    · exact .inr (hvo.enables hg hl)

structure Round where
  /-- The flag ledger. -/
  parent : Ledger
  /-- The close time the vote goes by. -/
  closeTime : UInt32
  /-- The close time the next ledger has for its parent. -/
  parentCloseTime : UInt32
  events : List Event

/-- Voted for, or one that leaves the amendments alone. -/
inductive Round.Step (majorityTime : Int) (r : Round) (e : Event) (ledger ledger' : Ledger) : Prop
  | amendment {amendment : UInt256} (hta : e.Takes ledger ledger')
      (hb : e.tx.body = .amendment amendment)
      (hvo : Voted majorityTime r.parent r.closeTime amendment e.tx.flags)
      (ht : e.before.info.parentCloseTime = r.parentCloseTime)
  | other (heq : ledger'.lookup .amendments = ledger.lookup .amendments)

structure Round.Takes (majorityTime : Int) (r : Round) (ledger ledger' : Ledger) : Prop where
  parent : r.parent.lookup .amendments = ledger.lookup .amendments
  run : Run (r.Step majorityTime) r.parent r.events ledger'

theorem Round.Takes.follows {r : Round}
    (h : r.Takes majorityTime ledger ledger') (hle : ledger.amendmentsEntry.WellFormed) :
    Amendments.Follows majorityTime r.closeTime r.parentCloseTime ledger.amendmentsEntry
      ledger'.amendmentsEntry := by
  have hpa : r.parent.amendmentsEntry = ledger.amendmentsEntry := by
    unfold Ledger.amendmentsEntry
    rw [h.parent]
  rw [← hpa] at hle ⊢
  refine h.run.preserves (fun l => Amendments.Follows majorityTime r.closeTime r.parentCloseTime
    r.parent.amendmentsEntry l.amendmentsEntry) ?_ ?_
  · intro e l l' hst hfo
    cases hst with
    | other heq =>
      have he : l'.amendmentsEntry = l.amendmentsEntry := by
        unfold Ledger.amendmentsEntry
        rw [heq]
      rwa [he]
    | amendment hta hb hvo ht =>
      rcases hta.amended hb with he | ha
      · rwa [he]
      · rw [ht] at ha
        exact hfo.amended hvo ha
  · exact ⟨hle, fun _ h => h, fun _ h => .inl h, fun _ h => .inl h⟩

/-! ## Runs -/

/-- Where the majority was recorded, at the parent's close time. -/
def RecordedIn (ledger : ℕ → Ledger) (round : ℕ → Round) : ℕ → UInt256 × UInt32 → Prop
  | 0, majority => majority ∈ (ledger 0).amendmentsEntry.record
  | i + 1, majority => majority ∉ (ledger i).amendmentsEntry.record ∧
      majority ∈ (ledger (i + 1)).amendmentsEntry.record ∧ majority.2 = (round i).parentCloseTime

section Activation

variable {majorityTime : Int} {n : ℕ} {ledger : ℕ → Ledger} {round : ℕ → Round}

section

variable (hs : (ledger 0).amendmentsEntry.WellFormed)
  (hru : ∀ i < n, (round i).Takes majorityTime (ledger i) (ledger (i + 1))) {k : ℕ} (hk : k ≤ n)
include hs hru hk

theorem wellFormed_of_rounds : (ledger k).amendmentsEntry.WellFormed := by
  induction k with
  | zero => exact hs
  | succ k ih => exact ((hru k hk).follows (ih (le_of_lt hk))).wellFormed

/-- It was recorded in some ledger of the run and not removed since. -/
theorem recorded_since {maj : UInt256 × UInt32} (hm : maj ∈ (ledger k).amendmentsEntry.record) :
    ∃ i ≤ k, RecordedIn ledger round i maj ∧
      ∀ j, i ≤ j → j ≤ k → maj ∈ (ledger j).amendmentsEntry.record := by
  induction k with
  | zero =>
    refine ⟨0, le_refl 0, hm, fun j _ hj => ?_⟩
    rwa [le_zero.mp hj]
  | succ k ih =>
    by_cases hbe : maj ∈ (ledger k).amendmentsEntry.record
    · obtain ⟨i, hi, hre, hsn⟩ := ih (le_of_lt hk) hbe
      refine ⟨i, le_succ_of_le hi, hre, fun j hij hjk => ?_⟩
      rcases le_succ_iff.mp hjk with hj | rfl
      · exact hsn j hij hj
      · exact hm
    · have hfo := (hru k hk).follows (wellFormed_of_rounds hs hru (le_of_lt hk))
      rcases hfo.recorded maj hm with hold | ht
      · exact absurd hold hbe
      · refine ⟨k + 1, le_refl _, ⟨hbe, hm, ht⟩, fun j hij hjk => ?_⟩
        rwa [le_antisymm hjk hij]

end

/-- An amendment is enabled only after a majority for it was recorded and held, it stays enabled,
and no ledger records two majorities for it or one for an enabled amendment. -/
theorem enabled_only_after_majority (hs : (ledger 0).amendmentsEntry.WellFormed)
    (hru : ∀ i < n, (round i).Takes majorityTime (ledger i) (ledger (i + 1))) :
    (∀ k < n, ∀ amendment ∈ getEnabledAmendments (ledger (k + 1)),
      amendment ∉ getEnabledAmendments (ledger k) →
      ∃ i ≤ k, ∃ time : UInt32, RecordedIn ledger round i (amendment, time) ∧
        (∀ j, i ≤ j → j ≤ k → (amendment, time) ∈ (ledger j).amendmentsEntry.record) ∧
        time.toNat + majorityTime ≤ (round k).closeTime.toNat) ∧
      (∀ i k, i ≤ k → k ≤ n → ∀ amendment ∈ getEnabledAmendments (ledger i),
        amendment ∈ getEnabledAmendments (ledger k)) ∧
      ∀ k ≤ n, ((ledger k).amendmentsEntry.record.map fst).Nodup ∧
        ∀ amendment ∈ getEnabledAmendments (ledger k),
          amendment ∉ (ledger k).amendmentsEntry.record.map fst := by
  have hwf := fun {k} (hk : k ≤ n) => wellFormed_of_rounds hs hru hk
  refine ⟨fun k hk amendment hen hbe => ?_, fun i k hik => ?_, fun k hk => ?_⟩
  · have hfo := (hru k hk).follows (hwf (le_of_lt hk))
    rcases hfo.enabled amendment hen with hold | ⟨time, hr, ht⟩
    · exact absurd hold hbe
    · obtain ⟨i, hi, hre, hsn⟩ := recorded_since hs hru (le_of_lt hk) hr
      exact ⟨i, hi, time, hre, hsn, ht⟩
  · induction k, hik using le_induction with
    | base => exact fun _ _ hen => hen
    | succ k _ ih =>
      intro hk amendment hen
      have hkp := ih (le_of_lt hk) amendment hen
      exact ((hru k hk).follows (hwf (le_of_lt hk))).kept amendment hkp
  · exact ⟨(hwf hk).nodup, (hwf hk).disjoint⟩

end Activation

def amendmentTx (transactionID : UInt256) (flags : Flags) : STTx :=
  { body := .amendment 1
    account := 0
    sequence := 0
    fee := STAmount.zeroDrops
    flags := flags
    transactionID := transactionID }

/-- Amendment 1 gets its majority, and is then enabled. -/
theorem enabled_in_second_round :
    ∃ (ledger : ℕ → Ledger) (round : ℕ → Round), 1 ∉ getEnabledAmendments (ledger 1) ∧
      1 ∈ getEnabledAmendments (ledger 2) ∧
      ∃ i ≤ 1, ∃ time : UInt32, RecordedIn ledger round i (1, time) ∧
        time.toNat + 10 ≤ (round 1).closeTime.toNat := by
  let recorded : Amendments := { majorities := some [(1, 1000)] }
  let parent : Ledger := singleton .amendments recorded
  let table : AmendmentTable :=
    { amendmentMap := singleton 1 {}, majorityTime := 10, majorityFraction := 204 }
  let votes : List Validation := [{ isTrusted := true, amendments := some [1] }]
  have hvoted1 : Voted 10 ∅ 0 1 tfGotMajority := ⟨table, votes, rfl, by decide⟩
  have hvoted2 : Voted 10 parent 1010 1 0 := ⟨table, votes, rfl, by decide⟩
  obtain ⟨out1, htakes1, hledger1⟩ := event_of_invoke (amendmentTx 1 tfGotMajority) ∅
    (fun l => decide (l.lookup .amendments = some recorded)) (by decide +kernel)
  obtain ⟨out2, htakes2, hledger2⟩ := event_of_invoke (amendmentTx 2 0) parent
    (fun l => decide (l.lookup .amendments = some { amendments := [1] })) (by decide +kernel)
  replace hledger1 := of_decide_eq_true hledger1
  replace hledger2 := of_decide_eq_true hledger2
  let ledger : ℕ → Ledger
    | 0 => ∅
    | 1 => out1.view.ledger
    | _ => out2.view.ledger
  let round : ℕ → Round
    | 0 => ⟨∅, 0, 1000, [⟨sampleEnv, amendmentTx 1 tfGotMajority, 0, sampleView ∅, out1⟩]⟩
    | _ => ⟨parent, 1010, 1000, [⟨sampleEnv, amendmentTx 2 0, 0, sampleView parent, out2⟩]⟩
  have hru : ∀ i < 2, (round i).Takes 10 (ledger i) (ledger (i + 1)) := by
    intro i hi
    match i with
    | 0 => exact ⟨rfl, .cons (.amendment htakes1 rfl hvoted1 rfl) (.nil _)⟩
    | 1 => exact ⟨hledger1.symm, .cons (.amendment htakes2 rfl hvoted2 rfl) (.nil _)⟩
  have hbe : 1 ∉ getEnabledAmendments (ledger 1) := by
    unfold getEnabledAmendments Ledger.amendmentsEntry
    rw [show (ledger 1).lookup .amendments = some recorded from hledger1]
    decide
  have haf : 1 ∈ getEnabledAmendments (ledger 2) := by
    unfold getEnabledAmendments Ledger.amendmentsEntry
    rw [show (ledger 2).lookup .amendments = some { amendments := [1] } from hledger2]
    decide
  have hs : (ledger 0).amendmentsEntry.WellFormed := ⟨nodup_nil, nofun⟩
  obtain ⟨i, hi, time, hre, _, ht⟩ := (enabled_only_after_majority hs hru).1 1 (by decide) 1 haf hbe
  exact ⟨ledger, round, hbe, haf, i, hi, time, hre, by exact_mod_cast ht⟩

end Sand
