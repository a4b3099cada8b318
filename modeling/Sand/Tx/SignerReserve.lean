import Sand.Ledger.Frame
import Sand.Tx.Standard

/-!
# The reserve of a signer list

A signer list counts as two owned objects and one more for each entry.
-/

namespace Sand

open PreCheckM MonoM View LedgerM Option List Transactor Key

namespace Transactor

variable {E : Evolution} {P : Processor E}

def SameOp (s s' : TxState) : Prop := s'.signerListOp = s.signerListOp

instance : IsPreorder TxState SameOp where
  refl _ := rfl
  trans _ _ _ h h' := Eq.trans h' h

theorem keepsOp_setMembers {f : TxState → TxState} {h : ∀ s, (f s).view = s.view}
    (hop : ∀ s, (f s).signerListOp = s.signerListOp) :
    Keeps SameOp (liftM (setMembers f h) : CheckM Unit) :=
  keeps_modify (f := f) hop

theorem keepsOp_peek (k : Key) : Keeps SameOp (CheckM.peek k) := by
  intro s found s' h
  cases h
  rfl

theorem keepsOp_alterRoot {id : AccountID} {f : AccountRoot → AccountRoot}
    {h : ∀ root, Evolution.uncharged (f root) = Evolution.uncharged root} :
    Keeps SameOp (CheckM.alterRoot id f h) :=
  keeps_modify fun _ => rfl

theorem keepsOp_checkSeq (tx : STTx) : Keeps SameOp (checkSeq tx) := by
  refine keeps_bind (keeps_gets id) fun s => ?_
  refine keeps_bind (keepsOp_peek _) fun found => ?_
  cases found with
  | none => exact keeps_throw _
  | some root =>
    dsimp only
    cases seqRefusal tx s.view.context root with
    | some ter => exact keeps_pure _
    | none => exact keeps_bind keepsOp_alterRoot fun _ => keeps_pure _

theorem keepsOp_payFee (tx : STTx) : Keeps SameOp (payFee tx) := by
  refine keeps_bind (keeps_gets id) fun s => ?_
  refine keeps_ite (fun _ => keeps_pure _) fun _ => ?_
  refine keeps_bind (keeps_liftM_except _) fun _ => ?_
  refine keeps_ite (fun _ => keeps_pure _) fun _ => ?_
  refine keeps_ite (fun _ => keeps_pure _) fun _ => ?_
  refine keeps_ite (fun _ => keeps_pure _) fun _ => ?_
  refine keeps_bind (keepsOp_peek _) fun found => ?_
  refine keeps_bind (keeps_liftM_except _) fun _ => ?_
  refine keeps_ite (fun _ => keeps_pure _) fun _ => ?_
  refine keeps_bind (keeps_liftM_except _) fun balance => ?_
  refine keeps_bind (keepsOp_setMembers fun _ => rfl) fun _ => ?_
  refine keeps_ite (fun _ => keeps_throw _) fun _ => ?_
  exact keeps_bind keepsOp_alterRoot fun _ => keeps_pure _

theorem keepsOp_checkSign (env : Env) (tx : STTx) : Keeps SameOp (checkSign env tx) := by
  refine keeps_bind (keeps_gets id) fun s => ?_
  refine keeps_ite (fun _ => ?_) fun _ => ?_
  · exact keeps_bind (keeps_gets id) fun _ => keeps_pure _
  refine keeps_bind (keeps_gets id) fun s => ?_
  refine keeps_bind (keepsOp_peek _) fun found => ?_
  refine keeps_ite (fun _ => ?_) fun _ => keeps_ite (fun _ => ?_) fun _ => keeps_pure _
  · refine keeps_bind (keepsOp_setMembers fun _ => rfl) fun _ => ?_
    cases found with
    | none => exact keeps_throw _
    | some root => exact keeps_pure _
  · cases found with
    | none => exact keeps_throw _
    | some root => exact keeps_pure _

variable {env : Env} {tx : STTx}

theorem Standard.signerListOp_of_prepared (hst : Standard env tx P) {s s' : TxState}
    {ter : TER} (h : Prepared env tx P s (ter, true) s') :
    ∃ s1, P.preCheck.run s = (.ok .tesSUCCESS, s1) ∧ s'.signerListOp = s1.signerListOp := by
  cases h with
  | @checked s1 s2 _ _ prior hcl _ hch =>
    refine ⟨s1, hcl.preCheck, ?_⟩
    obtain ⟨fee, s3, due, hbs, _, rfl⟩ := run_calculateFee_eq_ok hcl.due
    obtain ⟨fee', hbs'⟩ := hst.baseFee
      { s1 with view := (s1.view.peek (.account s1.account)).2 } (View.peek_peek _ _)
    rw [hbs'] at hbs
    cases hbs
    suffices hke : Keeps SameOp (checks P) from (hke hch).trans rfl
    unfold checks
    rw [hst.checkSeq, hst.payFee, hst.checkSign]
    refine keeps_bind (keepsOp_checkSeq tx) fun _ => ?_
    refine keeps_ite (fun _ => keeps_pure _) fun _ => ?_
    refine keeps_bind (keepsOp_payFee tx) fun _ => ?_
    exact keeps_ite (fun _ => keeps_pure _) fun _ => keepsOp_checkSign env tx

end Transactor

def Ledger.Lists (ledger : Ledger) (root : DirRoot) (page : UInt64) (entry : Key) : Prop :=
  ∃ node : DirNode, ledger.lookup (.dir root page) = some node ∧ entry ∈ node.indexes

def Ledger.ListsOnce (ledger : Ledger) (root : DirRoot) (entry : Key) : Prop :=
  ∀ (page : UInt64) (node : DirNode), ledger.lookup (.dir root page) = some node →
    entry ∈ node.indexes → node.indexes.count entry = 1 ∧
      ∀ page', ledger.Lists root page' entry → page' = page

namespace SetSignerList

def listReserve (entryCount : Option Nat) : Nat := entryCount.elim 0 ownerCountDelta

variable (count : UInt32)

/-- The old share is added, then the new. -/
def countAfter (old new : Option Nat) : UInt32 :=
  let destroyed := old.elim count fun n => adjustedCount count (ownerCountDelta n)
  new.elim destroyed fun m => adjustedCount destroyed (ownerCountDelta m)

/-- There was no list and the new share fits, or the count stops right by chance at its
upper end. -/
def CountRight : Option Nat → Option Nat → Prop
  | none, none => True
  | none, some m => count.toNat + ownerCountDelta m < 2 ^ 32
  | some _, none => False
  | some n, some m => count.toNat + m = n + (2 ^ 32 - 1)

theorem countAfter_eq_iff (old new : Option Nat) (hnw : ∀ m ∈ new, m ≤ maxEntries) :
    ((countAfter count old new).toNat : Int) =
        count.toNat - listReserve old + listReserve new ↔ CountRight count old new := by
  have hlt := count.toNat_lt
  have hdt : ∀ n, 0 < ownerCountDelta n := fun n => by unfold ownerCountDelta; omega
  cases old with
  | none =>
    cases new with
    | none => simp [countAfter, listReserve, CountRight]
    | some m =>
      have hm := hnw m rfl
      simp only [countAfter, listReserve, CountRight, elim_none, elim_some,
        toNat_adjustedCount _ (hdt m)]
      omega
  | some n =>
    cases new with
    | none =>
      simp only [countAfter, listReserve, CountRight, elim_none, elim_some, iff_false]
      have hra := toNat_adjustedCount count (hdt n)
      unfold ownerCountDelta at *
      omega
    | some m =>
      have hm := hnw m rfl
      simp only [countAfter, listReserve, CountRight, elim_some]
      have hra := toNat_adjustedCount count (hdt n)
      have hset := toNat_adjustedCount (adjustedCount count (ownerCountDelta n)) (hdt m)
      unfold ownerCountDelta maxEntries at *
      omega

/-! ## What the body does -/

/-- The share of `old` is added and its directory entry removed. -/
structure Destroyed (id : AccountID) (old : Option SignerList) (v v' : View) : Prop where
  root : ∃ root, v.get (.account id) = some root ∧ v'.get (.account id) = some { root with
    ownerCount := old.elim root.ownerCount fun list =>
      adjustedCount root.ownerCount (ownerCountDelta list.signerEntries.length) }
  written : v.Writes (.account id) → v'.Writes (.account id)
  list : v'.get (.signers id) = none
  listWritten : v.get (.signers id) = v.base.lookup (.signers id) → old ≠ none →
    v'.Writes (.signers id)
  removed : old ≠ none → ∃ page node, RemovedFrom (.owner id) (.signers id) v v' page node

variable {root : AccountRoot} {v v' : View} {s : TxState} {tx : STTx} {fields : SignerListSetTx}

variable {id : AccountID}

theorem destroyed_of_run (hr : v.get (.account id) = some root)
    (run : (destroySignerList id).run v = (.ok .tesSUCCESS, v')) :
    Destroyed id (v.get (.signers id)) v v' := by
  obtain ⟨found, v1, hpk, run⟩ := bind_eq_ok.mp run
  obtain ⟨hf, hsl⟩ := run_peek_eq_ok hpk
  have hg : v1.get = v.get := funext hsl.entries
  have hsame1 : SameBut (Eq (.signers id)) v v1 := LedgerM.sameBut_peek rfl hpk
  have ha : ¬ signers id = .account id := nofun
  rw [hf]
  cases found with
  | none =>
    cases run
    exact ⟨⟨root, hr, by rw [hg]; exact hr⟩, (hsame1.writes ha).mpr,
      by rw [hg]; exact hf, fun _ hne => absurd rfl hne, fun hne => absurd rfl hne⟩
  | some list =>
    obtain ⟨result, v2, hdl, run⟩ := bind_eq_ok.mp run
    have hdl : (dirDelete false list.ownerNode (.owner id) (.signers id) false
      (list.ownerNode == 0)).run v1 = (.ok result, v2) := hdl
    have hsame2 := sameBut_dirDelete _ _ _ _ hdl
    have hdi : ¬ (Key.account id).IsDir := nofun
    obtain rfl | hrs := eq_or_ne result .tesSUCCESS
    · obtain ⟨_, v3, hau, run⟩ := bind_eq_ok.mp run
      obtain ⟨_, v4, he, run⟩ := bind_eq_ok.mp run
      cases run
      have he := eq_ok_of_settle he
      obtain ⟨root', hr', haj, hwr, hsame3⟩ := adjusted_of_adjustOwnerCount hau
      have hsame4 : SameBut (Eq (.signers id)) v3 v' := View.sameBut_erase rfl he
      obtain ⟨page, node, hre⟩ := removedFrom_of_dirDelete hdl
      rw [hsame2.get hdi, hg, hr] at hr'
      cases hr'
      refine ⟨⟨root, hr, ?_⟩, fun _ => ?_, get_erase he, fun hfr _ => ?_, fun _ => ?_⟩
      · rw [hsame4.get ha]
        exact haj
      · exact (hsame4.writes ha).mpr hwr
      · refine writes_erase ?_ he
        rw [hsame3.base, hsame2.base, hsame1.base, ← hfr, hf]
        exact nofun
      · have hremoved3 := (hre.of_get hg hsame1.base).of_sameBut hsame3 fun _ => by simp
        exact ⟨page, node, hremoved3.of_sameBut hsame4 fun _ => by simp⟩
    · rw [if_neg hrs] at run
      obtain ⟨_, v3, _, run⟩ := bind_eq_ok.mp run
      cases run
      exact absurd rfl hrs

/-- The list `old` has made way for `new`. -/
structure Settled (id : AccountID) (old new : Option SignerList) (v v' : View) : Prop where
  root : ∃ root, v.get (.account id) = some root ∧ v'.get (.account id) = some { root with
    ownerCount := countAfter root.ownerCount (old.map fun list => list.signerEntries.length)
      (new.map fun list => list.signerEntries.length) }
  written : v.Writes (.account id) → v'.Writes (.account id)
  list : v'.get (.signers id) = new
  listWritten : v.get (.signers id) = v.base.lookup (.signers id) → old ≠ none ∨ new ≠ none →
    v'.Writes (.signers id)
  /-- The old list's page, and where a list is now. -/
  removed : old ≠ none → ∃ (page : UInt64) (node : DirNode),
    v.get (.dir (.owner id) page) = some node ∧ signers id ∈ node.indexes ∧
      (v.base.lookup (.dir (.owner id) page) ≠ none → v'.Writes (.dir (.owner id) page)) ∧
      ∀ page', (∀ list ∈ new, page' ≠ list.ownerNode) → v'.Lists (.owner id) page' (.signers id) →
        v.Lists (.owner id) page' (.signers id) ∧
          (node.indexes.count (.signers id) = 1 → page' ≠ page)

theorem Destroyed.settled {old : Option SignerList} (h : Destroyed id old v v') :
    Settled id old none v v' where
  root := by
    obtain ⟨root, hr, hr'⟩ := h.root
    refine ⟨root, hr, hr'.trans ?_⟩
    cases old <;> rfl
  written := h.written
  list := h.list
  listWritten := fun hfr hold => h.listWritten hfr (hold.resolve_right (not_not.mpr rfl))
  removed := by
    intro hold
    obtain ⟨page, node, hre⟩ := h.removed hold
    refine ⟨page, node, hre.get, hre.mem, hre.writes, fun page' _ hl => ?_⟩
    refine ⟨hre.lists page' not_false hl, ?_⟩
    rintro hc rfl
    exact hre.gone hc hl

theorem settled_of_replace {quorum : UInt32} {sgs : List SignerEntry}
    (hr : v.get (.account s.account) = some root)
    (run : (replaceSignerList s quorum sgs).run v = (.ok .tesSUCCESS, v')) :
    ∃ hint, Settled s.account (v.get (.signers s.account)) (some ⟨hint, quorum, sgs⟩) v v' := by
  obtain ⟨destroyed, v1, hde, run⟩ := bind_eq_ok.mp run
  by_cases hrs : destroyed = .tesSUCCESS
  swap
  · rw [if_pos hrs] at run
    cases run
    exact absurd rfl hrs
  subst hrs
  have hds := destroyed_of_run hr hde
  obtain ⟨found, v2, hpk, run⟩ := bind_eq_ok.mp run
  obtain ⟨sle, _, hdf, run⟩ := bind_eq_ok.mp run
  obtain ⟨rfl, rfl⟩ := run_deref_eq_ok hdf
  obtain ⟨ctx, _, hcx, run⟩ := bind_eq_ok.mp run
  cases hcx
  obtain ⟨short, _, hlt, run⟩ := bind_eq_ok.mp run
  obtain ⟨_, rfl⟩ := run_liftM_except_eq_ok.mp hlt
  cases short with
  | true => cases run
  | false =>
    obtain ⟨_, v3, hin, run⟩ := bind_eq_ok.mp run
    obtain ⟨⟨result, hint⟩, v4, had, run⟩ := bind_eq_ok.mp run
    rw [run_ite] at run
    by_cases hrs : result = .tesSUCCESS
    swap
    · rw [if_pos hrs] at run
      cases run
      exact absurd rfl hrs
    subst hrs
    obtain ⟨_, v5, hat, run⟩ := bind_eq_ok.mp run
    obtain ⟨_, v6, hau, run⟩ := bind_eq_ok.mp run
    cases run
    cases hat
    have had : (dirAdd (.owner s.account) (.signers s.account)).run v3 =
      (.ok (.tesSUCCESS, hint), v4) := had
    have hin := eq_ok_of_settle hin
    have ha : ¬ signers s.account = .account s.account := nofun
    have hsi : ¬ Key.account s.account = .signers s.account := nofun
    have hsame2 : SameBut (Eq (.account s.account)) v1 v2 := LedgerM.sameBut_peek rfl hpk
    have hsame3 : SameBut (Eq (.signers s.account)) v2 v3 := View.sameBut_insert rfl hin
    have hsame4 := sameBut_dirAdd had
    have hsame5 : SameBut (Eq (.signers s.account)) v4 (v4.alter (.signers s.account)
      fun list => { list with ownerNode := hint }) := View.sameBut_alter rfl
    obtain ⟨root', hr', haj, hwr, hsame6⟩ := adjusted_of_adjustOwnerCount hau
    have hget2 : v2.get = v1.get := funext (run_peek_eq_ok hpk).2.entries
    have hdi : ¬ (signers s.account).IsDir := nofun
    have hroot_dir : ¬ (Key.account s.account).IsDir := nofun
    obtain ⟨root0, hroot0, hroot1⟩ := hds.root
    rw [hsame5.get ha, hsame4.get hroot_dir, hsame3.get ha, hget2, hroot1] at hr'
    cases hr'
    have hli : v'.get (.signers s.account) = some ⟨hint, quorum, sgs⟩ := by
      have hget4 : v4.get (.signers s.account) = some ⟨0, quorum, sgs⟩ := by
        rw [hsame4.get hdi]
        exact get_insert hin
      have hou := (hsame4.out hdi).mpr (out_insert hin)
      rw [hsame6.get hsi, get_alter hou hget4, Function.update_self]
    refine ⟨hint, ⟨root0, hroot0, ?_⟩, fun _ => hwr, hli, fun _ _ => ?_, fun hold => ?_⟩
    · rw [haj]
      cases v.get (.signers s.account) <;> rfl
    · exact (hsame6.writes hsi).mpr (((hsame4.writes hdi).mpr (writes_insert hin)).alter _)
    · obtain ⟨page, node, hre⟩ := hds.removed hold
      have hremoved3 := (hre.of_sameBut hsame2 fun _ => by simp).of_sameBut hsame3 fun _ => by simp
      have hdir5 : ∀ page, ¬ signers s.account = .dir (.owner s.account) page := by simp
      have hdir6 : ∀ page, ¬ Key.account s.account = .dir (.owner s.account) page := by simp
      refine ⟨page, node, hre.get, hre.mem, fun hbs => ?_, fun page' hne hl => ?_⟩
      · have hbase3 : v3.base = v.base := by
          rw [hsame3.base, hsame2.base, (rel_of_run hde).base]
        have hwrites4 := (rel_of_run had).writes _ (by rwa [hbase3]) (hremoved3.writes hbs)
        exact (hsame6.writes (hdir6 page)).mpr ((hsame5.writes (hdir5 page)).mpr hwrites4)
      have hlists3 : v3.Lists (.owner s.account) page' (.signers s.account) := by
        refine listsBut_dirAdd had page' (hne _ rfl) ?_
        obtain ⟨node', hg', hme'⟩ := hl
        rw [hsame6.get (hdir6 page'), hsame5.get (hdir5 page')] at hg'
        exact ⟨node', hg', hme'⟩
      refine ⟨hremoved3.lists page' not_false hlists3, ?_⟩
      rintro hc rfl
      exact hremoved3.gone hc hlists3

/-! ## What becomes of the ledger -/

def sortedEntries (entries : List SignerEntry) : List SignerEntry :=
  entries.mergeSort fun a b => decide (a.account ≤ b.account)

theorem operation_eq_ok {op : SignerListOp} (h : operation tx fields = .ok op) :
    (fields.signerEntries = none ∧ op = .destroy) ∨
      ∃ entries, fields.signerEntries = some entries ∧ entries.length ≤ maxEntries ∧
        op = .set fields.signerQuorum (sortedEntries entries) := by
  unfold operation at h
  cases hes : fields.signerEntries with
  | none =>
    simp only [hes] at h
    split at h <;> cases h
    exact .inl ⟨rfl, rfl⟩
  | some entries =>
    simp only [hes] at h
    split at h
    · cases h
    split at h
    · cases h
    next hvl =>
      cases h
      refine .inr ⟨entries, rfl, ?_, rfl⟩
      unfold validateQuorumAndSignerEntries at hvl
      split_ifs at hvl with hlen
      rw [length_mergeSort] at hlen
      omega

def entryCount (ledger : Ledger) (id : AccountID) : Option Nat :=
  (ledger.lookup (.signers id)).map fun list : SignerList => list.signerEntries.length

/-- The owner count has changed by the difference of the shares, the new list has taken the place
of the old one, and the owner directory lists no other. -/
structure ReserveKept (id : AccountID) (fields : SignerListSetTx) (before after : Ledger) :
    Prop where
  count : ∀ prior : AccountRoot, before.lookup (.account id) = some prior →
    ∃ root : AccountRoot, after.lookup (.account id) = some root ∧
      (root.ownerCount.toNat : Int) = prior.ownerCount.toNat - listReserve (entryCount before id) +
        listReserve (fields.signerEntries.map length)
  list : (after.lookup (.signers id)).map (fun list : SignerList =>
      (list.signerQuorum, list.signerEntries)) =
    fields.signerEntries.map fun entries => (fields.signerQuorum, sortedEntries entries)
  directory : entryCount before id ≠ none → before.ListsOnce (.owner id) (.signers id) →
    ∀ page, after.Lists (.owner id) page (.signers id) →
      ∃ list : SignerList, after.lookup (.signers id) = some list ∧ page = list.ownerNode

variable {s' : TxState}

theorem settled_of_doApply (hop : operation tx fields = .ok s.signerListOp)
    (hr : s.view.get (.account s.account) = some root)
    (run : doApply.run s = (.ok .tesSUCCESS, s')) :
    ∃ new : Option SignerList, new.map (fun list => (list.signerQuorum, list.signerEntries)) =
        fields.signerEntries.map (fun entries => (fields.signerQuorum, sortedEntries entries)) ∧
      Settled s.account (s.view.get (.signers s.account)) new s.view s'.view := by
  unfold doApply at run
  simp only [run_bind, PreCheckM.run_liftM_tx, run_members, bindRun_ok] at run
  rcases operation_eq_ok hop with ⟨hno, hde⟩ | ⟨entries, hso, _, hset⟩
  · rw [hde] at run
    obtain ⟨v', hds, rfl⟩ := TxM.run_liftM_ledger_eq_ok run
    exact ⟨none, by rw [hno]; rfl, (destroyed_of_run hr hds).settled⟩
  · rw [hset] at run
    obtain ⟨v', hrp, rfl⟩ := TxM.run_liftM_ledger_eq_ok run
    obtain ⟨hint, hse⟩ := settled_of_replace hr hrp
    exact ⟨_, by rw [hso]; rfl, hse⟩

theorem operation_of_preCheck {env : Env}
    (h : (preCheck env tx fields).run s = (.ok .tesSUCCESS, s')) :
    operation tx fields = .ok s'.signerListOp := by
  unfold preCheck preCheckFor at h
  simp only [run_bind, PreCheckM.run_context, bindRun_ok] at h
  cases hdis : disabledUnlessTesting s.view.context with
  | some refused =>
    simp only [hdis] at h
    cases h
    exact absurd rfl (refuses_disabledUnlessTesting _ _ hdis).2
  | none =>
    simp only [hdis, run_bind, run_preCheckAccount, bindRun_ok] at h
    cases hop : operation tx fields with
    | error refused =>
      simp only [hop] at h
      cases h
      exact absurd rfl (refuses_operation tx fields hop).2
    | ok op =>
      simp only [hop, run_bind, run_setMembers, bindRun_ok] at h
      rw [run_preCheckSigningKey] at h
      split_ifs at h <;> cases h <;> rfl

section Ledger

variable {id : AccountID} {old new : Option SignerList} {v v' : View}

theorem Settled.reserveKept_iff {fs : SignerListSetTx} {pri : AccountRoot}
    (h : Settled id old new v v') (hbs : v'.base = v.base)
    (hold : v.base.lookup (.signers id) = old) (hpr : v.base.lookup (.account id) = some pri)
    (hc : root.ownerCount = pri.ownerCount)
    (hi : v.items.lookup (.account id) = some (.modify, root))
    (hfr : ∀ k, k ≠ .account id → v.items.lookup k = none)
    (hnw : new.map (fun list => (list.signerQuorum, list.signerEntries)) =
      fs.signerEntries.map (fun entries => (fs.signerQuorum, sortedEntries entries)))
    (hma : ∀ entries ∈ fs.signerEntries, entries.length ≤ maxEntries) :
    ReserveKept id fs v.base v'.commit ↔
      CountRight pri.ownerCount (entryCount v.base id) (fs.signerEntries.map length) := by
  have hes : new.map (fun list => list.signerEntries.length) =
      fs.signerEntries.map length := by
    have hln := congrArg (Option.map fun p => p.2.length) hnw
    simpa [Function.comp_def, sortedEntries] using hln
  have hma' : ∀ m ∈ fs.signerEntries.map length, m ≤ maxEntries := by
    intro m hm
    obtain ⟨entries, hso, rfl⟩ := map_eq_some_iff.mp hm
    exact hma entries hso
  have hr' : v'.commit.lookup (.account id) = some { root with
      ownerCount := countAfter pri.ownerCount (entryCount v.base id)
        (fs.signerEntries.map length) } := by
    obtain ⟨root0, hroot0, haf⟩ := h.root
    rw [get_of_item hi] at hroot0
    cases hroot0
    rw [(h.written ⟨_, hi, nofun⟩).lookup_commit, haf, hc, hes, entryCount, hold]
  have hli : v'.commit.lookup (.signers id) = new := by
    have hg : v.get (.signers id) = v.base.lookup (.signers id) := get_of_none (hfr _ nofun)
    by_cases hwr : old ≠ none ∨ new ≠ none
    · rw [(h.listWritten hg hwr).lookup_commit, h.list]
    simp only [ne_eq, not_or, not_not] at hwr
    obtain ⟨rfl, rfl⟩ := hwr
    rcases lookup_commit v' (.signers id) with hsh | hkp
    · rw [hsh, h.list]
    · rw [hkp, hbs, hold]
  have hdr : entryCount v.base id ≠ none → v.base.ListsOnce (.owner id) (.signers id) →
      ∀ page, v'.commit.Lists (.owner id) page (.signers id) →
        ∃ list : SignerList, v'.commit.lookup (.signers id) = some list ∧
          page = list.ownerNode := by
    rintro hso hoc page ⟨node, hn, hme⟩
    by_contra hnt
    have ho : ∀ list ∈ new, page ≠ list.ownerNode := by
      rintro list hli' rfl
      exact hnt ⟨list, hli.trans hli', rfl⟩
    have hsh : ∀ page, v.get (.dir (.owner id) page) = v.base.lookup (.dir (.owner id) page) :=
      fun page => get_of_none (hfr _ nofun)
    obtain ⟨page0, node0, hnode0, hmem0, hw, hl⟩ := h.removed (by
      rintro rfl
      exact hso (by rw [entryCount, hold]; rfl))
    rw [hsh] at hnode0
    obtain ⟨hoe, hon⟩ := hoc page0 node0 hnode0 hmem0
    -- the page that listed the old list is written, and the others did not list it
    have hpa : page = page0 := by
      rcases lookup_commit v' (.dir (.owner id) page) with hvi | hkp
      · obtain ⟨node', hg', hme'⟩ := (hl page ho ⟨node, hvi ▸ hn, hme⟩).1
        exact hon page ⟨node', (hsh page).symm.trans hg', hme'⟩
      · exact hon page ⟨node, by rw [← hbs, ← hkp, hn], hme⟩
    subst hpa
    rw [(hw (by rw [hnode0]; exact nofun)).lookup_commit] at hn
    exact (hl page ho ⟨node, hn, hme⟩).2 hoe rfl
  rw [← countAfter_eq_iff _ _ _ hma']
  constructor
  · intro hkp
    obtain ⟨root1, hroot1, heq⟩ := hkp.count pri hpr
    rw [hr'] at hroot1
    cases hroot1
    exact heq
  · intro heq
    refine ⟨fun pri' hpr' => ⟨_, hr', ?_⟩, ?_, hdr⟩
    · rw [hpr] at hpr'
      cases hpr'
      exact heq
    · rw [hli, hnw]

end Ledger

open Transactor in
/-- After a signer list has been set or removed, the reserve is right exactly if there was none
before and the count has room, or by chance at the end of its range. -/
theorem reserveKept_iff_countRight {env : Env} {o : OpenView} {flags : Flags} {out : Outcome}
    (hb : tx.body = .signerListSet fields) (hap : Sand.apply env tx o flags = some out)
    (hal : out.didApply = true) (ht : out.ter = .tesSUCCESS) :
    ∃ prior : AccountRoot, o.ledger.lookup (.account tx.account) = some prior ∧
      (ReserveKept tx.account fields o.ledger out.view.ledger ↔
        CountRight prior.ownerCount (entryCount o.ledger tx.account)
          (fields.signerEntries.map length)) := by
  obtain ⟨p, hp, _, hal⟩ := applied_of_invoke (invoke_of_apply hap hal) hal
  unfold processorOf at hp
  rw [hb] at hp
  cases hp
  have hst : Standard env tx (processor env tx fields) :=
    standard_standard (SetSignerList.preChecked env tx fields)
  obtain ⟨s', run, hld⟩ := hal.run_of_tesSUCCESS ht
  rcases hst.start_of_apply run with
    ⟨hne, _⟩ | ⟨prior, balance, s, hpe, _, ha, _, hv, ⟨s1, hpp, hs⟩, hd⟩
  · exact absurd rfl hne
  refine ⟨prior, hpe.root, ?_⟩
  obtain ⟨s2, hpre, hsa⟩ := hst.signerListOp_of_prepared hpp
  have hop : operation tx fields = .ok s.signerListOp := by
    rw [hs, hsa]
    exact operation_of_preCheck hpre
  have hi : s.view.items.lookup (.account tx.account) =
      some (.modify, paidRoot tx balance prior) := by
    rw [hv, lookup_setItem]
  have hfr : ∀ k, k ≠ .account tx.account → s.view.items.lookup k = none := by
    intro k hk
    rw [hv, lookup_setItem_ne _ _ hk]
    exact AList.lookup_empty k
  have hbs : s.view.base = o.ledger := by rw [hv]; rfl
  obtain ⟨new, hnw, hse⟩ := settled_of_doApply hop (by rw [ha]; exact get_of_item hi) hd
  rw [ha, get_of_none (hfr (.signers tx.account) nofun)] at hse
  have hma : ∀ entries ∈ fields.signerEntries, entries.length ≤ maxEntries := by
    intro entries hes
    rcases operation_eq_ok hop with ⟨hno, _⟩ | ⟨entries', hso, hle, _⟩
    · rw [hno] at hes
      cases hes
    · rw [hso] at hes
      cases hes
      exact hle
  rw [hld, ← hbs]
  have hpr : s.view.base.lookup (.account tx.account) = some prior := by
    rw [hbs]
    exact hpe.root
  have hc : (paidRoot tx balance prior).ownerCount = prior.ownerCount := rfl
  exact hse.reserveKept_iff (rel_of_run hd).base rfl hpr hc hi hfr hnw hma

/-! ## Setting a list and removing it -/

def ownerLedger : Ledger :=
  AList.insert (.account 1) { sequence := 1, balance := .ofDrops 100000 } ∅

def twoSigners : SignerListSetTx := ⟨2, some [⟨2, 1⟩, ⟨3, 1⟩]⟩

def listTx (fields : SignerListSetTx) (sequence : UInt32) : STTx :=
  { sampleTx (.signerListSet fields) with sequence := sequence }

def ownerCountOf (ledger : Ledger) (id : AccountID) : Option UInt32 :=
  (ledger.lookup (.account id)).map fun root : AccountRoot => root.ownerCount

def ledgerOf (out : Option Transactor.Outcome) : Option Ledger :=
  out.bind fun out =>
    if out.didApply ∧ out.ter = .tesSUCCESS then some out.view.ledger else none

theorem exists_of_ledgerOf {out : Option Transactor.Outcome} {ledger : Ledger}
    (h : ledgerOf out = some ledger) :
    ∃ out', out = some out' ∧ out'.didApply ∧ out'.ter = .tesSUCCESS ∧
      out'.view.ledger = ledger := by
  obtain ⟨out', hou, hld⟩ := bind_eq_some_iff.mp h
  split_ifs at hld with hsu
  cases hld
  exact ⟨out', hou, hsu.1, hsu.2, rfl⟩

def sent (fields : SignerListSetTx) (sequence : UInt32) (ledger : Ledger) : Option Ledger :=
  ledgerOf (Sand.apply sampleEnv (listTx fields sequence) (sampleView ledger) tapENABLE_TESTING)

/-- The same, with what `preCheck` decides on given. -/
def sentAs (op : Except TER SignerListOp) (fields : SignerListSetTx) (sequence : UInt32)
    (ledger : Ledger) : Option Ledger :=
  let tx := listTx fields sequence
  ledgerOf (match operate sampleEnv tx (standard sampleEnv tx (preCheckFor sampleEnv tx op) doApply)
      (sampleView ledger) tapENABLE_TESTING with
    | .ok out => some out
    | .error .exception => some ⟨.tefEXCEPTION, false, sampleView ledger⟩
    | .error .crash => none)

theorem sent_eq_sentAs (fs : SignerListSetTx) (sq : UInt32) (ledger : Ledger) : sent fs sq ledger =
      sentAs (operation (listTx fs sq) fs) fs sq ledger :=
  rfl

theorem operation_twoSigners (sq : UInt32) :
    operation (listTx twoSigners sq) twoSigners = .ok (.set 2 [⟨2, 1⟩, ⟨3, 1⟩]) := by
  have hsr : sortedEntries [⟨2, 1⟩, ⟨3, 1⟩] = [⟨2, 1⟩, ⟨3, 1⟩] := mergeSort_of_pairwise (by decide)
  unfold sortedEntries at hsr
  simp only [operation, twoSigners, listTx, sampleTx, hsr]
  decide

/-- The first list is counted right. -/
theorem first_list_counted : ∃ ledger, sent twoSigners 1 ownerLedger = some ledger ∧
    ReserveKept 1 twoSigners ownerLedger ledger := by
  have hsn : (sent twoSigners 1 ownerLedger).isSome := by
    rw [sent_eq_sentAs, operation_twoSigners]
    decide +kernel
  obtain ⟨ledger, hsn⟩ := isSome_iff_exists.mp hsn
  obtain ⟨out, hap, hal, ht, rfl⟩ := exists_of_ledgerOf hsn
  obtain ⟨prior, hpr, hif⟩ := reserveKept_iff_countRight rfl hap hal ht
  refine ⟨_, hsn, hif.mpr ?_⟩
  have hr : ownerLedger.lookup (.account 1) =
      some ({ sequence := 1, balance := .ofDrops 100000 } : AccountRoot) :=
    rfl
  cases hpr.symm.trans hr
  change 0 + ownerCountDelta 2 < 2 ^ 32
  decide

/-- Set and removed again, it leaves eight. -/
theorem ownerCount_raised_by_removal : ∃ ledger ledger',
    sent twoSigners 1 ownerLedger = some ledger ∧ sent ⟨0, none⟩ 2 ledger = some ledger' ∧
      ownerCountOf ownerLedger 1 = some 0 ∧ ownerCountOf ledger 1 = some 4 ∧
      ownerCountOf ledger' 1 = some 8 ∧ ¬ ReserveKept 1 ⟨0, none⟩ ledger ledger' := by
  have hrn : ((sent twoSigners 1 ownerLedger).bind fun ledger =>
      (sent ⟨0, none⟩ 2 ledger).map fun ledger' =>
        (ownerCountOf ledger 1, ownerCountOf ledger' 1, entryCount ledger 1)) =
      some (some 4, some 8, some 2) := by
    rw [sent_eq_sentAs, operation_twoSigners]
    decide +kernel
  obtain ⟨ledger, hset, hrn⟩ := bind_eq_some_iff.mp hrn
  obtain ⟨ledger', hrm, hct⟩ := map_eq_some_iff.mp hrn
  simp only [Prod.mk.injEq] at hct
  obtain ⟨hfo, height, hes⟩ := hct
  refine ⟨ledger, ledger', hset, hrm, by decide, hfo, height, fun hkp => ?_⟩
  obtain ⟨prior, hpr, hc⟩ := map_eq_some_iff.mp hfo
  obtain ⟨root, hr, heq⟩ := hkp.count prior hpr
  obtain ⟨root', hr', hc'⟩ := map_eq_some_iff.mp height
  rw [hr] at hr'
  cases hr'
  rw [hc, hc', hes] at heq
  revert heq
  decide

end SetSignerList

end Sand
