import Sand.Consensus.Tallies

/-!
# Disputes cover disagreements

Differences of our set to compared sets are disputed, and our votes say what our set has.
-/

namespace Sand

open List AList OrderedMap DisputedTx LedgerConsensus TxSet FiniteMap

namespace TxSet

theorem mem_delta_iff {m1 m2 : TxSet} {id : UInt256} :
    id ∈ (delta m1 m2).map Prod.fst ↔ m1.find id ≠ m2.find id := by
  simp only [delta, map_append, map_map, mem_append, mem_map,
    mem_filter, Function.comp_apply, decide_eq_true_eq, hasItem, Bool.not_eq_true',
    Option.isSome_eq_false_iff, Option.isNone_iff_eq_none]
  constructor
  · rintro (⟨⟨k, tx⟩, ⟨hm, hne⟩, rfl⟩ | ⟨⟨k, tx⟩, ⟨hm, hno⟩, rfl⟩)
    · rw [find_eq_some_iff.mpr hm]
      exact fun heq => hne heq.symm
    · rw [find_eq_some_iff.mpr hm, hno]
      simp
  · intro hne
    cases hfs : m1.find id with
    | some tx =>
      rw [hfs] at hne
      exact .inl ⟨(id, tx), ⟨find_eq_some_iff.mp hfs, fun h => hne h.symm⟩, rfl⟩
    | none =>
      rw [hfs] at hne
      obtain ⟨tx, hsc⟩ := Option.ne_none_iff_exists'.mp (Ne.symm hne)
      exact .inr ⟨(id, tx), ⟨find_eq_some_iff.mp hsc, hfs⟩, rfl⟩

end TxSet

namespace LedgerConsensus

variable {Hash : Type} {getHash : TxSet → Hash} {s s' : LedgerConsensus Hash}

def ourHash (s : LedgerConsensus Hash) : Option Hash :=
  s.ourPosition.map (·.currentHash)

/-! ## Our position -/

theorem ourPosition_removeStale (s : LedgerConsensus Hash) (pc : TimePoint) :
    (s.removeStale pc).1.ourPosition = s.ourPosition := by
  refine foldlRecOn (motive := fun acc : LedgerConsensus Hash × OrderedMap UInt32 Int =>
    acc.1.ourPosition = s.ourPosition) _ _ rfl fun acc hac peer _ => ?_
  simp only [checkFresh]
  split
  · exact hac
  · exact hac

variable {hash : Hash} {now : TimePoint} {set ours : TxSet} {dispute : (_ : UInt256) × DisputedTx}
  {l : List ((_ : UInt256) × DisputedTx)}
  {id : UInt256}

theorem ourHash_switchLCL (s : LedgerConsensus Hash) (lcl : UInt256) (now : TimePoint) :
    (s.switchLCL lcl now).ourHash = s.ourHash := by
  unfold switchLCL ourHash
  cases s.ourPosition with
  | none => simp
  | some position =>
    split <;> rfl

theorem currentHash_changePosition {pos pos' : LedgerProposal Hash} {ct : UInt32}
    (h : pos.changePosition hash ct now = some pos') :
    pos'.currentHash = hash := by
  unfold LedgerProposal.changePosition at h
  split at h
  · cases h
  · rw [← Option.some.inj h]

/-! ## Moving our set -/

theorem find_moveItem_ne (hne : id ≠ dispute.1) :
    (s.moveItem set dispute).find id = set.find id := by
  unfold moveItem
  split
  · split
    · rw [find_insertNew, if_neg fun h => hne h.symm, Option.or_none]
    · exact find_erase_ne _ hne
  · rfl

theorem hasItem_moveItem (h : dispute.2.ourVote = set.hasItem dispute.1) :
    (s.voteUpdate dispute.2).2.ourVote = (s.moveItem set dispute).hasItem dispute.1 := by
  unfold moveItem
  rcases dispute.2.updateVote_cases s.closePercent s.proposing with heq | heq
  · rw [voteUpdate, heq]
    exact h
  rw [voteUpdate, heq]
  cases hv : dispute.2.ourVote with
  | true => simp [hasItem]
  | false => simp [hasItem, find_insertNew]

theorem find_foldl_moveItem (h : id ∉ l.keys) :
    (l.foldl s.moveItem set).find id = set.find id := by
  induction l generalizing set with
  | nil => rfl
  | cons dispute rest ih =>
    rw [keys_cons, mem_cons, not_or] at h
    rw [foldl_cons, ih h.2, find_moveItem_ne h.1]

theorem hasItem_foldl_moveItem (hnd : l.NodupKeys) (hm : dispute ∈ l)
    (h : dispute.2.ourVote = set.hasItem dispute.1) :
    (s.voteUpdate dispute.2).2.ourVote = (l.foldl s.moveItem set).hasItem dispute.1 := by
  induction l generalizing set with
  | nil => cases hm
  | cons first rest ih =>
    rw [nodupKeys_cons] at hnd
    rw [foldl_cons]
    rcases mem_cons.mp hm with rfl | hm
    · rw [hasItem, find_foldl_moveItem hnd.1]
      exact hasItem_moveItem h
    have hne : dispute.1 ≠ first.1 := by
      intro heq
      exact hnd.1 (heq ▸ mem_map_of_mem hm)
    refine ih hnd.2 hm ?_
    rw [hasItem, find_moveItem_ne hne]
    exact h

/-! ## Coverage -/

theorem map_ourVote_mapDisputes {f : UInt256 → DisputedTx → DisputedTx}
    (hf : ∀ ⦃id d⦄, s.disputes.lookup id = some d → (f id d).ourVote = d.ourVote) (id : UInt256) :
    ((s.mapDisputes f).disputes.lookup id).map DisputedTx.ourVote =
      (s.disputes.lookup id).map DisputedTx.ourVote := by
  rw [mapDisputes, lookup_filterMap]
  cases hlk : s.disputes.lookup id with
  | none => rfl
  | some d => exact congrArg some (hf hlk)

variable [DecidableEq Hash] {S : Set TxSet}

/-- No switch to another ledger once sets were compared, no vote after we bowed out, one initial
position. -/
def Careful (s : LedgerConsensus Hash) : Event Hash → Prop
  | .handleLCL lclHash _ _ _ _ => s.prevLedgerHash ≠ lclHash →
      ∀ hash, s.ourHash = some hash → ∀ hash' ∈ s.compares, hash' = hash
  | .updateOurPositions now => ∀ position, s.ourPosition = some position → position.isBowOut →
      (s.removeStale (now - seconds proposeFreshness)).1.changes = false
  | .takeInitialPosition _ _ _ _ _ => s.ourPosition = none
  | _ => True

/-- The sets it brings in, or makes of ours, are in `S`. -/
def Within (S : Set TxSet) (s : LedgerConsensus Hash) : Event Hash → Prop
  | .mapComplete _ map => ∀ set ∈ map, set ∈ S
  | .peerPosition inbound _ | .handleLCL _ _ inbound _ _ => ∀ set ∈ inbound, set ∈ S
  | .takeInitialPosition standalone txMap _ pseudo _ => s.initialSet standalone txMap pseudo ∈ S
  | .updateOurPositions now =>
    let s := (s.removeStale (now - seconds proposeFreshness)).1
    ∀ position ours, s.ourPosition = some position →
      s.acquiredSet position.currentHash = some ours → s.movedSet ours ∈ S
  | _ => True

/-- As far as sets in `S` go, which has all acquired ones. -/
structure Covered (getHash : TxSet → Hash) (S : Set TxSet) (s : LedgerConsensus Hash) : Prop where
  stored : ∀ ⦃hash set⦄, s.acquiredSet hash = some set → getHash set = hash ∧ set ∈ S
  idle : s.ourHash = none → s.compares = [] ∧ ∀ id, id ∉ s.disputes
  covers : s.comparedAll → ∀ ours theirs : S, s.ourHash = some (getHash ours) →
    getHash theirs ∈ s.compares → ∀ id, ours.1.find id ≠ theirs.1.find id → id ∈ s.disputes
  votes : ∀ ⦃ours : S⦄, s.ourHash = some (getHash ours) → ∀ ⦃id d⦄,
    s.disputes.lookup id = some d → d.ourVote = ours.1.hasItem id

theorem Covered.congr (h : Covered getHash S s)
    (hst : ∀ ⦃hash set⦄, s'.acquiredSet hash = some set → getHash set = hash ∧ set ∈ S)
    (hrs : s'.ourHash = s.ourHash) (hcm : s'.compares = s.compares)
    (hal : s'.comparedAll = s.comparedAll)
    (hdi : ∀ id, (s'.disputes.lookup id).map DisputedTx.ourVote =
      (s.disputes.lookup id).map DisputedTx.ourVote) : Covered getHash S s' := by
  have hm (id : UInt256) : id ∈ s'.disputes ↔ id ∈ s.disputes := by
    have hso := congrArg Option.isSome (hdi id)
    rw [Option.isSome_map, Option.isSome_map] at hso
    rw [← lookup_isSome, ← lookup_isSome, hso]
  constructor
  · exact hst
  · intro hno
    rw [hrs] at hno
    rw [hcm]
    exact ⟨(h.idle hno).1, fun id hid => (h.idle hno).2 id ((hm id).mp hid)⟩
  · intro hl ours theirs hse hth id hne
    rw [hrs] at hse
    rw [hcm] at hth
    rw [hal] at hl
    exact (hm id).mpr (h.covers hl _ _ hse hth id hne)
  · intro ours hse id d hlk
    rw [hrs] at hse
    have hv := hdi id
    rw [hlk, Option.map_some] at hv
    obtain ⟨d', hd', heq⟩ := Option.map_eq_some_iff.mp hv.symm
    rw [← heq]
    exact h.votes hse hd'

theorem Covered.stored_insert (h : Covered getHash S s) {cell : Option TxSet}
    (hcl : ∀ set, cell = some set → getHash set = hash ∧ set ∈ S)
    (ha : s'.acquired = s.acquired.insert hash cell) :
    ∀ ⦃hash' set⦄, s'.acquiredSet hash' = some set → getHash set = hash' ∧ set ∈ S := by
  intro hash' set hse
  rw [acquiredSet, ha] at hse
  obtain rfl | heq := eq_or_ne hash' hash
  · rw [lookup_insert] at hse
    exact hcl set hse
  · rw [lookup_insert_ne heq] at hse
    exact h.stored hse

theorem Covered.stored_erase (h : Covered getHash S s) (ha : s'.acquired = s.acquired.erase hash) :
    ∀ ⦃hash' set⦄, s'.acquiredSet hash' = some set → getHash set = hash' ∧ set ∈ S := by
  intro hash' set hse
  rw [acquiredSet, ha] at hse
  obtain rfl | heq := eq_or_ne hash' hash
  · rw [lookup_erase] at hse
    cases hse
  · rw [lookup_erase_ne heq] at hse
    exact h.stored hse

@[simp]
theorem ourVote_newDispute (s : LedgerConsensus Hash) (txID : UInt256) (tx : Blob)
    (ourVote : Bool) : (s.newDispute txID tx ourVote).ourVote = ourVote := by
  unfold newDispute
  refine foldlRecOn (motive := fun d : DisputedTx => d.ourVote = ourVote) _ _ rfl
    fun d hd peer _ => ?_
  split
  · rw [ourVote_setVote, hd]
  · exact hd

theorem ourHash_createDisputes {m1 m2 : TxSet} {compares : List Hash}
    (h : createDisputes getHash m1 m2 { s with compares } = some s') : s'.ourHash = s.ourHash := by
  rw [(opens_createDisputes h).frame]
  rfl

theorem Covered.adjustCount (h : Covered getHash S s) (map : TxSet) (peers : List NodeID) :
    Covered getHash S (s.adjustCount map peers) := by
  refine h.congr h.stored rfl rfl rfl (map_ourVote_mapDisputes fun id d _ => ?_)
  refine foldlRecOn (motive := fun d' : DisputedTx => d'.ourVote = d.ourVote) _ _ rfl
    fun d' hd' peer _ => ?_
  rw [ourVote_setVote, hd']

variable {map : Option TxSet}

theorem ourHash_mapCompleteInternal
    (hma : s.mapCompleteInternal getHash hash map = some s') : s'.ourHash = s.ourHash := by
  unfold LedgerConsensus.mapCompleteInternal at hma
  split at hma
  · cases hma
    rfl
  split_ifs at hma
  · cases hma
    rfl
  obtain ⟨s1, hcp, hma⟩ := Option.bind_eq_some_iff.mp hma
  cases hma
  rcases compareWithOurs_cases hcp with rfl | ⟨-, ours, -, -, hc⟩
  · rfl
  · have hsa := ourHash_createDisputes hc
    exact hsa

theorem Covered.removeStale (h : Covered getHash S s) (pc : TimePoint) :
    Covered getHash S (s.removeStale pc).1 := by
  refine foldlRecOn (motive := fun acc : LedgerConsensus Hash × OrderedMap UInt32 Int =>
    Covered getHash S acc.1) _ _ h fun acc hac peer _ => ?_
  simp only [checkFresh]
  split
  · exact hac.congr hac.stored rfl rfl rfl
      (map_ourVote_mapDisputes fun id d _ => ourVote_unVote d _)
  · exact hac

theorem Covered.moveVotes (h : Covered getHash S s) (rch : Bool) (hsa : s.changes = false) :
    Covered getHash S (s.moveVotes rch) := by
  refine h.congr h.stored rfl rfl rfl
    (map_ourVote_mapDisputes (f := fun _ d => (s.voteUpdate d).2) fun id d hlk => ?_)
  have hfa : (s.voteUpdate d).1 = false := by
    have hm : ⟨id, d⟩ ∈ s.disputes.entries := of_mem_dlookup hlk
    simpa using any_eq_false.mp hsa _ hm
  rcases d.updateVote_cases s.closePercent s.proposing with heq | heq
  · rw [voteUpdate, heq]
  · rw [voteUpdate, heq] at hfa
    cases hfa

theorem Covered.leaveConsensus (h : Covered getHash S s) (now : TimePoint) :
    Covered getHash S (s.leaveConsensus now) := by
  unfold LedgerConsensus.leaveConsensus
  split
  · refine h.congr h.stored ?_ rfl rfl fun id => rfl
    unfold ourHash
    cases s.ourPosition with
    | none => rfl
    | some position =>
      dsimp only [Option.map_some]
      split <;> rfl
  · exact h

theorem Covered.acquireLCL (h : Covered getHash S s) (lcl : UInt256)
    (nl : Option LastClosed) : Covered getHash S (s.acquireLCL lcl nl) := by
  unfold LedgerConsensus.acquireLCL
  repeat' split
  all_goals exact h.congr h.stored rfl rfl rfl fun id => rfl

section

variable (h : Covered getHash S s)
include h

/-! ## Peers -/

variable {inbound : List TxSet} (hin : ∀ set ∈ inbound, set ∈ S)
include hin

theorem Covered.getTransactionTree (hash : Hash) :
    Covered getHash S (s.getTransactionTree getHash inbound hash).1 := by
  unfold LedgerConsensus.getTransactionTree
  split
  · exact h
  split
  · next set hfd =>
    refine h.congr (h.stored_insert ?_ rfl) rfl rfl rfl fun id => rfl
    intro set' hse
    cases hse
    exact ⟨by simpa using List.find?_some hfd, hin _ (mem_of_find?_eq_some hfd)⟩
  · exact h

theorem Covered.votePosition (npos : LedgerProposal Hash) :
    Covered getHash S (s.votePosition getHash inbound npos) := by
  have ht := h.getTransactionTree hin npos.currentHash
  unfold LedgerConsensus.votePosition
  split
  · next s1 set heq =>
    rw [heq] at ht
    exact ht.congr ht.stored rfl rfl rfl
      (map_ourVote_mapDisputes fun id d _ => ourVote_setVote d _ _)
  · next s1 heq =>
    rw [heq] at ht
    exact ht

theorem Covered.peerPosition (npos : LedgerProposal Hash) :
    Covered getHash S (s.peerPosition getHash inbound npos).2 := by
  unfold LedgerConsensus.peerPosition
  split_ifs
  · exact h
  · exact h
  · exact h.congr h.stored rfl rfl rfl (map_ourVote_mapDisputes fun id d _ => ourVote_unVote d _)
  · refine Covered.votePosition ?_ hin npos
    exact h.congr h.stored rfl rfl rfl fun id => rfl

theorem Covered.playbackProposals (std : List (LedgerProposal Hash)) :
    Covered getHash S (s.playbackProposals getHash inbound std) := by
  refine foldlRecOn (motive := Covered getHash S) _ _ h fun s hs proposal _ => ?_
  split
  · exact hs.peerPosition hin proposal
  · exact hs

end

/-! ## Comparisons -/

section

variable (hi : S.InjOn getHash) {ours : S}
include hi

theorem Covered.newVote_eq (h : Covered getHash S s) (hrs : s.ourHash = some (getHash ours))
    {ov : Bool} (hv : s.newVote id = some ov) : ov = ours.1.hasItem id := by
  obtain ⟨position, hp, hh⟩ := Option.map_eq_some_iff.mp hrs
  rw [newVote, hp] at hv
  obtain ⟨set, hse, rfl⟩ := Option.map_eq_some_iff.mp hv
  rw [hh] at hse
  rw [hi (h.stored hse).2 ours.2 (h.stored hse).1]

theorem disputed_of_createDisputes {m1 m2 : S} (h : s.createDisputes getHash m1 m2 = some s')
    (hal : s'.comparedAll) (hne : m1.1.find id ≠ m2.1.find id) : id ∈ s'.disputes := by
  unfold createDisputes at h
  split at h
  · next heq =>
    rw [hi m1.2 m2.2 heq] at hne
    exact absurd rfl hne
  obtain ⟨ho, hme⟩ := opens_foldlM h
  have hl := (Bool.and_eq_true_iff.mp (ho.limited hal)).2
  have hle : (m1.1.delta m2).length < differenceLimit := by
    simpa [TxSet.compare] using hl
  obtain ⟨difference, hm, rfl⟩ := mem_map.mp (TxSet.mem_delta_iff.mpr hne)
  refine hme difference ?_
  simpa [TxSet.compare, take_of_length_le hle.le] using hm

theorem Covered.createDisputes (h : Covered getHash S s)
    (ours theirs : S) (hrs : s.ourHash = some (getHash ours))
    (hc : createDisputes getHash ours theirs
      { s with compares := getHash theirs :: s.compares } = some s') : Covered getHash S s' := by
  have ho := opens_createDisputes hc
  have hh : s'.ourHash = s.ourHash := by rw [ho.frame]; rfl
  have hcm : s'.compares = getHash theirs :: s.compares := by rw [ho.frame]
  constructor
  · intro hash set hse
    rw [ho.frame] at hse
    exact h.stored hse
  · intro hno
    rw [hh, hrs] at hno
    cases hno
  · intro hal ours' theirs' hse hth id hne
    rw [hh] at hse
    rw [hcm] at hth
    rcases mem_cons.mp hth with heq | hold
    · rw [hi theirs'.2 theirs.2 heq,
        hi ours'.2 ours.2 (Option.some.inj (hse.symm.trans hrs))] at hne
      exact disputed_of_createDisputes hi hc hal hne
    · exact ho.mem (h.covers (ho.limited hal) _ _ hse hold id hne)
  · intro ours' hse id d hlk
    rw [hh] at hse
    rcases ho.opened hlk with hold | ⟨tx, ourVote, hv, rfl⟩
    · exact h.votes hse hold
    · rw [ourVote_newDispute]
      exact h.newVote_eq hi hse hv

theorem Covered.compareWithOurs (h : Covered getHash S s) {map : TxSet} (hmap : map ∈ S)
    (hcp : s.compareWithOurs getHash (getHash map) map = some s') : Covered getHash S s' := by
  rcases compareWithOurs_cases hcp with rfl | ⟨position, ours, hp, hours, hc⟩
  · exact h
  · obtain ⟨hhash, hmem⟩ := h.stored hours
    refine h.createDisputes hi ⟨ours, hmem⟩ ⟨map, hmap⟩ ?_ hc
    rw [ourHash, hp, hhash]
    rfl

theorem Covered.mapCompleteInternal (h : Covered getHash S s)
    (hmap : ∀ set ∈ map, set ∈ S)
    (hma : s.mapCompleteInternal getHash hash map = some s') : Covered getHash S s' := by
  unfold LedgerConsensus.mapCompleteInternal at hma
  split at hma
  · cases hma
    refine h.congr (h.stored_insert ?_ rfl) rfl rfl rfl fun id => rfl
    intro set hse
    cases hse
  next map =>
  split_ifs at hma with hh hha
  · cases hma
    exact h
  obtain rfl : hash = getHash map := not_not.mp hh
  obtain ⟨s1, hcp, hma⟩ := Option.bind_eq_some_iff.mp hma
  cases hma
  have h1 : Covered getHash S s1 := by
    refine Covered.compareWithOurs hi ?_ (hmap map rfl) hcp
    exact h.congr (h.stored_erase rfl) rfl rfl rfl fun id => rfl
  refine Covered.adjustCount ?_ map _
  refine h1.congr (h1.stored_insert ?_ rfl) rfl rfl rfl fun id => rfl
  intro set hse
  cases hse
  exact ⟨rfl, hmap map rfl⟩

/-! ## Following the peers -/

theorem Covered.countPeer {ours : Hash}
    {cnts cnts' : Int × Int × LedgerConsensus Hash} {peer : LedgerProposal Hash}
    (h : Covered getHash S cnts.2.2) (hrs : cnts.2.2.ourHash = some ours)
    (hpe : countPeer getHash ours cnts peer = some cnts') :
    Covered getHash S cnts'.2.2 ∧ cnts'.2.2.ourHash = some ours := by
  rcases countPeer_cases hpe with hsa | ⟨theirs, ourSet, hth, hourSet, hc⟩
  · exact hsa ▸ ⟨h, hrs⟩
  · obtain ⟨hhash, hmem⟩ := h.stored hourSet
    obtain ⟨hhash', hmem'⟩ := h.stored hth
    rw [← hhash'] at hc
    have hse : cnts.2.2.ourHash = some (getHash ourSet) := by rw [hhash, hrs]
    exact ⟨h.createDisputes hi ⟨ourSet, hmem⟩ ⟨theirs, hmem'⟩ hse hc,
      (ourHash_createDisputes hc).trans hrs⟩

theorem Covered.haveConsensus {curVals : Int}
    {rch : Bool} (h : Covered getHash S s)
    (hco : s.haveConsensus getHash curVals = some (rch, s')) :
    Covered getHash S s' := by
  obtain ⟨position, counts, -, hp, hr, rfl⟩ := haveConsensus_cases hco
  have hct : Covered getHash S counts.2.2 ∧ counts.2.2.ourHash = some position.currentHash := by
    refine hr.preserves (fun counts => Covered getHash S counts.2.2 ∧
      counts.2.2.ourHash = some position.currentHash) (fun _ _ _ hsp hct =>
      hct.1.countPeer hi hct.2 hsp) ⟨h, ?_⟩
    rw [ourHash, hp]
    rfl
  exact hct.1.congr hct.1.stored rfl rfl rfl fun id => rfl

theorem Covered.takeInitialPosition {sa : Bool}
    {txMap : TxSet} {ph : UInt256} {pseudo : List (UInt256 × Blob)} (h : Covered getHash S s)
    (hca : s.Careful (.takeInitialPosition sa txMap ph pseudo now))
    (hset : s.Within S (.takeInitialPosition sa txMap ph pseudo now))
    (hta : s.takeInitialPosition getHash sa txMap ph pseudo now = some s') :
    Covered getHash S s' := by
  obtain ⟨s1, position, found, hma, hse, -, hr, rfl⟩ := takeInitialPosition_cases hta
  have h1 : Covered getHash S s1 :=
    h.mapCompleteInternal hi (fun _ heq => Option.some.inj heq ▸ hset) hma
  have hil : s1.compares = [] ∧ ∀ id, id ∉ s1.disputes :=
    h1.idle (ourHash_mapCompleteInternal hma ▸ by rw [ourHash, hca]; rfl)
  refine (hr.preserves (fun found => Covered getHash S found.2 ∧
    found.2.ourHash = some (getHash (s.initialSet sa txMap pseudo)))
    (fun _ _ _ hsp hfn => ?_) ⟨?_, congrArg some hse⟩).1
  · rcases contrastPeer_cases hsp with hsa | ⟨set, hacquired, hc⟩
    · exact hsa ▸ hfn
    · have hmem := (hfn.1.stored hacquired).2
      exact ⟨hfn.1.createDisputes hi ⟨_, hset⟩ ⟨set, hmem⟩ hfn.2 hc,
        (ourHash_createDisputes hc).trans hfn.2⟩
  constructor
  · exact h1.stored
  · intro hours
    cases hours
  · intro _ ours theirs _ hth
    have hem : getHash theirs ∈ s1.compares := hth
    rw [hil.1] at hem
    cases hem
  · intro ours _ id d hlk
    rw [LedgerConsensus.mapDisputes, lookup_filterMap] at hlk
    obtain ⟨d', hd', -⟩ := Option.bind_eq_some_iff.mp hlk
    exact absurd (lookup_isSome.mp (by simp [hd'])) (hil.2 id)

theorem Covered.movePosition (h : Covered getHash S s)
    {position : LedgerProposal Hash} (rch : Bool)
    (hrs : s.ourHash = some (getHash ours)) (hmoved : s.movedSet ours ∈ S)
    (hp : position.currentHash = getHash (s.movedSet ours)) :
    Covered getHash S { s.moveVotes rch with ourPosition := some position } := by
  have hm (id : UInt256) : id ∈ (s.moveVotes rch).disputes ↔ id ∈ s.disputes := by
    rw [← lookup_isSome, ← lookup_isSome, LedgerConsensus.moveVotes,
      LedgerConsensus.mapDisputes, lookup_filterMap]
    cases s.disputes.lookup id <;> rfl
  have hse {set : S} (hh : some position.currentHash = some (getHash set)) :
      set = s.movedSet ours :=
    hi set.2 hmoved ((Option.some.inj hh).symm.trans hp)
  constructor
  · exact h.stored
  · intro hno
    cases hno
  · intro hal ours' theirs hh hth id hne
    refine (hm id).mpr ?_
    by_contra hn
    rw [hse hh, movedSet, find_foldl_moveItem hn] at hne
    exact hn (h.covers hal _ _ hrs hth id hne)
  · intro ours' hh id d hlk
    rw [hse hh]
    have hlk' : (s.moveVotes rch).disputes.lookup id = some d := hlk
    rw [LedgerConsensus.moveVotes, LedgerConsensus.mapDisputes, lookup_filterMap] at hlk'
    obtain ⟨d', hd', hd⟩ := Option.bind_eq_some_iff.mp hlk'
    cases hd
    have hen : ⟨id, d'⟩ ∈ s.disputes.entries := of_mem_dlookup hd'
    exact hasItem_foldl_moveItem s.disputes.nodupKeys hen (h.votes hrs hd')

theorem Covered.updateOurPositions (h : Covered getHash S s)
    (hca : s.Careful (.updateOurPositions now)) (hsets : s.Within S (.updateOurPositions now))
    (hu : s.updateOurPositions getHash now = some s') : Covered getHash S s' := by
  obtain ⟨_, position, reached, rfl, hp, hcs⟩ := updateOurPositions_cases hu
  have h1 := h.removeStale (now - seconds proposeFreshness)
  rcases hcs with ⟨rfl, hsa⟩ | ⟨ours, position', hours, hch, hma⟩
  · refine h1.moveVotes reached ?_
    rcases hsa with hb | hsa
    · refine hca position ?_ hb
      rw [← ourPosition_removeStale s (now - seconds proposeFreshness), hp]
    · exact hsa
  · obtain ⟨hhash, hmem⟩ := h1.stored hours
    have hset := hsets position ours hp hours
    refine Covered.mapCompleteInternal hi ?_ (fun _ heq => Option.some.inj heq ▸ hset) hma
    refine Covered.movePosition hi h1 reached (?_ : _ = some (getHash (⟨ours, hmem⟩ : S))) hset
      (currentHash_changePosition hch)
    rw [ourHash, hp, hhash]
    rfl

/-! ## The last closed ledger -/

/-- Forgetting all disputes: our set differs from no compared set. -/
theorem Covered.switchLCL (h : Covered getHash S s)
    (lcl : UInt256) (now : TimePoint)
    (hcm : ∀ hash, s.ourHash = some hash → ∀ hash' ∈ s.compares, hash' = hash) :
    Covered getHash S (s.switchLCL lcl now) := by
  constructor
  · exact h.stored
  · intro hno
    rw [ourHash_switchLCL] at hno
    exact ⟨(h.idle hno).1, fun id => notMem_empty id⟩
  · intro _ ours theirs hours hth id hne
    rw [ourHash_switchLCL] at hours
    rw [hi theirs.2 ours.2 (hcm _ hours _ hth)] at hne
    exact absurd rfl hne
  · intro ours _ id d hlk
    cases hlk

theorem Covered.handleLCL (h : Covered getHash S s)
    (lcl : UInt256) (nl : Option LastClosed) {inb : List TxSet} (hin : ∀ set ∈ inb, set ∈ S)
    (std : List (LedgerProposal Hash)) (now : TimePoint)
    (hca : s.Careful (.handleLCL lcl nl inb std now)) :
    Covered getHash S (s.handleLCL getHash lcl nl inb std now) := by
  unfold LedgerConsensus.handleLCL
  split
  · next hsw =>
    refine Covered.acquireLCL (Covered.playbackProposals ?_ hin std) lcl nl
    exact h.switchLCL hi lcl now (hca hsw)
  · exact h.acquireLCL lcl nl

/-! ## Runs -/

/-- Every difference of our set to a compared one is disputed, and our votes are what our
set says. -/
def DisputesCover (getHash : TxSet → Hash) (S : Set TxSet) (s : LedgerConsensus Hash) : Prop :=
  ∀ position (ours : S), s.ourPosition = some position → getHash ours = position.currentHash →
    (∀ hash ∈ s.compares, ∀ theirs, s.acquiredSet hash = some theirs →
      ∀ id, ours.1.find id ≠ theirs.find id → id ∈ s.disputes) ∧
    ∀ id d, s.disputes.lookup id = some d → (d.ourVote ↔ ours.1.hasItem id)

theorem Covered.handle {e : Event Hash} (h : Covered getHash S s)
    (hca : s.Careful e) (hsets : s.Within S e) (he : Takes getHash e s s') :
    Covered getHash S s' := by
  cases e with
  | timer currentMSeconds =>
    cases he
    exact h.congr h.stored rfl rfl rfl fun id => rfl
  | mapComplete hash map => exact h.mapCompleteInternal hi hsets he
  | peerPosition inbound newPosition =>
    cases he
    exact h.peerPosition hsets newPosition
  | takeInitialPosition standalone txMap parentHash pseudo now =>
    exact h.takeInitialPosition hi hca hsets he
  | updateOurPositions now => exact h.updateOurPositions hi hca hsets he
  | haveConsensus currentValidations =>
    obtain ⟨⟨reached, s1⟩, hco, rfl⟩ := Option.map_eq_some_iff.mp he
    exact h.haveConsensus hi hco
  | handleLCL lclHash newLCL inbound stored now =>
    cases he
    exact h.handleLCL hi lclHash newLCL hsets stored now hca
  | leaveConsensus now =>
    cases he
    exact h.leaveConsensus now

theorem covered_start {r : Round Hash} (hin : ∀ set ∈ r.inbound, set ∈ S) :
    Covered getHash S (r.start getHash) := by
  unfold Round.start create
  extract_lets s1
  have h1 : Covered getHash S s1 := by
    constructor
    · intro hash set hse
      cases hse
    · exact fun _ => ⟨rfl, fun id => notMem_empty id⟩
    · intro _ ours theirs hours
      cases hours
    · intro ours hours
      cases hours
  split
  · exact h1
  · exact h1.handleLCL hi _ _ hin _ _ fun hne => absurd rfl hne

/-- In every run of careful events without a limited comparison, the disputes cover all
disagreements. -/
theorem disputesCover_of_careful (r : Round Hash)
    (hin : ∀ set ∈ r.inbound, set ∈ S)
    (hr : Run (fun e s s' => s.Careful e ∧ s.Within S e ∧ Takes getHash e s s')
      (r.start getHash) r.events s) (hl : s.comparedAll = true) : DisputesCover getHash S s := by
  have hcv : Covered getHash S s :=
    hr.preserves (Covered getHash S) (fun _ _ _ hsp h => h.handle hi hsp.1 hsp.2.1 hsp.2.2)
      (covered_start hi hin)
  intro position ours hp hours
  have hh : s.ourHash = some (getHash ours) := by
    rw [ourHash, hp, hours]
    rfl
  constructor
  · intro hash hm theirs hth id hne
    obtain ⟨rfl, hmem⟩ := hcv.stored hth
    exact hcv.covers hl ours ⟨theirs, hmem⟩ hh hm id hne
  · intro id d hlk
    rw [hcv.votes hh hlk]

end

theorem entriesHash_injective : Function.Injective entriesHash := by
  rintro ⟨entries, hsr⟩ ⟨entries', hsr'⟩ heq
  cases heq
  rfl

theorem sample_disputesCover : ∃ s,
    Run (fun e s s' => s.Careful e ∧ s.Within Set.univ e ∧ Takes entriesHash e s s') sampleStart
        sampleRound.events s ∧
      s.comparedAll = true ∧ 1 ∈ s.disputes ∧ DisputesCover entriesHash Set.univ s := by
  have hsm : ((sampleRound.events.foldlM (fun s e => handle entriesHash s e) sampleStart).map
      fun s => (s.comparedAll, (s.disputes.lookup 1).isSome)) = some (true, true) := by decide
  obtain ⟨s, hs, hste⟩ := Option.map_eq_some_iff.mp hsm
  simp only [Prod.mk.injEq] at hste
  simp only [sampleRound, foldlM_cons] at hs
  obtain ⟨s1, hta, hs⟩ := Option.bind_eq_some_iff.mp hs
  obtain ⟨s2, hpe, hs⟩ := Option.bind_eq_some_iff.mp hs
  obtain ⟨s3, hma, hs⟩ := Option.bind_eq_some_iff.mp hs
  obtain rfl := Option.some.inj hs
  have hr : Run (fun e s s' => s.Careful e ∧ s.Within Set.univ e ∧ Takes entriesHash e s s')
      sampleStart sampleRound.events s3 :=
    .cons ⟨rfl, trivial, hta⟩ (.cons ⟨trivial, fun _ _ => trivial, hpe⟩
      (.cons ⟨trivial, fun _ _ => trivial, hma⟩ (.nil s3)))
  exact ⟨s3, hr, hste.1, lookup_isSome.mp hste.2,
    disputesCover_of_careful entriesHash_injective.injOn sampleRound (fun _ _ => trivial) hr hste.1⟩

def sampleSwitch : List (Event (List (UInt256 × Blob))) :=
  sampleRound.events ++ [.handleLCL 2 none [] [] 0]

/-- The disputes are forgotten, not that the peer's set was compared. -/
theorem switch_forgets_disputes : ∃ s, Run (Takes entriesHash) sampleStart sampleSwitch s ∧
    s.comparedAll = true ∧ ¬ DisputesCover entriesHash Set.univ s := by
  have hsm : ((sampleSwitch.foldlM (fun s e => handle entriesHash s e) sampleStart).map
      fun s => (s.comparedAll, s.ourHash, s.compares,
        (s.acquiredSet (entriesHash sampleSet)).map entriesHash, (s.disputes.lookup 1).isSome)) =
      some (true, some [], [entriesHash sampleSet], some (entriesHash sampleSet), false) := by
    rfl
  obtain ⟨s, hs, hste⟩ := Option.map_eq_some_iff.mp hsm
  simp only [Prod.mk.injEq] at hste
  obtain ⟨hl, hours, hcm, ha, hds⟩ := hste
  obtain ⟨position, hp, hh⟩ := Option.map_eq_some_iff.mp hours
  obtain ⟨theirs, hth, heq⟩ := Option.map_eq_some_iff.mp ha
  obtain rfl := entriesHash_injective heq
  refine ⟨s, Run.of_foldlM (fun _ _ _ => id) hs, hl, fun hce => ?_⟩
  have hm : 1 ∈ s.disputes := by
    refine (hce position ⟨.empty, trivial⟩ hp hh.symm).1 (entriesHash sampleSet) ?_ sampleSet hth 1
      (by decide)
    rw [hcm]
    exact mem_singleton_self _
  rw [← lookup_isSome, hds] at hm
  cases hm

end LedgerConsensus

end Sand
