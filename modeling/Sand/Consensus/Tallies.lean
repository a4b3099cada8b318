import Sand.Consensus.LedgerConsensus
import Sand.Library.Run

/-!
# The votes on disputed transactions

Counters are the numbers of votes, and only peers with a position vote.
-/

namespace Sand

open AList Option LedgerConsensus List DisputedTx LedgerProposal

namespace LedgerConsensus

variable {Hash : Type} {s s' s'' : LedgerConsensus Hash}

/-! ## Tallies -/

/-- Peers are under their own ID; votes are counted and come from them. -/
structure Tallied (s : LedgerConsensus Hash) : Prop where
  named : ∀ ⦃peer position⦄, s.peerPositions.lookup peer = some position → position.peerID = peer
  disputes : ∀ ⦃id d⦄, s.disputes.lookup id = some d → d.CountedAmong (· ∈ s.peerPositions)

variable {peer : (_ : NodeID) × LedgerProposal Hash} {now : TimePoint}

theorem mem_peerPositions (h : peer ∈ s.peerPositions.entries) : peer.1 ∈ s.peerPositions :=
  mem_map_of_mem h

section

variable (h : Tallied s)
include h

theorem Tallied.peerID_mem (hm : peer ∈ s.peerPositions.entries) : peer.2.peerID = peer.1 :=
  h.named (mem_dlookup s.peerPositions.nodupKeys hm)

theorem Tallied.congr (hp : s'.peerPositions = s.peerPositions)
    (hdi : s'.disputes = s.disputes) : Tallied s' := by
  refine ⟨fun peer position hlk => ?_, fun id d hlk => ?_⟩
  · rw [hp] at hlk
    exact h.named hlk
  · rw [hdi] at hlk
    rw [hp]
    exact h.disputes hlk

theorem Tallied.mapDisputes {f : UInt256 → DisputedTx → DisputedTx}
    (hn : ∀ ⦃peer position⦄, s'.peerPositions.lookup peer = some position →
      position.peerID = peer) (hdi : s'.disputes = (s.mapDisputes f).disputes)
    (hf : ∀ id d, d.CountedAmong (· ∈ s.peerPositions) →
      (f id d).CountedAmong (· ∈ s'.peerPositions)) : Tallied s' := by
  refine ⟨hn, fun id d hlk => ?_⟩
  rw [hdi, LedgerConsensus.mapDisputes, FiniteMap.lookup_filterMap] at hlk
  obtain ⟨d', hd', hso⟩ := bind_eq_some_iff.mp hlk
  cases hso
  exact hf id d' (h.disputes hd')

variable (position : LedgerProposal Hash)

theorem named_insert {peer : NodeID} {position' : LedgerProposal Hash}
    (hlk : (s.peerPositions.insert position.peerID position).lookup peer = some position') :
    position'.peerID = peer := by
  obtain rfl | hpe := eq_or_ne peer position.peerID
  · rw [lookup_insert] at hlk
    rw [some.inj hlk]
  · rw [lookup_insert_ne hpe] at hlk
    exact h.named hlk

theorem named_erase {peer peer' : NodeID} {pos : LedgerProposal Hash}
    (hlk : (s.peerPositions.erase peer').lookup peer = some pos) :
    pos.peerID = peer := by
  obtain rfl | hpe := eq_or_ne peer peer'
  · rw [lookup_erase] at hlk
    cases hlk
  · rw [lookup_erase_ne hpe] at hlk
    exact h.named hlk

theorem Tallied.dropPeer (peer : NodeID) (hp : s'.peerPositions = s.peerPositions.erase peer)
    (hdi : s'.disputes = (s.mapDisputes fun _ d => d.unVote peer).disputes) : Tallied s' := by
  refine h.mapDisputes (fun peer' position hlk => ?_) hdi fun id d hd => ?_
  · rw [hp] at hlk
    exact named_erase h hlk
  · rw [hp]
    exact hd.unVote.imp fun peer' => mem_erase.mpr

theorem Tallied.addPeer
    (hp : s'.peerPositions = s.peerPositions.insert position.peerID position)
    (hdi : s'.disputes = s.disputes) : Tallied s' := by
  refine ⟨fun peer position' hlk => ?_, fun id d hlk => ?_⟩
  · rw [hp] at hlk
    exact named_insert h position hlk
  · rw [hdi] at hlk
    rw [hp]
    exact (h.disputes hlk).imp fun peer hm => (mem_insert _).mpr (.inr hm)

theorem Tallied.setVotes {peer : NodeID} (hpe : peer ∈ s.peerPositions)
    (vote : UInt256 → Bool) : Tallied (s.mapDisputes fun id d => d.setVote peer (vote id)) :=
  h.mapDisputes h.named rfl fun _ _ hd => hd.setVote hpe

theorem Tallied.adjustCount (map : TxSet) {peers : List NodeID}
    (hp : ∀ peer ∈ peers, peer ∈ s.peerPositions) : Tallied (s.adjustCount map peers) := by
  refine h.mapDisputes h.named rfl fun id d hd => ?_
  exact foldlRecOn (motive := fun d : DisputedTx => d.CountedAmong (· ∈ s.peerPositions)) _ _ hd
    fun d hd peer hpe => hd.setVote (hp peer hpe)

theorem Tallied.checkFresh {pc : TimePoint} {closeTimes : OrderedMap UInt32 Int}
    (hpe : peer.2.peerID = peer.1) :
    Tallied (checkFresh pc (s, closeTimes) peer).1 := by
  obtain ⟨peer, position⟩ := peer
  obtain rfl : position.peerID = peer := hpe
  simp only [checkFresh]
  split
  · exact h.dropPeer position.peerID rfl rfl
  · exact h

theorem Tallied.removeStale (pc : TimePoint) : Tallied (s.removeStale pc).1 := by
  refine foldlRecOn (motive := fun acc : LedgerConsensus Hash × OrderedMap UInt32 Int =>
    Tallied acc.1) _ _ h fun acc hac peer hm => ?_
  exact hac.checkFresh (h.peerID_mem hm)

theorem Tallied.acquireLCL (lcl : UInt256) (nl : Option LastClosed) :
    Tallied (s.acquireLCL lcl nl) := by
  unfold LedgerConsensus.acquireLCL
  repeat' split
  all_goals exact h.congr rfl rfl

theorem Tallied.moveVotes (rch : Bool) : Tallied (s.moveVotes rch) := by
  refine h.mapDisputes (f := fun _ d => (s.voteUpdate d).2) h.named rfl fun id d hd => ?_
  rcases d.updateVote_cases s.closePercent s.proposing with heq | heq
  · rw [voteUpdate, heq]
    exact hd
  · rw [voteUpdate, heq]
    exact hd.withOurVote _

end

variable [DecidableEq Hash] {getHash : TxSet → Hash}

/-! ## Opening disputes -/

/-- The second state is the first with more disputes. -/
structure Opens (s s' : LedgerConsensus Hash) : Prop where
  frame : s' = { s with disputes := s'.disputes, comparedAll := s'.comparedAll }
  keeps : ∀ ⦃id d⦄, s.disputes.lookup id = some d → s'.disputes.lookup id = some d
  opened : ∀ ⦃id d⦄, s'.disputes.lookup id = some d → s.disputes.lookup id = some d ∨
    ∃ tx ourVote, s.newVote id = some ourVote ∧ d = s.newDispute id tx ourVote
  limited : s'.comparedAll → s.comparedAll

theorem Opens.refl (s : LedgerConsensus Hash) : Opens s s :=
  ⟨rfl, fun _ _ => id, fun _ _ => .inl, id⟩

theorem Opens.trans (h : Opens s s') (h' : Opens s' s'') : Opens s s'' where
  frame := by
    have hfr := h'.frame
    rw [h.frame] at hfr
    exact hfr
  keeps _ _ hlk := h'.keeps (h.keeps hlk)
  opened id d hlk := by
    rcases h'.opened hlk with hold | ⟨tx, ourVote, hv, hd⟩
    · exact h.opened hold
    · rw [h.frame] at hv hd
      exact .inr ⟨tx, ourVote, hv, hd⟩
  limited ha := h.limited (h'.limited ha)

theorem opens_addDisputedTransaction {txID : UInt256} {tx : Blob}
    (h : s.addDisputedTransaction txID tx = some s') : Opens s s' ∧ txID ∈ s'.disputes := by
  unfold addDisputedTransaction at h
  split at h
  · next hm =>
    cases h
    exact ⟨.refl s, hm⟩
  next hno =>
  obtain ⟨ourVote, hv, h⟩ := bind_eq_some_iff.mp h
  cases h
  refine ⟨⟨rfl, fun id d hlk => ?_, fun id d hlk => ?_, id⟩, ?_⟩
  · have hne : id ≠ txID := by
      rintro rfl
      exact hno (lookup_isSome.mp (by simp [hlk]))
    exact (lookup_insert_ne hne).trans hlk
  · obtain rfl | hid := eq_or_ne id txID
    · rw [lookup_insert] at hlk
      exact .inr ⟨tx, ourVote, hv, (some.inj hlk).symm⟩
    · rw [lookup_insert_ne hid] at hlk
      exact .inl hlk
  · exact (mem_insert _).mpr (.inl rfl)

theorem opens_disputeDifference {dif : UInt256 × Option Blob × Option Blob}
    (h : s.disputeDifference dif = some s') : Opens s s' ∧ dif.1 ∈ s'.disputes := by
  obtain ⟨id, first, second⟩ := dif
  cases first with
  | some tx => exact opens_addDisputedTransaction h
  | none =>
    cases second with
    | some tx => exact opens_addDisputedTransaction h
    | none => cases h

theorem Opens.mem (h : Opens s s') {id : UInt256} (hm : id ∈ s.disputes) : id ∈ s'.disputes := by
  obtain ⟨d, hd⟩ := isSome_iff_exists.mp (lookup_isSome.mpr hm)
  exact lookup_isSome.mp (by simp [h.keeps hd])

theorem opens_foldlM {dfs : List (UInt256 × Option Blob × Option Blob)}
    (h : dfs.foldlM disputeDifference s = some s') :
    Opens s s' ∧ ∀ difference ∈ dfs, difference.1 ∈ s'.disputes := by
  induction dfs generalizing s with
  | nil =>
    cases h
    exact ⟨.refl _, nofun⟩
  | cons difference rest ih =>
    obtain ⟨s1, hfs, hrs⟩ := bind_eq_some_iff.mp h
    obtain ⟨ho, hm⟩ := opens_disputeDifference hfs
    obtain ⟨ho', hme⟩ := ih hrs
    refine ⟨ho.trans ho', fun difference' hdf => ?_⟩
    rcases mem_cons.mp hdf with rfl | hdf
    · exact ho'.mem hm
    · exact hme difference' hdf

variable {m1 m2 : TxSet}

theorem opens_createDisputes (h : s.createDisputes getHash m1 m2 = some s') : Opens s s' := by
  unfold createDisputes at h
  split at h
  · cases h
    exact .refl s
  obtain ⟨ho, -⟩ := opens_foldlM h
  have hlm : Opens s { s with
      comparedAll := s.comparedAll && (TxSet.compare m1 m2 differenceLimit).1 } :=
    ⟨rfl, fun _ _ => id, fun _ _ => .inl, fun ha => (Bool.and_eq_true_iff.mp ha).1⟩
  exact hlm.trans ho

/-! ## Handlers -/

theorem newDispute_countedAmong (s : LedgerConsensus Hash) (txID : UInt256) (tx : Blob)
    (ov : Bool) : (s.newDispute txID tx ov).CountedAmong (· ∈ s.peerPositions) := by
  refine foldlRecOn (motive := fun d : DisputedTx => d.CountedAmong (· ∈ s.peerPositions)) _ _ ?_
    fun d hd peer hpe => ?_
  · exact .new txID tx ov
  · cases s.acquiredSet peer.2.currentHash with
    | none => exact hd
    | some set => exact hd.setVote (mem_peerPositions hpe)

theorem Tallied.opens (h : Tallied s) (ho : Opens s s') : Tallied s' := by
  have hp : s'.peerPositions = s.peerPositions := by rw [ho.frame]
  refine ⟨fun peer position hlk => ?_, fun id d hlk => ?_⟩
  · rw [hp] at hlk
    exact h.named hlk
  rw [hp]
  rcases ho.opened hlk with hold | ⟨tx, ourVote, -, rfl⟩
  · exact h.disputes hold
  · exact newDispute_countedAmong s id tx ourVote

variable {hash : Hash}

theorem compareWithOurs_cases {map : TxSet} (h : s.compareWithOurs getHash hash map = some s') :
    s' = s ∨ ∃ position ours, s.ourPosition = some position ∧
      s.acquiredSet position.currentHash = some ours ∧
      createDisputes getHash ours map { s with compares := hash :: s.compares } = some s' := by
  unfold compareWithOurs at h
  split at h
  · exact .inl (some.inj h).symm
  next position hpo =>
  split at h
  · exact .inl (some.inj h).symm
  · obtain ⟨ours, hours, hc⟩ := bind_eq_some_iff.mp h
    exact .inr ⟨position, ours, hpo, hours, hc⟩

variable {peer : LedgerProposal Hash}

theorem countPeer_cases {ours : Hash} {cnts cnts' : Int × Int × LedgerConsensus Hash}
    (h : countPeer getHash ours cnts peer = some cnts') :
    cnts'.2.2 = cnts.2.2 ∨ ∃ theirs ourSet,
      cnts.2.2.acquiredSet peer.currentHash = some theirs ∧
      cnts.2.2.acquiredSet ours = some ourSet ∧
      createDisputes getHash ourSet theirs
        { cnts.2.2 with compares := peer.currentHash :: cnts.2.2.compares } =
          some cnts'.2.2 := by
  obtain ⟨agree, disagree, s⟩ := cnts
  simp only [countPeer] at h
  split_ifs at h
  iterate 3
    cases h
    exact .inl rfl
  split at h
  · next theirs ourSet hth hourSet =>
    obtain ⟨s1, hc, h⟩ := bind_eq_some_iff.mp h
    cases h
    exact .inr ⟨theirs, ourSet, hth, hourSet, hc⟩
  · cases h
    exact .inl rfl

variable {currentValidations : Int} {reached : Bool}

theorem haveConsensus_cases (h : s.haveConsensus getHash currentValidations = some (reached, s')) :
    ∃ position counts consensusFail, s.ourPosition = some position ∧
      Run (fun peer counts counts' => countPeer getHash position.currentHash counts peer =
        some counts') (0, 0, s) (s.peerPositions.entries.map (·.2)) counts ∧
      s' = { counts.2.2 with consensusFail } := by
  obtain ⟨position, hpo, h⟩ := bind_eq_some_iff.mp h
  obtain ⟨⟨agree, disagree, s1⟩, hl, h⟩ := bind_eq_some_iff.mp h
  refine ⟨position, (agree, disagree, s1), s'.consensusFail, hpo,
    Run.of_foldlM (fun _ _ _ => id) hl, ?_⟩
  dsimp only at h
  split at h <;> cases h <;> rfl

theorem contrastPeer_cases {initialSet : TxSet} {fd fd' : List Hash × LedgerConsensus Hash}
    (h : contrastPeer getHash initialSet fd peer = some fd') :
    fd'.2 = fd.2 ∨ ∃ set, fd.2.acquiredSet peer.currentHash = some set ∧
      createDisputes getHash initialSet set
        { fd.2 with compares := getHash set :: fd.2.compares } = some fd'.2 := by
  obtain ⟨hashes, s⟩ := fd
  simp only [contrastPeer] at h
  split_ifs at h
  · cases h
    exact .inl rfl
  split at h
  · cases h
    exact .inl rfl
  · cases h
  · next set hlk =>
    obtain ⟨s1, hc, h⟩ := bind_eq_some_iff.mp h
    cases h
    exact .inr ⟨set, by rw [acquiredSet, hlk]; rfl, hc⟩

variable {pseudo : List (UInt256 × Blob)} {parentHash : UInt256} {standalone : Bool} {txMap : TxSet}

theorem takeInitialPosition_cases
    (h : s.takeInitialPosition getHash standalone txMap parentHash pseudo now = some s') :
    let set := s.initialSet standalone txMap pseudo
    ∃ s1 position found, s.mapCompleteInternal getHash (getHash set) (some set) = some s1 ∧
      position.currentHash = getHash set ∧ position.closeTime = s1.closeTime ∧
      Run (fun peer found found' => contrastPeer getHash set found peer = some found')
        ([], { s1 with ourPosition := some position }.mapDisputes
          fun id d => { d with ourVote := txMap.hasItem id })
        (s1.peerPositions.entries.map (·.2)) found ∧ s' = found.2 := by
  obtain ⟨s1, hma, h⟩ := bind_eq_some_iff.mp h
  obtain ⟨⟨hashes, s2⟩, hl, h⟩ := bind_eq_some_iff.mp h
  cases h
  exact ⟨s1, _, _, hma, rfl, rfl, Run.of_foldlM (fun _ _ _ => id) hl, rfl⟩

theorem Tallied.createDisputes {compares : List Hash} (h : Tallied s)
    (hc : createDisputes getHash m1 m2 { s with compares } = some s') : Tallied s' :=
  (h.congr rfl rfl : Tallied { s with compares }).opens (opens_createDisputes hc)

theorem Tallied.compareWithOurs {map : TxSet} (h : Tallied s)
    (hcm : s.compareWithOurs getHash hash map = some s') : Tallied s' := by
  rcases compareWithOurs_cases hcm with rfl | ⟨-, ours, -, -, hc⟩
  · exact h
  · exact h.createDisputes hc

theorem Tallied.mapCompleteInternal {map : Option TxSet} (h : Tallied s)
    (hma : s.mapCompleteInternal getHash hash map = some s') : Tallied s' := by
  unfold LedgerConsensus.mapCompleteInternal at hma
  split at hma
  · cases hma
    exact h.congr rfl rfl
  split_ifs at hma with hh hha
  · cases hma
    exact h
  obtain ⟨s1, hcm, hma⟩ := bind_eq_some_iff.mp hma
  cases hma
  have h1 : Tallied s1 := by
    refine Tallied.compareWithOurs ?_ hcm
    exact h.congr rfl rfl
  refine Tallied.adjustCount ?_ _ fun peer hpe => ?_
  · exact h1.congr rfl rfl
  obtain ⟨entry, hen, rfl⟩ := mem_map.mp hpe
  have hm := (mem_filter.mp hen).1
  rw [h1.peerID_mem hm]
  exact mem_peerPositions hm

theorem getTransactionTree_frame (getHash : TxSet → Hash) (inb : List TxSet) (hash : Hash)
    (s : LedgerConsensus Hash) :
    (s.getTransactionTree getHash inb hash).1 =
      { s with acquired := (s.getTransactionTree getHash inb hash).1.acquired } := by
  unfold getTransactionTree
  repeat' split
  all_goals rfl

theorem Tallied.votePosition (h : Tallied s) (inb : List TxSet)
    (npos : LedgerProposal Hash) (hpe : npos.peerID ∈ s.peerPositions) :
    Tallied (s.votePosition getHash inb npos) := by
  have hfr := getTransactionTree_frame getHash inb npos.currentHash s
  unfold LedgerConsensus.votePosition
  split
  · next s1 set ht =>
    rw [ht] at hfr
    dsimp only at hfr
    refine Tallied.setVotes ?_ ?_ _
    · refine h.congr ?_ ?_ <;> rw [hfr]
    · rw [hfr]
      exact hpe
  · next s1 ht =>
    rw [ht] at hfr
    dsimp only at hfr
    refine h.congr ?_ ?_ <;> rw [hfr]

theorem Tallied.peerPosition (h : Tallied s) (inb : List TxSet)
    (npos : LedgerProposal Hash) :
    Tallied (s.peerPosition getHash inb npos).2 := by
  unfold LedgerConsensus.peerPosition
  split_ifs
  · exact h
  · exact h
  · exact h.dropPeer npos.peerID rfl rfl
  · have hli : Tallied (s.recordPosition npos) := h.addPeer npos rfl rfl
    refine hli.votePosition inb npos ?_
    exact (mem_insert _).mpr (.inl rfl)

theorem Tallied.playbackProposals (h : Tallied s) (inb : List TxSet)
    (std : List (LedgerProposal Hash)) :
    Tallied (s.playbackProposals getHash inb std) := by
  refine foldlRecOn (motive := Tallied) _ _ h fun s hs proposal _ => ?_
  split
  · exact hs.peerPosition inb proposal
  · exact hs

theorem Tallied.haveConsensus (h : Tallied s)
    (hco : s.haveConsensus getHash currentValidations = some (reached, s')) :
    Tallied s' := by
  obtain ⟨position, counts, -, -, hr, rfl⟩ := haveConsensus_cases hco
  have hct : Tallied counts.2.2 :=
    hr.preserves (fun counts => Tallied counts.2.2) (fun _ _ _ hst hct => by
      rcases countPeer_cases hst with hsa | ⟨theirs, ourSet, -, -, hc⟩
      · exact hsa ▸ hct
      · exact hct.createDisputes hc) h
  exact hct.congr rfl rfl

theorem Tallied.takeInitialPosition (h : Tallied s)
    (htk : s.takeInitialPosition getHash standalone txMap parentHash pseudo now = some s') :
    Tallied s' := by
  obtain ⟨s1, position, found, hma, -, -, hr, rfl⟩ := takeInitialPosition_cases htk
  have h1 : Tallied s1 := h.mapCompleteInternal hma
  refine hr.preserves (fun found => Tallied found.2) (fun _ _ _ hst hfn => ?_) ?_
  · rcases contrastPeer_cases hst with hsa | ⟨set, -, hc⟩
    · exact hsa ▸ hfn
    · exact hfn.createDisputes hc
  · exact h1.mapDisputes h1.named rfl fun id d hd => hd.withOurVote _

/-- Our votes move our set, unless we have bowed out. -/
theorem updateOurPositions_cases (h : s.updateOurPositions getHash now = some s') :
    ∃ s1 position reached, s1 = (s.removeStale (now - seconds proposeFreshness)).1 ∧
      s1.ourPosition = some position ∧
      (s' = s1.moveVotes reached ∧ (position.isBowOut ∨ s1.changes = false) ∨
        ∃ ours position', s1.acquiredSet position.currentHash = some ours ∧
          position.changePosition (getHash (s1.movedSet ours)) (s1.closeTimeConsensus position
            (s.removeStale (now - seconds proposeFreshness)).2).1 now = some position' ∧
          mapCompleteInternal getHash (getHash (s1.movedSet ours)) (some (s1.movedSet ours))
            { s1.moveVotes reached with ourPosition := some position' } = some s') := by
  unfold updateOurPositions at h
  revert h
  generalize s.removeStale (now - seconds proposeFreshness) = removed
  intro h
  obtain ⟨s1, closeTimes⟩ := removed
  obtain ⟨position, hpo, h⟩ := bind_eq_some_iff.mp h
  refine ⟨s1, position, (s1.closeTimeConsensus position closeTimes).2, rfl, hpo, ?_⟩
  dsimp only at h
  split_ifs at h with hch
  · obtain ⟨ours, hours, h⟩ := bind_eq_some_iff.mp h
    split at h
    · next hle =>
      refine .inl ⟨(some.inj h).symm, .inl ?_⟩
      by_contra hsy
      simp_all [changePosition, isBowOut]
    · next position' hcg => exact .inr ⟨ours, position', hours, hcg, h⟩
  · refine .inl ⟨(some.inj h).symm, .inr ?_⟩
    simp only [Bool.or_eq_true, not_or] at hch
    simpa using hch.1.1

theorem Tallied.updateOurPositions (h : Tallied s)
    (hu : s.updateOurPositions getHash now = some s') : Tallied s' := by
  obtain ⟨s1, position, reached, rfl, -, hca⟩ := updateOurPositions_cases hu
  have h1 := (h.removeStale (now - seconds proposeFreshness)).moveVotes reached
  rcases hca with ⟨rfl, -⟩ | ⟨ours, position', -, -, hma⟩
  · exact h1
  · refine Tallied.mapCompleteInternal ?_ hma
    exact h1.congr rfl rfl

theorem Tallied.handleLCL (h : Tallied s) (lcl : UInt256) (nl : Option LastClosed)
    (inb : List TxSet) (std : List (LedgerProposal Hash)) (now : TimePoint) :
    Tallied (s.handleLCL getHash lcl nl inb std now) := by
  unfold LedgerConsensus.handleLCL
  split
  · refine Tallied.acquireLCL (Tallied.playbackProposals ⟨?_, ?_⟩ inb std) lcl nl
    · intro peer position hlk
      cases hlk
    · intro id d hlk
      cases hlk
  · exact h.acquireLCL lcl nl

theorem Tallied.handle {e : Event Hash} (h : Tallied s) (he : Takes getHash e s s') :
    Tallied s' := by
  cases e with
  | timer currentMSeconds =>
    cases he
    exact h.congr rfl rfl
  | mapComplete hash map => exact h.mapCompleteInternal he
  | peerPosition inbound newPosition =>
    cases he
    exact h.peerPosition inbound newPosition
  | takeInitialPosition standalone txMap parentHash pseudo now => exact h.takeInitialPosition he
  | updateOurPositions now => exact h.updateOurPositions he
  | haveConsensus currentValidations =>
    obtain ⟨⟨reached, s1⟩, hco, rfl⟩ := map_eq_some_iff.mp he
    exact h.haveConsensus hco
  | handleLCL lclHash newLCL inbound stored now =>
    cases he
    exact h.handleLCL lclHash newLCL inbound stored now
  | leaveConsensus now =>
    cases he
    unfold leaveConsensus
    split
    · exact h.congr rfl rfl
    · exact h

variable {r : Round Hash}

theorem tallied_start : Tallied (r.start getHash) := by
  unfold Round.start create
  extract_lets s1
  have h1 : Tallied s1 := by
    constructor
    · intro peer position hlk
      cases hlk
    · intro id d hlk
      cases hlk
  split
  · exact h1
  · exact h1.handleLCL _ _ _ _ _

/-- The counters of every dispute are the numbers of its votes, and every voter has a position. -/
theorem votes_counted (hr : Run (Takes getHash) (r.start getHash) r.events s)
    (id : UInt256) (d : DisputedTx) (hds : s.disputes.lookup id = some d) :
    d.yays = count d.votes true ∧ d.nays = count d.votes false ∧
      ∀ peer ∈ d.votes, peer ∈ s.peerPositions := by
  have hta : Tallied s := hr.preserves Tallied (fun _ _ _ hst h => h.handle hst)
    tallied_start
  have hd := hta.disputes hds
  exact ⟨hd.counted.yays, hd.counted.nays, hd.voters⟩

def entriesHash (set : TxSet) : List (UInt256 × Blob) :=
  set.entries

def sampleSet : TxSet :=
  OrderedMap.empty.insert 1 []

def sampleClosed : LastClosed :=
  { hash := 1, seq := 1, closeTime := 60, closeTimeResolution := 30, closeAgree := true }

def samplePosition : LedgerProposal (List (UInt256 × Blob)) :=
  { previousLedger := 1, currentHash := entriesHash sampleSet, closeTime := 0
    proposeSeq := seqJoin, peerID := 1, time := 0 }

/-- A peer proposes a transaction, and its set arrives. -/
def sampleRound : Round (List (UInt256 × Blob)) where
  prevLCLHash := 1
  previousLedger := sampleClosed
  closeTime := 0
  previousProposers := 0
  previousConvergeTime := 1000
  nodeID := 2
  proposing := true
  newLCL := none
  inbound := []
  stored := []
  now := 0
  events := [.takeInitialPosition false .empty 1 [] 0, .peerPosition [] samplePosition,
    .mapComplete (entriesHash sampleSet) (some sampleSet)]
  hash := 2

def sampleStart : LedgerConsensus (List (UInt256 × Blob)) := sampleRound.start entriesHash

theorem sample_votes_counted : ∃ s d, Run (Takes entriesHash) sampleStart sampleRound.events s ∧
    s.disputes.lookup 1 = some d ∧ d.yays = 1 ∧
    (d.yays = count d.votes true ∧ d.nays = count d.votes false ∧
      ∀ peer ∈ d.votes, peer ∈ s.peerPositions) := by
  have hy : ((sampleRound.events.foldlM (fun s e => handle entriesHash s e) sampleStart).bind
      fun s => (s.disputes.lookup 1).map yays) = some 1 := by decide
  obtain ⟨s, hs, hds⟩ := bind_eq_some_iff.mp hy
  obtain ⟨d, hd, hy⟩ := map_eq_some_iff.mp hds
  have hr : Run (Takes entriesHash) sampleStart sampleRound.events s :=
    Run.of_foldlM (fun _ _ _ => id) hs
  exact ⟨s, d, hr, hd, hy, votes_counted hr 1 d hd⟩

end LedgerConsensus

end Sand
