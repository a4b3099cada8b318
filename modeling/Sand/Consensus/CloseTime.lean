import Sand.Consensus.Tallies

/-!
# Close times

A new ledger closes at our position's time, or right after its parent without agreement.
-/

namespace Sand

open Option AList

namespace LastClosed

variable (ledger : LastClosed)

def nextResolution : UInt32 :=
  getNextLedgerTimeResolution ledger.closeTimeResolution ledger.closeAgree (ledger.seq + 1)

/-- The next ledger, as `Ledger::setAccepted` leaves it. -/
def setAccepted (parent : LastClosed) (hash : UInt256) (closeTime closeResolution : UInt32)
    (correctCloseTime : Bool) : LastClosed where
  hash := hash
  seq := parent.seq + 1
  closeTime := if correctCloseTime then roundCloseTime closeTime closeResolution else closeTime
  closeTimeResolution := closeResolution
  closeAgree := correctCloseTime

/-- A proposed close time is rounded to zero or to a time after the ledger's, once and for all. -/
def Precedes (closeTime : UInt32) : Prop :=
  let rounded := roundCloseTime closeTime ledger.nextResolution
  (rounded = 0 ∨ ledger.closeTime < rounded) ∧
    roundCloseTime rounded ledger.nextResolution = rounded

instance (ledger : LastClosed) (closeTime : UInt32) : Decidable (ledger.Precedes closeTime) := by
  unfold Precedes
  infer_instance

theorem precedes_zero : ledger.Precedes 0 := ⟨.inl rfl, rfl⟩

theorem Precedes.rounded {led : LastClosed} {ct : UInt32} (h : led.Precedes ct) :
    led.Precedes (roundCloseTime ct led.nextResolution) := by
  obtain ⟨haf, hsa⟩ := h
  unfold Precedes
  rw [hsa]
  exact ⟨haf, hsa⟩

end LastClosed

namespace LedgerConsensus

variable {Hash : Type} {s s' : LedgerConsensus Hash} {ledger : LastClosed}

def accept (hash : UInt256) (s : LedgerConsensus Hash) : Option LastClosed :=
  s.ourPosition.map fun position =>
    let closeTime := roundCloseTime position.closeTime s.closeResolution
    if closeTime = 0 then
      -- we agreed to disagree
      s.previousLedger.setAccepted hash (s.previousLedger.closeTime + 1) s.closeResolution false
    else s.previousLedger.setAccepted hash closeTime s.closeResolution true

/-! ## The close times of a round -/

def times (s : LedgerConsensus Hash) : LastClosed × UInt32 × UInt32 ×
    Option (LedgerProposal Hash) × AList fun _ : NodeID => LedgerProposal Hash :=
  (s.previousLedger, s.closeResolution, s.closeTime, s.ourPosition, s.peerPositions)

/-- The round and its close times go with the ledger. -/
structure Timely (ledger : LastClosed) (s : LedgerConsensus Hash) : Prop where
  previousLedger : s.previousLedger = ledger
  closeResolution : s.closeResolution = ledger.nextResolution
  closeTime : ledger.Precedes s.closeTime
  ours : ∀ position, s.ourPosition = some position → ledger.Precedes position.closeTime
  peers : ∀ peer position, s.peerPositions.lookup peer = some position →
    ledger.Precedes position.closeTime

section

variable (h : Timely ledger s)
include h

theorem Timely.congr (ht : s'.times = s.times) : Timely ledger s' := by
  simp only [times, Prod.mk.injEq] at ht
  obtain ⟨hle, hre, htm, hours, hpr⟩ := ht
  constructor
  · rw [hle]
    exact h.previousLedger
  · rw [hre]
    exact h.closeResolution
  · rw [htm]
    exact h.closeTime
  · rw [hours]
    exact h.ours
  · rw [hpr]
    exact h.peers

theorem Timely.erasePeer (peer : NodeID) :
    Timely ledger { s with peerPositions := s.peerPositions.erase peer } := by
  refine ⟨h.previousLedger, h.closeResolution, h.closeTime, h.ours, ?_⟩
  intro peer' position hlk
  obtain rfl | hpe := eq_or_ne peer' peer
  · have hno := (lookup_erase peer' s.peerPositions).symm.trans hlk
    cases hno
  · exact h.peers peer' position ((lookup_erase_ne hpe).symm.trans hlk)

theorem Timely.recordPosition {npos : LedgerProposal Hash} (hn : ledger.Precedes npos.closeTime) :
    Timely ledger (s.recordPosition npos) := by
  refine ⟨h.previousLedger, h.closeResolution, h.closeTime, h.ours, ?_⟩
  intro peer position hlk
  obtain rfl | hpe := eq_or_ne peer npos.peerID
  · have hsa := (lookup_insert s.peerPositions).symm.trans hlk
    cases hsa
    exact hn
  · exact h.peers peer position ((lookup_insert_ne hpe).symm.trans hlk)

theorem Timely.switchLCL (lcl : UInt256) (now : TimePoint) :
    Timely ledger (s.switchLCL lcl now) := by
  refine ⟨h.previousLedger, h.closeResolution, h.closeTime, fun position hours => ?_,
    fun peer position hlk => nomatch hlk⟩
  unfold LedgerConsensus.switchLCL at hours
  split at hours
  · obtain ⟨position', hp', rfl⟩ := map_eq_some_iff.mp hours
    exact h.ours position' hp'
  · exact h.ours position hours

theorem Timely.acquireLCL (lcl : UInt256) {nl : Option LastClosed}
    (hn : ∀ ledger' ∈ nl, ledger' = ledger) :
    Timely ledger (s.acquireLCL lcl nl) := by
  unfold LedgerConsensus.acquireLCL
  split
  · exact h
  cases nl with
  | none =>
    dsimp only
    split
    · exact h.congr rfl
    · exact h
  | some ledger' =>
    obtain rfl := hn ledger' rfl
    exact ⟨rfl, rfl, h.closeTime, h.ours, h.peers⟩

theorem Timely.leaveConsensus (now : TimePoint) : Timely ledger (s.leaveConsensus now) := by
  unfold LedgerConsensus.leaveConsensus
  split
  · refine ⟨h.previousLedger, h.closeResolution, h.closeTime, fun position hours => ?_, h.peers⟩
    obtain ⟨position', hp', rfl⟩ := map_eq_some_iff.mp hours
    split
    · exact h.ours position' hp'
    · exact h.ours position' hp'
  · exact h

end

/-! ## The vote on the close time -/

/-- Counted close times are rounded and go with the ledger. -/
def Counted (ledger : LastClosed) (closeTimes : OrderedMap UInt32 Int) : Prop :=
  ∀ entry ∈ closeTimes.entries, ledger.Precedes entry.1

variable {closeTimes : OrderedMap UInt32 Int}

theorem Counted.countCloseTime {ct : UInt32} (h : Counted ledger closeTimes)
    (htm : ledger.Precedes ct) : Counted ledger (countCloseTime closeTimes ct) := by
  rintro ⟨time, count⟩ hm
  rcases OrderedMap.mem_insert_iff.mp hm with ⟨rfl, -⟩ | ⟨-, hm⟩
  · exact htm
  · exact h _ hm

theorem Timely.removeStale (h : Timely ledger s) (pc : TimePoint) :
    Timely ledger (s.removeStale pc).1 ∧ Counted ledger (s.removeStale pc).2 := by
  have hem : Counted ledger OrderedMap.empty := fun entry hen => nomatch hen
  refine List.foldlRecOn (motive := fun acc : LedgerConsensus Hash × OrderedMap UInt32 Int =>
    Timely ledger acc.1 ∧ Counted ledger acc.2) _ _ ⟨h, hem⟩ fun acc hac peer hm => ?_
  obtain ⟨s1, closeTimes⟩ := acc
  obtain ⟨peer, position⟩ := peer
  obtain ⟨h1, hc⟩ := hac
  have hp := h.peers peer position (AList.mem_lookup_iff.mpr hm)
  simp only [checkFresh]
  split
  · exact ⟨(h1.erasePeer peer).congr rfl, hc⟩
  · refine ⟨h1, hc.countCloseTime ?_⟩
    rw [h1.closeResolution]
    exact hp.rounded

theorem Timely.closeTimeConsensus (h : Timely ledger s) {pos : LedgerProposal Hash}
    (hp : ledger.Precedes pos.closeTime) (hc : Counted ledger closeTimes) :
    ledger.Precedes (s.closeTimeConsensus pos closeTimes).1 := by
  have hours : ledger.Precedes (roundCloseTime pos.closeTime s.closeResolution) := by
    rw [h.closeResolution]
    exact hp.rounded
  unfold LedgerConsensus.closeTimeConsensus
  split
  · exact hours
  extract_lets ours closeTimes' participants threshVote threshConsensus
  have hc' : Counted ledger closeTimes' := by
    unfold closeTimes'
    split
    · exact hc.countCloseTime hours
    · exact hc
  split
  next closeTime _ reached hfo =>
  have hv : ledger.Precedes closeTime := by
    rw [show closeTime = (closeTime, _, reached).1 from rfl, ← hfo]
    refine List.foldlRecOn (motive := fun acc : UInt32 × Int × Bool => ledger.Precedes acc.1) _ _
      ledger.precedes_zero fun acc hac entry hen => ?_
    dsimp only
    split
    · exact hc' entry hen
    · exact hac
  split
  · exact ledger.precedes_zero
  · exact hv

variable {ledger' : LastClosed}

theorem Timely.accept_lt {hash : UInt256} (h : Timely ledger s)
    (hl : ledger.closeTime ≠ 0xffffffff) (ha : s.accept hash = some ledger') :
    ledger.closeTime < ledger'.closeTime := by
  obtain ⟨position, hp, rfl⟩ := map_eq_some_iff.mp ha
  obtain ⟨haf, hsa⟩ := h.ours position hp
  rw [h.closeResolution, h.previousLedger]
  dsimp only
  split
  · change ledger.closeTime < ledger.closeTime + 1
    have hbo := ledger.closeTime.toNat_lt
    have hl' : ledger.closeTime.toNat ≠ (0xffffffff : UInt32).toNat :=
      fun heq => hl (UInt32.toNat_inj.mp heq)
    rw [UInt32.lt_iff_toNat_lt, UInt32.toNat_add]
    simp only [UInt32.reduceToNat] at hl' ⊢
    omega
  · next h0 =>
    have hla := haf.resolve_left h0
    change ledger.closeTime < roundCloseTime (roundCloseTime _ _) _
    rw [hsa]
    exact hla

/-! ## What keeps the times -/

section

variable [DecidableEq Hash] {getHash : TxSet → Hash}

theorem times_createDisputes {m1 m2 : TxSet} {compares : List Hash}
    (h : createDisputes getHash m1 m2 { s with compares } = some s') : s'.times = s.times := by
  rw [(opens_createDisputes h).frame]
  rfl

variable {hash : Hash}

theorem times_compareWithOurs {map : TxSet}
    (h : s.compareWithOurs getHash hash map = some s') : s'.times = s.times := by
  rcases compareWithOurs_cases h with rfl | ⟨-, ours, -, -, hcr⟩
  · rfl
  · exact times_createDisputes hcr

theorem times_mapCompleteInternal {map : Option TxSet}
    (h : s.mapCompleteInternal getHash hash map = some s') : s'.times = s.times := by
  unfold mapCompleteInternal at h
  split at h
  · cases h
    rfl
  split_ifs at h
  · cases h
    rfl
  obtain ⟨s1, hcm, h⟩ := bind_eq_some_iff.mp h
  cases h
  have hsa := times_compareWithOurs hcm
  exact hsa

theorem times_votePosition (inb : List TxSet) (npos : LedgerProposal Hash)
    (s : LedgerConsensus Hash) : (s.votePosition getHash inb npos).times = s.times := by
  have hfr := getTransactionTree_frame getHash inb npos.currentHash s
  unfold votePosition
  split
  · next s1 set htr =>
    rw [htr] at hfr
    have hsa := congrArg times hfr
    exact hsa
  · next s1 htr =>
    rw [htr] at hfr
    have hsa := congrArg times hfr
    exact hsa

theorem times_haveConsensus {curVals : Int} {rch : Bool}
    (h : s.haveConsensus getHash curVals = some (rch, s')) : s'.times = s.times := by
  obtain ⟨position, counts, -, -, hr, rfl⟩ := haveConsensus_cases h
  refine hr.preserves (fun counts => counts.2.2.times = s.times) (fun _ _ _ hse hct => ?_) rfl
  rcases countPeer_cases hse with hsa | ⟨theirs, ourSet, -, -, hcr⟩
  · exact hsa ▸ hct
  · exact (times_createDisputes hcr).trans hct

section

variable (h : Timely ledger s)
include h

/-! ## Every event -/

variable {now : TimePoint}

theorem Timely.takeInitialPosition {sa : Bool} {txMap : TxSet} {ph : UInt256}
    {pseudo : List (UInt256 × Blob)}
    (hta : s.takeInitialPosition getHash sa txMap ph pseudo now = some s') :
    Timely ledger s' := by
  obtain ⟨s1, position, found, hma, -, hcl, hr, rfl⟩ := takeInitialPosition_cases hta
  have h1 : Timely ledger s1 := h.congr (times_mapCompleteInternal hma)
  refine hr.preserves (fun found => Timely ledger found.2) (fun _ _ _ hse hf => ?_) ?_
  · rcases contrastPeer_cases hse with hsa | ⟨set, -, hcr⟩
    · exact hsa ▸ hf
    · exact hf.congr (times_createDisputes hcr)
  · refine ⟨h1.previousLedger, h1.closeResolution, h1.closeTime, fun _ hours => ?_, h1.peers⟩
    cases hours
    exact hcl ▸ h1.closeTime

theorem Timely.peerPosition (inb : List TxSet)
    {npos : LedgerProposal Hash} (hn : ledger.Precedes npos.closeTime) :
    Timely ledger (s.peerPosition getHash inb npos).2 := by
  unfold LedgerConsensus.peerPosition
  split_ifs
  · exact h
  · exact h
  · exact (h.erasePeer npos.peerID).congr rfl
  · exact (h.recordPosition hn).congr (times_votePosition inb npos _)

variable {stored : List (LedgerProposal Hash)}

theorem Timely.playbackProposals (inb : List TxSet)
    (hst : ∀ proposal ∈ stored, ledger.Precedes proposal.closeTime) :
    Timely ledger (s.playbackProposals getHash inb stored) := by
  refine List.foldlRecOn (motive := Timely ledger) _ _ h fun s hs proposal hm => ?_
  split
  · exact hs.peerPosition inb (hst proposal hm)
  · exact hs

theorem Timely.updateOurPositions
    (hu : s.updateOurPositions getHash now = some s') : Timely ledger s' := by
  obtain ⟨s1, position, reached, rfl, hours, hcs⟩ := updateOurPositions_cases hu
  obtain ⟨h1, hc⟩ := h.removeStale (now - seconds proposeFreshness)
  rcases hcs with ⟨rfl, -⟩ | ⟨ours, position', -, hch, hma⟩
  · exact h1.congr rfl
  refine Timely.congr ?_ (times_mapCompleteInternal hma)
  refine ⟨h1.previousLedger, h1.closeResolution, h1.closeTime, fun _ hn => ?_, h1.peers⟩
  cases hn
  unfold LedgerProposal.changePosition at hch
  split at hch
  · cases hch
  · cases hch
    exact h1.closeTimeConsensus (h1.ours position hours) hc

theorem Timely.handleLCL (lcl : UInt256) {nl : Option LastClosed} (inb : List TxSet)
    (now : TimePoint) (hn : ∀ ledger' ∈ nl, ledger' = ledger)
    (hst : ∀ proposal ∈ stored, ledger.Precedes proposal.closeTime) :
    Timely ledger (s.handleLCL getHash lcl nl inb stored now) := by
  unfold LedgerConsensus.handleLCL
  split
  · exact ((h.switchLCL lcl now).playbackProposals inb hst).acquireLCL lcl hn
  · exact h.acquireLCL lcl hn

end

end

/-- It proposes only close times that go with the ledger, and brings no other. -/
def Event.GoesWith (ledger : LastClosed) : Event Hash → Prop
  | .peerPosition _ newPosition => ledger.Precedes newPosition.closeTime
  | .handleLCL _ newLCL _ stored _ => (∀ ledger' ∈ newLCL, ledger' = ledger) ∧
      ∀ proposal ∈ stored, ledger.Precedes proposal.closeTime
  | _ => True

variable [DecidableEq Hash] {getHash : TxSet → Hash}

theorem Timely.handle {e : Event Hash} (h : Timely ledger s) (hg : e.GoesWith ledger)
    (he : Takes getHash e s s') : Timely ledger s' := by
  cases e with
  | timer currentMSeconds =>
    cases he
    exact h.congr rfl
  | mapComplete hash map => exact h.congr (times_mapCompleteInternal he)
  | peerPosition inbound newPosition =>
    cases he
    exact h.peerPosition inbound hg
  | takeInitialPosition standalone txMap parentHash pseudo now => exact h.takeInitialPosition he
  | updateOurPositions now => exact h.updateOurPositions he
  | haveConsensus currentValidations =>
    obtain ⟨⟨reached, s1⟩, hco, rfl⟩ := map_eq_some_iff.mp he
    exact h.congr (times_haveConsensus hco)
  | handleLCL lclHash newLCL inbound stored now =>
    cases he
    exact h.handleLCL lclHash inbound now hg.1 hg.2
  | leaveConsensus now =>
    cases he
    exact h.leaveConsensus now

/-! ## Rounds -/

/-- The round accepts `ledger'`, built on `ledger`. -/
def Round.Builds (getHash : TxSet → Hash) (r : Round Hash) (ledger ledger' : LastClosed) : Prop :=
  ∃ s, Run (Takes getHash) (r.start getHash) r.events s ∧ s.previousLedger = ledger ∧
    s.accept r.hash = some ledger'

/-- It works from the ledger only, with close times that go with it. -/
structure Round.GoesWith (ledger : LastClosed) (r : Round Hash) : Prop where
  previousLedger : r.previousLedger = ledger
  notLast : ledger.closeTime ≠ 0xffffffff
  closeTime : ledger.Precedes r.closeTime
  newLCL : ∀ ledger' ∈ r.newLCL, ledger' = ledger
  stored : ∀ proposal ∈ r.stored, ledger.Precedes proposal.closeTime
  events : ∀ e ∈ r.events, e.GoesWith ledger

variable {r : Round Hash}

theorem Round.GoesWith.start (h : r.GoesWith ledger) : Timely ledger (r.start getHash) := by
  unfold Round.start create
  extract_lets s1
  have h1 : Timely ledger s1 := by
    constructor
    · exact h.previousLedger
    · unfold s1
      rw [h.previousLedger]
      rfl
    · exact h.closeTime
    · intro position hours
      cases hours
    · intro peer position hlk
      cases hlk
  split
  · exact h1
  · exact h1.handleLCL r.prevLCLHash r.inbound r.now h.newLCL h.stored

theorem Round.Builds.closeTime_lt (hb : r.Builds getHash ledger ledger')
    (h : r.GoesWith ledger) : ledger.closeTime < ledger'.closeTime := by
  obtain ⟨s, hr, -, ha⟩ := hb
  have hti : Timely ledger s := hr.invariant (Timely ledger) h.events
    (fun _ _ _ hg hse hti => hti.handle hg hse) h.start
  exact hti.accept_lt h.notLast ha

/-- Close times move forward along a chain of rounds if every proposed one lies, rounded, behind
that of the parent. -/
theorem closeTimes_increase (ledgers : List LastClosed) (h : ledgers.IsChain fun ledger ledger' =>
      ∃ r : Round Hash, r.Builds getHash ledger ledger' ∧ r.GoesWith ledger) :
    ledgers.Pairwise fun ledger ledger' => ledger.closeTime < ledger'.closeTime := by
  have hca : ledgers.IsChain fun ledger ledger' => ledger.closeTime < ledger'.closeTime :=
    h.imp fun _ _ ⟨_, hb, hg⟩ => hb.closeTime_lt hg
  have : IsTrans LastClosed fun ledger ledger' => ledger.closeTime < ledger'.closeTime :=
    ⟨fun _ _ _ => UInt32.lt_trans⟩
  exact hca.pairwise

/-- We propose a close time, and the events follow. -/
def ourRound (closeTime : UInt32) (events : List (Event (List (UInt256 × Blob)))) :
    Round (List (UInt256 × Blob)) :=
  { sampleRound with
    closeTime
    events := .takeInitialPosition false .empty 1 [] 0 :: events }

def closedAt (closeTime : UInt32) : LastClosed :=
  { hash := 2, seq := 2, closeTime, closeTimeResolution := 30, closeAgree := true }

theorem ourRound_builds {ct ct' : UInt32} {events : List (Event (List (UInt256 × Blob)))}
    (h : (((ourRound ct events).events.foldlM (fun s e => handle entriesHash s e)
      ((ourRound ct events).start entriesHash)).map fun s => (s.previousLedger, s.accept 2)) =
        some (sampleClosed, some (closedAt ct'))) :
    (ourRound ct events).Builds entriesHash sampleClosed (closedAt ct') := by
  obtain ⟨s, hs, ht⟩ := map_eq_some_iff.mp h
  obtain ⟨hledger, haccept⟩ := Prod.mk.inj ht
  exact ⟨s, Run.of_foldlM (fun _ _ _ => id) hs, hledger, haccept⟩

/-- A peer proposes a later time, and we follow it. -/
def laterProposal : List (Event (List (UInt256 × Blob))) :=
  [.peerPosition [] { samplePosition with closeTime := 110 }, .updateOurPositions 0]

theorem laterProposal_increases :
    (ourRound 80 laterProposal).Builds entriesHash sampleClosed (closedAt 120) ∧
      [sampleClosed, closedAt 120].Pairwise fun ledger ledger' =>
        ledger.closeTime < ledger'.closeTime := by
  have hb : (ourRound 80 laterProposal).Builds entriesHash sampleClosed (closedAt 120) :=
    ourRound_builds rfl
  have hg : (ourRound 80 laterProposal).GoesWith sampleClosed := by
    constructor
    · rfl
    · decide
    · decide
    · intro ledger hle
      cases hle
    · intro proposal hpo
      cases hpo
    · refine List.forall_mem_cons.mpr ⟨trivial, List.forall_mem_cons.mpr ⟨?_, ?_⟩⟩
      · change sampleClosed.Precedes 110
        decide
      · exact List.forall_mem_singleton.mpr trivial
  have hca : [sampleClosed, closedAt 120].IsChain fun ledger ledger' =>
      ∃ r : Round _, r.Builds entriesHash ledger ledger' ∧ r.GoesWith ledger :=
    .cons_cons ⟨_, hb, hg⟩ (.singleton _)
  exact ⟨hb, closeTimes_increase _ hca⟩

/-- A second after the parent's close time is rounded back to it. -/
theorem ourRound_stands_still : (ourRound 61 []).Builds entriesHash sampleClosed (closedAt 60) ∧
      ¬ sampleClosed.closeTime < (closedAt 60).closeTime :=
  ⟨ourRound_builds rfl, by decide⟩

end LedgerConsensus

end Sand
