import Sand.Consensus.DisputedTx
import Sand.Library.OrderedMap
import Sand.State.Views

/-!
# A consensus round

The state of a round and the handlers of what may happen in it.
-/

namespace Sand

/-! ## Times -/

def ledgerMinConsensus : Int := 2000
def proposeFreshness : Int := 20
def proposeInterval : Int := 12
def avCtConsensusPct : Int := 75
def minimumConsensusPercentage : Int := 80
def ledgerPossibleTimeResolutions : List UInt32 := [10, 20, 30, 60, 90, 120]
def increaseLedgerTimeResolutionEvery : UInt32 := 8
def decreaseLedgerTimeResolutionEvery : UInt32 := 1

/-- A time of the steady clock, in nanoseconds. -/
abbrev TimePoint := Int

def seconds (n : Int) : Int := n * 1000000000

/-- Coarser where there was no agreement on the last close time, now and then finer where there
was. -/
def getNextLedgerTimeResolution (previousResolution : UInt32) (previousAgree : Bool)
    (ledgerSeq : UInt32) : UInt32 :=
  match ledgerPossibleTimeResolutions.idxOf? previousResolution with
  | none => previousResolution
  | some i =>
    if !previousAgree && ledgerSeq % decreaseLedgerTimeResolutionEvery == 0 then
      ledgerPossibleTimeResolutions.getD (i + 1) previousResolution
    else if previousAgree && ledgerSeq % increaseLedgerTimeResolutionEvery == 0 && i != 0 then
      ledgerPossibleTimeResolutions.getD (i - 1) previousResolution
    else previousResolution

def roundCloseTime (closeTime closeResolution : UInt32) : UInt32 :=
  if closeTime = 0 then 0
  else
    let closeTime := closeTime + closeResolution / 2
    closeTime - closeTime % closeResolution

def participantsNeeded (participants percent : Int) : Int :=
  let result := (participants * percent + percent.tdiv 2).tdiv 100
  if result = 0 then 1 else result

def checkConsensusReached (agreeing proposing : Int) : Bool :=
  (agreeing * 100).tdiv (proposing + 1) > minimumConsensusPercentage

inductive ConsensusState where
  | no
  | movedOn
  | yes
  deriving DecidableEq

def checkConsensus (previousProposers currentProposers currentAgree currentFinished
    previousAgreeTime currentAgreeTime : Int) : ConsensusState :=
  if currentAgreeTime ≤ ledgerMinConsensus then .no
  else if currentProposers < (previousProposers * 3).tdiv 4 ∧
      currentAgreeTime < previousAgreeTime + ledgerMinConsensus then .no
  else if checkConsensusReached (currentAgree + 1) currentProposers then .yes
  else if checkConsensusReached currentFinished currentProposers then .movedOn
  else .no

/-! ## Transaction sets -/

abbrev TxSet := OrderedMap UInt256 Blob

namespace TxSet

def hasItem (set : TxSet) (id : UInt256) : Bool :=
  (set.find id).isSome

def delta (m1 m2 : TxSet) : List (UInt256 × Option Blob × Option Blob) :=
  (m1.entries.filter fun item => m2.find item.1 ≠ some item.2).map
      (fun item => (item.1, some item.2, m2.find item.1)) ++
    (m2.entries.filter fun item => !m1.hasItem item.1).map fun item => (item.1, none, some item.2)

/-- Lists differences, and tells whether it stayed below the limit. -/
def compare (m1 m2 : TxSet) (maxCount : Nat) :
    Bool × List (UInt256 × Option Blob × Option Blob) :=
  ((m1.delta m2).length < maxCount, (m1.delta m2).take maxCount)

end TxSet

/-! ## Proposals -/

def seqJoin : UInt32 := 0
def seqLeave : UInt32 := 0xffffffff

/-- A node's position: the set with hash `currentHash`. -/
structure LedgerProposal (Hash : Type) where
  previousLedger : UInt256
  currentHash : Hash
  closeTime : UInt32
  proposeSeq : UInt32
  peerID : NodeID
  time : TimePoint

namespace LedgerProposal

variable {Hash : Type} (p : LedgerProposal Hash)

def isPrevLedger (ledger : UInt256) : Bool :=
  p.previousLedger == ledger

def isInitial : Bool :=
  p.proposeSeq == seqJoin

def isBowOut : Bool :=
  p.proposeSeq == seqLeave

def isStale (cutoff : TimePoint) : Bool :=
  p.time ≤ cutoff

/-- A new position, unless the node has bowed out. -/
def changePosition (newPosition : Hash) (newCloseTime : UInt32)
    (now : TimePoint) : Option (LedgerProposal Hash) :=
  if p.proposeSeq = seqLeave then none
  else
    some { p with
      currentHash := newPosition
      closeTime := newCloseTime
      time := now
      proposeSeq := p.proposeSeq + 1 }

def bowOut (now : TimePoint) : LedgerProposal Hash :=
  { p with time := now, proposeSeq := seqLeave }

end LedgerProposal

structure LastClosed where
  hash : UInt256
  seq : UInt32
  closeTime : UInt32
  closeTimeResolution : UInt32
  closeAgree : Bool

/-! ## The state of a round -/

structure LedgerConsensus (Hash : Type) where
  ourPosition : Option (LedgerProposal Hash) := none
  peerPositions : AList fun _ : NodeID => LedgerProposal Hash := ∅
  /-- Sets by hash; `none` could not be acquired. -/
  acquired : AList fun _ : Hash => Option TxSet := ∅
  disputes : AList fun _ : UInt256 => DisputedTx := ∅
  /-- Hashes of the sets compared with our position. -/
  compares : List Hash := []
  deadNodes : List NodeID := []
  closeTimes : AList fun _ : UInt32 => Int := ∅
  proposing : Bool
  haveCorrectLCL : Bool
  haveCloseTimeConsensus : Bool := false
  consensusFail : Bool := false
  closeTime : UInt32
  closeResolution : UInt32
  closePercent : Int := 0
  currentMSeconds : Int := 0
  previousMSeconds : Int
  previousProposers : Int
  prevLedgerHash : UInt256
  previousLedger : LastClosed
  acquiringLedger : UInt256 := 0
  /-- The ID under which we propose. -/
  nodeID : NodeID
  /-- Not in the source: no comparison has reached its limit. -/
  comparedAll : Bool := true

namespace LedgerConsensus

/-- Close times are ordered as numbers. -/
scoped instance : LinearOrder UInt32 where
  le_refl _ := UInt32.le_refl _
  le_trans _ _ _ := UInt32.le_trans
  le_antisymm _ _ := UInt32.le_antisymm
  le_total := UInt32.le_total
  lt_iff_le_not_ge a b := by
    rw [UInt32.lt_iff_toNat_lt, UInt32.le_iff_toNat_le, UInt32.le_iff_toNat_le]
    omega
  toDecidableLE := inferInstance
  toDecidableEq := inferInstance
  toDecidableLT := inferInstance

variable {Hash : Type} [DecidableEq Hash] (getHash : TxSet → Hash)

def mapDisputes (f : UInt256 → DisputedTx → DisputedTx) (s : LedgerConsensus Hash) :
    LedgerConsensus Hash :=
  { s with disputes := FiniteMap.filterMap s.disputes fun id d => some (f id d) }

variable (s : LedgerConsensus Hash)

def acquiredSet (hash : Hash) : Option TxSet :=
  (s.acquired.lookup hash).join

/-! ## Disputes -/

def newVote (txID : UInt256) : Option Bool :=
  match s.ourPosition with
  | none => some false
  | some position => (s.acquiredSet position.currentHash).map (TxSet.hasItem · txID)

/-- With the votes of all peers whose set we have. -/
def newDispute (txID : UInt256) (tx : Blob) (ourVote : Bool) :
    DisputedTx :=
  s.peerPositions.entries.foldl (fun d peer =>
      match s.acquiredSet peer.2.currentHash with
      | some set => d.setVote peer.1 (TxSet.hasItem set txID)
      | none => d)
    { transactionID := txID, transaction := tx, ourVote }

def addDisputedTransaction (txID : UInt256) (tx : Blob) (s : LedgerConsensus Hash) :
    Option (LedgerConsensus Hash) :=
  if txID ∈ s.disputes then some s
  else do
    let ourVote ← s.newVote txID
    some { s with disputes := s.disputes.insert txID (s.newDispute txID tx ourVote) }

/-- About a transaction that only one of two sets has. -/
def disputeDifference :
    UInt256 × Option Blob × Option Blob → Option (LedgerConsensus Hash)
  | (id, some tx, _) => s.addDisputedTransaction id tx
  | (id, none, some tx) => s.addDisputedTransaction id tx
  | (_, none, none) => none

def differenceLimit : Nat := 16384

/-- About every transaction in which two sets differ. -/
def createDisputes (m1 m2 : TxSet) (s : LedgerConsensus Hash) : Option (LedgerConsensus Hash) :=
  if getHash m1 = getHash m2 then some s
  else
    let (complete, differences) := TxSet.compare m1 m2 differenceLimit
    differences.foldlM disputeDifference { s with comparedAll := s.comparedAll && complete }

def adjustCount (map : TxSet) (peers : List NodeID) (s : LedgerConsensus Hash) :
    LedgerConsensus Hash :=
  s.mapDisputes fun _ d =>
    peers.foldl (fun d peer => d.setVote peer (TxSet.hasItem map d.transactionID)) d

def compareWithOurs (hash : Hash) (map : TxSet) (s : LedgerConsensus Hash) :
    Option (LedgerConsensus Hash) :=
  match s.ourPosition with
  | none => some s
  | some position =>
    if position.isBowOut ∨ hash = position.currentHash then some s
    else do
      let ours ← s.acquiredSet position.currentHash
      createDisputes getHash ours map { s with compares := hash :: s.compares }

/-- A set has been acquired, or is invalid. -/
def mapCompleteInternal (hash : Hash) (map : Option TxSet) (s : LedgerConsensus Hash) :
    Option (LedgerConsensus Hash) :=
  match map with
  | none => some { s with acquired := s.acquired.insert hash none }
  | some map =>
    if hash ≠ getHash map then none
    else if (s.acquiredSet hash).isSome then some s
    else do
      let s ← compareWithOurs getHash hash map { s with acquired := s.acquired.erase hash }
      let s := { s with acquired := s.acquired.insert hash (some map) }
      let peers := s.peerPositions.entries.filter fun peer => peer.2.currentHash = hash
      some (s.adjustCount map (peers.map fun peer => peer.2.peerID))

/-! ## Peers -/

variable (inbound : List TxSet)

/-- A set we have, or one we find and keep. -/
def getTransactionTree (hash : Hash) (s : LedgerConsensus Hash) :
    LedgerConsensus Hash × Option TxSet :=
  match s.acquiredSet hash with
  | some set => (s, some set)
  | none =>
    match inbound.find? fun set => getHash set = hash with
    | some set => ({ s with acquired := s.acquired.insert hash (some set) }, some set)
    | none => (s, none)

/-- A peer's position is at least as new as a proposal. -/
def isOld (newPosition : LedgerProposal Hash) : Bool :=
  match s.peerPositions.lookup newPosition.peerID with
  | some current => newPosition.proposeSeq ≤ current.proposeSeq
  | none => false

def recordPosition (newPosition : LedgerProposal Hash) (s : LedgerConsensus Hash) :
    LedgerConsensus Hash :=
  let time := newPosition.closeTime
  { s with
    closeTimes :=
      if newPosition.isInitial then
        s.closeTimes.insert time ((s.closeTimes.lookup time).getD 0 + 1)
      else s.closeTimes
    peerPositions := s.peerPositions.insert newPosition.peerID newPosition }

/-- The votes of a listed peer, if we have its set. -/
def votePosition (newPosition : LedgerProposal Hash)
    (s : LedgerConsensus Hash) : LedgerConsensus Hash :=
  match s.getTransactionTree getHash inbound newPosition.currentHash with
  | (s, some set) => s.mapDisputes fun id d => d.setVote newPosition.peerID (TxSet.hasItem set id)
  | (s, none) => s

/-- A peer gives up its position for the rest of the round. -/
def bowOutPeer (peerID : NodeID) (s : LedgerConsensus Hash) : LedgerConsensus Hash :=
  { s.mapDisputes fun _ d => d.unVote peerID with
    peerPositions := s.peerPositions.erase peerID
    deadNodes := peerID :: s.deadNodes }

def peerPosition (newPosition : LedgerProposal Hash)
    (s : LedgerConsensus Hash) : Bool × LedgerConsensus Hash :=
  if newPosition.peerID ∈ s.deadNodes then (false, s)
  else if s.isOld newPosition then (false, s)
  else if newPosition.isBowOut then (true, s.bowOutPeer newPosition.peerID)
  else (true, (s.recordPosition newPosition).votePosition getHash inbound newPosition)

/-- Takes stored proposals that work from our ledger. -/
def playbackProposals (stored : List (LedgerProposal Hash))
    (s : LedgerConsensus Hash) : LedgerConsensus Hash :=
  stored.foldl (fun s proposal =>
      if proposal.isPrevLedger s.prevLedgerHash then (s.peerPosition getHash inbound proposal).2
      else s) s

/-! ## Our position -/

/-- One peer of the loop of `haveConsensus`. -/
def countPeer (ours : Hash) : Int × Int × LedgerConsensus Hash → LedgerProposal Hash →
    Option (Int × Int × LedgerConsensus Hash)
  | (agree, disagree, s), peer =>
    if peer.isBowOut then some (agree, disagree, s)
    else if peer.currentHash = ours then some (agree + 1, disagree, s)
    else if peer.currentHash ∈ s.compares then some (agree, disagree + 1, s)
    else
      match s.acquiredSet peer.currentHash, s.acquiredSet ours with
      | some theirs, some ourSet => do
        let s ← createDisputes getHash ourSet theirs
          { s with compares := peer.currentHash :: s.compares }
        some (agree, disagree + 1, s)
      | _, _ => some (agree, disagree + 1, s)

def haveConsensus (currentValidations : Int) (s : LedgerConsensus Hash) :
    Option (Bool × LedgerConsensus Hash) := do
  let position ← s.ourPosition
  let (agree, disagree, s) ← (s.peerPositions.entries.map (·.2)).foldlM
    (countPeer getHash position.currentHash) (0, 0, s)
  match checkConsensus s.previousProposers (agree + disagree) agree currentValidations
      s.previousMSeconds s.currentMSeconds with
  | .no => some (false, s)
  | .movedOn => some (true, { s with consensusFail := true })
  | .yes => some (true, { s with consensusFail := false })

/-- One peer of `takeInitialPosition`'s loop. -/
def contrastPeer (initialSet : TxSet) : List Hash × LedgerConsensus Hash → LedgerProposal Hash →
    Option (List Hash × LedgerConsensus Hash)
  | (found, s), peer =>
    if peer.currentHash ∈ found then some (found, s)
    else
      match s.acquired.lookup peer.currentHash with
      | none => some (peer.currentHash :: found, s)
      | some none => none
      | some (some set) => do
        let s ← createDisputes getHash initialSet set
          { s with compares := getHash set :: s.compares }
        some (peer.currentHash :: found, s)

/-- Open transactions and, after a flag ledger, pseudo-transactions. -/
def initialSet (standalone : Bool) (txMap : TxSet) (pseudo : List (UInt256 × Blob))
    (s : LedgerConsensus Hash) : TxSet :=
  if (standalone || s.proposing && s.haveCorrectLCL) && s.previousLedger.seq % 256 == 0 then
    pseudo.foldl (fun set item => set.insertNew item.1 item.2) txMap
  else txMap

/-- We propose what the ledger we close has. -/
def takeInitialPosition (standalone : Bool) (txMap : TxSet) (parentHash : UInt256)
    (pseudo : List (UInt256 × Blob)) (now : TimePoint) (s : LedgerConsensus Hash) :
    Option (LedgerConsensus Hash) := do
  let set := s.initialSet standalone txMap pseudo
  let txSet := getHash set
  let s ← mapCompleteInternal getHash txSet (some set) s
  let ourPosition : LedgerProposal Hash :=
    { previousLedger := parentHash, currentHash := txSet, closeTime := s.closeTime
      proposeSeq := seqJoin, peerID := s.nodeID, time := now }
  let s := { s with ourPosition := some ourPosition }
  let s := s.mapDisputes fun id d => { d with ourVote := txMap.hasItem id }
  let (_, s) ← (s.peerPositions.entries.map (·.2)).foldlM (contrastPeer getHash set) ([], s)
  some s

def countCloseTime (closeTimes : OrderedMap UInt32 Int) (closeTime : UInt32) :
    OrderedMap UInt32 Int :=
  closeTimes.insert closeTime ((closeTimes.find closeTime).getD 0 + 1)

variable (peerCutoff : TimePoint)

/-- One peer of the first loop of `updateOurPositions`. -/
def checkFresh :
    LedgerConsensus Hash × OrderedMap UInt32 Int → (_ : NodeID) × LedgerProposal Hash →
      LedgerConsensus Hash × OrderedMap UInt32 Int
  | (s, closeTimes), ⟨peer, position⟩ =>
    if position.isStale peerCutoff then
      ({ s.mapDisputes fun _ d => d.unVote position.peerID with
          peerPositions := s.peerPositions.erase peer }, closeTimes)
    else (s, countCloseTime closeTimes (roundCloseTime position.closeTime s.closeResolution))

/-- Drops stale positions and counts the others' close times. -/
def removeStale (s : LedgerConsensus Hash) :
    LedgerConsensus Hash × OrderedMap UInt32 Int :=
  s.peerPositions.entries.foldl (checkFresh peerCutoff) (s, .empty)

/-- The close time most are for, and whether that is a consensus. -/
def closeTimeConsensus (position : LedgerProposal Hash) (closeTimes : OrderedMap UInt32 Int)
    (s : LedgerConsensus Hash) : UInt32 × Bool :=
  let ours := roundCloseTime position.closeTime s.closeResolution
  if s.peerPositions.entries.isEmpty then (ours, true)
  else
    let closeTimes := if s.proposing then countCloseTime closeTimes ours else closeTimes
    let participants := s.peerPositions.entries.length + if s.proposing then 1 else 0
    let threshVote := participantsNeeded participants (neededWeight s.closePercent)
    let threshConsensus := participantsNeeded participants avCtConsensusPct
    let (closeTime, _, reached) := closeTimes.entries.foldl
      (fun (closeTime, threshVote, reached) (time, count) =>
        if count ≥ threshVote then (time, count, reached || count ≥ threshConsensus)
        else (closeTime, threshVote, reached))
      ((0 : UInt32), threshVote, false)
    if !reached && (closeTimes.find 0).getD 0 > threshConsensus then (0, true)
    else (closeTime, reached)

def voteUpdate (d : DisputedTx) : Bool × DisputedTx :=
  d.updateVote s.closePercent s.proposing

/-- Adds or removes a transaction if our vote on it changes. -/
def moveItem (set : TxSet) (dispute : (_ : UInt256) × DisputedTx) :
    TxSet :=
  match s.voteUpdate dispute.2 with
  | (true, d) => if d.ourVote then set.insertNew dispute.1 d.transaction else set.erase dispute.1
  | (false, _) => set

def movedSet (ours : TxSet) (s : LedgerConsensus Hash) : TxSet :=
  s.disputes.entries.foldl s.moveItem ours

def changes : Bool :=
  s.disputes.entries.any fun dispute => (s.voteUpdate dispute.2).1

def moveVotes (reached : Bool) (s : LedgerConsensus Hash) : LedgerConsensus Hash :=
  { s with
    disputes := (s.mapDisputes fun _ d => (s.voteUpdate d).2).disputes
    haveCloseTimeConsensus := reached }

/-- Follows the peers' votes, and keeps our position fresh. -/
def updateOurPositions (now : TimePoint) (s : LedgerConsensus Hash) :
    Option (LedgerConsensus Hash) := do
  let (s, closeTimes) := s.removeStale (now - seconds proposeFreshness)
  let position ← s.ourPosition
  let (closeTime, reached) := s.closeTimeConsensus position closeTimes
  if s.changes || closeTime != roundCloseTime position.closeTime s.closeResolution ||
      position.isStale (now - seconds proposeInterval) then
    let ours ← s.acquiredSet position.currentHash
    let set := s.movedSet ours
    match position.changePosition (getHash set) closeTime now with
    | none => some (s.moveVotes reached)
    | some position =>
      mapCompleteInternal getHash (getHash set) (some set)
        { s.moveVotes reached with ourPosition := some position }
  else some (s.moveVotes reached)

/-! ## The last closed ledger -/

variable (lclHash : UInt256)

/-- We stop to propose and forget positions and disputes. -/
def switchLCL (now : TimePoint) (s : LedgerConsensus Hash) :
    LedgerConsensus Hash :=
  { s with
    prevLedgerHash := lclHash
    ourPosition :=
      if s.haveCorrectLCL && s.proposing then s.ourPosition.map (·.bowOut now) else s.ourPosition
    proposing := false
    peerPositions := ∅
    disputes := ∅
    closeTimes := ∅
    deadNodes := [] }

/-- Works from the ledger, or asks for it. -/
def acquireLCL (newLCL : Option LastClosed) (s : LedgerConsensus Hash) :
    LedgerConsensus Hash :=
  if s.previousLedger.hash = s.prevLedgerHash then s
  else
    match newLCL with
    | none =>
      if s.acquiringLedger ≠ lclHash then
        { s with acquiringLedger := s.prevLedgerHash, haveCorrectLCL := false }
      else s
    | some ledger =>
      { s with
        previousLedger := ledger
        prevLedgerHash := lclHash
        haveCorrectLCL := true
        closeResolution := getNextLedgerTimeResolution ledger.closeTimeResolution
          ledger.closeAgree (ledger.seq + 1) }

/-- The network works from another ledger, which we may have. -/
def handleLCL (newLCL : Option LastClosed) (inbound : List TxSet)
    (stored : List (LedgerProposal Hash)) (now : TimePoint) (s : LedgerConsensus Hash) :
    LedgerConsensus Hash :=
  if s.prevLedgerHash ≠ lclHash then
    (playbackProposals getHash inbound stored (s.switchLCL lclHash now)).acquireLCL lclHash newLCL
  else s.acquireLCL lclHash newLCL

def leaveConsensus (now : TimePoint) (s : LedgerConsensus Hash) : LedgerConsensus Hash :=
  if s.proposing then
    { s with
      ourPosition := s.ourPosition.map fun position =>
        if position.isBowOut then position else position.bowOut now
      proposing := false }
  else s

def create (prevLCLHash : UInt256) (previousLedger : LastClosed) (closeTime : UInt32)
    (previousProposers previousConvergeTime : Int) (nodeID : NodeID) (proposing : Bool)
    (newLCL : Option LastClosed) (inbound : List TxSet) (stored : List (LedgerProposal Hash))
    (now : TimePoint) : LedgerConsensus Hash :=
  let s : LedgerConsensus Hash :=
    { proposing, nodeID, previousLedger, closeTime, previousProposers
      haveCorrectLCL := previousLedger.hash == prevLCLHash
      closeResolution := getNextLedgerTimeResolution previousLedger.closeTimeResolution
        previousLedger.closeAgree (previousLedger.seq + 1)
      previousMSeconds := previousConvergeTime
      prevLedgerHash := prevLCLHash }
  if s.haveCorrectLCL then s else s.handleLCL getHash prevLCLHash newLCL inbound stored now

/-! ## Events -/

inductive Event (Hash : Type) where
  | timer (currentMSeconds : Int)
  | mapComplete (hash : Hash) (map : Option TxSet)
  | peerPosition (inbound : List TxSet) (newPosition : LedgerProposal Hash)
  | takeInitialPosition (standalone : Bool) (txMap : TxSet) (parentHash : UInt256)
      (pseudo : List (UInt256 × Blob)) (now : TimePoint)
  | updateOurPositions (now : TimePoint)
  | haveConsensus (currentValidations : Int)
  | handleLCL (lclHash : UInt256) (newLCL : Option LastClosed) (inbound : List TxSet)
      (stored : List (LedgerProposal Hash)) (now : TimePoint)
  | leaveConsensus (now : TimePoint)

def handle : Event Hash → Option (LedgerConsensus Hash)
  | .timer currentMSeconds =>
    some { s with
      currentMSeconds
      closePercent := (currentMSeconds * 100).tdiv s.previousMSeconds }
  | .mapComplete hash map => s.mapCompleteInternal getHash hash map
  | .peerPosition inbound newPosition => some (s.peerPosition getHash inbound newPosition).2
  | .takeInitialPosition standalone txMap parentHash pseudo now =>
    s.takeInitialPosition getHash standalone txMap parentHash pseudo now
  | .updateOurPositions now => s.updateOurPositions getHash now
  | .haveConsensus currentValidations =>
    (s.haveConsensus getHash currentValidations).map Prod.snd
  | .handleLCL lclHash newLCL inbound stored now =>
    some (s.handleLCL getHash lclHash newLCL inbound stored now)
  | .leaveConsensus now => some (s.leaveConsensus now)

def Takes (e : Event Hash) (s s' : LedgerConsensus Hash) : Prop :=
  s.handle getHash e = some s'

/-! ## Rounds -/

/-- A round's start, its events and its last hash. -/
structure Round (Hash : Type) where
  prevLCLHash : UInt256
  previousLedger : LastClosed
  closeTime : UInt32
  previousProposers : Int
  previousConvergeTime : Int
  nodeID : NodeID
  proposing : Bool
  newLCL : Option LastClosed
  inbound : List TxSet
  stored : List (LedgerProposal Hash)
  now : TimePoint
  events : List (Event Hash)
  hash : UInt256

def Round.start (r : Round Hash) : LedgerConsensus Hash :=
  create getHash r.prevLCLHash r.previousLedger r.closeTime r.previousProposers
    r.previousConvergeTime r.nodeID r.proposing r.newLCL r.inbound r.stored r.now

end LedgerConsensus

end Sand
