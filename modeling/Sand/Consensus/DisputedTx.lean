import Sand.Library.FiniteMap
import Sand.Protocol.Types

/-!
# Disputed transactions

Our own vote, the votes of the peers, and running counts of these.
-/

namespace Sand

open FiniteMap

abbrev NodeID := BitVec 160

/-! ## Avalanche -/

def avInitConsensusPct : Int := 50
def avMidConsensusTime : Int := 50
def avMidConsensusPct : Int := 65
def avLateConsensusTime : Int := 85
def avLateConsensusPct : Int := 70
def avStuckConsensusTime : Int := 200
def avStuckConsensusPct : Int := 95

def neededWeight (percentTime : Int) : Int :=
  if percentTime < avMidConsensusTime then avInitConsensusPct
  else if percentTime < avLateConsensusTime then avMidConsensusPct
  else if percentTime < avStuckConsensusTime then avLateConsensusPct
  else avStuckConsensusPct

structure DisputedTx where
  transactionID : UInt256
  transaction : Blob
  ourVote : Bool
  yays : Int := 0
  nays : Int := 0
  votes : AList fun _ : NodeID => Bool := ∅

namespace DisputedTx

def setVote (d : DisputedTx) (peer : NodeID) (votesYes : Bool) : DisputedTx :=
  match d.votes.lookup peer with
  | none =>
    let votes := d.votes.insert peer votesYes
    if votesYes then { d with votes, yays := d.yays + 1 }
    else { d with votes, nays := d.nays + 1 }
  | some vote =>
    if votesYes && !vote then
      { d with nays := d.nays - 1, yays := d.yays + 1, votes := d.votes.insert peer true }
    else if !votesYes && vote then
      { d with nays := d.nays + 1, yays := d.yays - 1, votes := d.votes.insert peer false }
    else d

def unVote (d : DisputedTx) (peer : NodeID) : DisputedTx :=
  match d.votes.lookup peer with
  | none => d
  | some vote =>
    let votes := d.votes.erase peer
    if vote then { d with yays := d.yays - 1, votes } else { d with nays := d.nays - 1, votes }

/-- With full weight for ourselves while we propose, else as the peers do. -/
def newPosition (d : DisputedTx) (percentTime : Int) (proposing : Bool) : Bool :=
  if proposing then
    let weight := (d.yays * 100 + if d.ourVote then 100 else 0).tdiv (d.nays + d.yays + 1)
    weight > neededWeight percentTime
  else d.yays > d.nays

def updateVote (d : DisputedTx) (percentTime : Int) (proposing : Bool) : Bool × DisputedTx :=
  if d.ourVote && d.nays == 0 then (false, d)
  else if !d.ourVote && d.yays == 0 then (false, d)
  else if d.newPosition percentTime proposing = d.ourVote then (false, d)
  else (true, { d with ourVote := d.newPosition percentTime proposing })

/-! ## Counts -/

def count (votes : AList fun _ : NodeID => Bool) (vote : Bool) : Nat :=
  votes.entries.countP fun entry => entry.2 = vote

structure Counted (d : DisputedTx) : Prop where
  yays : d.yays = count d.votes true
  nays : d.nays = count d.votes false

def one (vote : Bool) : NodeID → Bool → Int :=
  fun _ v => if v = vote then 1 else 0

section

variable (votes : AList fun _ : NodeID => Bool)
include votes

theorem total_eq_count (vote : Bool) : total (one vote) votes = count votes vote := by
  unfold total count
  induction votes.entries with
  | nil => rfl
  | cons entry rest ih =>
    rw [List.map_cons, List.sum_cons, ih, List.countP_cons]
    by_cases h : entry.2 = vote
    · simp [one, h, Int.add_comm]
    · simp [one, h]

theorem count_insert (peer : NodeID) (v vote : Bool) : (count (votes.insert peer v) vote : Int) =
      count votes vote - (votes.lookup peer).elim 0 (one vote peer) + one vote peer v := by
  rw [← total_eq_count, ← total_eq_count, total_insert]
  rfl

theorem count_erase (peer : NodeID) (vote : Bool) : (count (votes.erase peer) vote : Int) =
      count votes vote - (votes.lookup peer).elim 0 (one vote peer) := by
  rw [← total_eq_count, ← total_eq_count, total_erase]
  rfl

end

variable {d : DisputedTx}

theorem Counted.setVote (h : d.Counted) (peer : NodeID) (vy : Bool) :
    (d.setVote peer vy).Counted := by
  obtain ⟨hy, hn⟩ := h
  have hc := count_insert d.votes peer vy
  unfold DisputedTx.setVote
  cases hv : d.votes.lookup peer with
  | none =>
    simp only [hv, Option.elim_none] at hc
    cases vy with
    | true | false => constructor <;> simp [hc, one, hy, hn]
  | some vote =>
    simp only [hv, Option.elim_some] at hc
    cases vy <;> cases vote
    case true.true | false.false => exact ⟨hy, hn⟩
    all_goals constructor <;> simp [hc, one, hy, hn]

theorem Counted.unVote (h : d.Counted) (peer : NodeID) : (d.unVote peer).Counted := by
  obtain ⟨hy, hn⟩ := h
  have hc := count_erase d.votes peer
  unfold DisputedTx.unVote
  cases hv : d.votes.lookup peer with
  | none => exact ⟨hy, hn⟩
  | some vote =>
    simp only [hv, Option.elim_some] at hc
    cases vote with
    | true | false => constructor <;> simp [hc, one, hy, hn]

/-! ## Voters -/

variable {peer peer' : NodeID}

theorem mem_votes_setVote {vy : Bool} :
    peer' ∈ (d.setVote peer vy).votes ↔ peer' = peer ∨ peer' ∈ d.votes := by
  unfold setVote
  cases hv : d.votes.lookup peer with
  | none => cases vy <;> simp [AList.mem_insert]
  | some vote =>
    have hm : peer ∈ d.votes := AList.lookup_isSome.mp (by simp [hv])
    have hs : peer' = peer ∨ peer' ∈ d.votes ↔ peer' ∈ d.votes :=
      ⟨fun h => h.elim (fun heq => heq ▸ hm) id, .inr⟩
    cases vy <;> cases vote <;> simp [AList.mem_insert, hs]

theorem mem_votes_unVote : peer' ∈ (d.unVote peer).votes ↔ peer' ≠ peer ∧ peer' ∈ d.votes := by
  unfold unVote
  cases hv : d.votes.lookup peer with
  | none =>
    have hnt : peer ∉ d.votes := AList.lookup_eq_none.mp hv
    exact ⟨fun h => ⟨fun heq => hnt (heq ▸ h), h⟩, And.right⟩
  | some vote => cases vote <;> simp [AList.mem_erase]

/-- The votes are counted, and those of the given peers. -/
structure CountedAmong (d : DisputedTx) (peers : NodeID → Prop) : Prop where
  counted : d.Counted
  voters : ∀ peer ∈ d.votes, peers peer

section CountedAmong

variable {peers : NodeID → Prop} {votesYes : Bool}

theorem CountedAmong.new (transactionID : UInt256) (transaction : Blob) (ourVote : Bool) :
    CountedAmong { transactionID, transaction, ourVote } peers :=
  ⟨⟨rfl, rfl⟩, nofun⟩

section

variable (h : d.CountedAmong peers)
include h

theorem CountedAmong.setVote (hp : peers peer) : (d.setVote peer votesYes).CountedAmong peers := by
  refine ⟨h.counted.setVote peer votesYes, fun peer' hm => ?_⟩
  rcases mem_votes_setVote.mp hm with rfl | hm
  · exact hp
  · exact h.voters peer' hm

theorem CountedAmong.unVote :
    (d.unVote peer).CountedAmong fun peer' => peer' ≠ peer ∧ peers peer' := by
  refine ⟨h.counted.unVote peer, fun peer' hm => ?_⟩
  obtain ⟨hne, hm⟩ := mem_votes_unVote.mp hm
  exact ⟨hne, h.voters peer' hm⟩

theorem CountedAmong.withOurVote (vote : Bool) : CountedAmong { d with ourVote := vote } peers :=
  ⟨⟨h.counted.yays, h.counted.nays⟩, h.voters⟩

theorem CountedAmong.imp {peers' : NodeID → Prop}
    (hi : ∀ peer, peers peer → peers' peer) : d.CountedAmong peers' :=
  ⟨h.counted, fun peer hm => hi peer (h.voters peer hm)⟩

end

end CountedAmong

@[simp]
theorem ourVote_setVote (d : DisputedTx) (peer : NodeID) (vy : Bool) :
    (d.setVote peer vy).ourVote = d.ourVote := by
  unfold setVote
  repeat' split
  all_goals rfl

@[simp]
theorem ourVote_unVote (d : DisputedTx) (peer : NodeID) : (d.unVote peer).ourVote = d.ourVote := by
  unfold unVote
  repeat' split
  all_goals rfl

theorem updateVote_cases (d : DisputedTx) (pt : Int) (ppg : Bool) :
    d.updateVote pt ppg = (false, d) ∨
      d.updateVote pt ppg = (true, { d with ourVote := !d.ourVote }) := by
  unfold updateVote
  split_ifs with hye hno hsa
  · exact .inl rfl
  · exact .inl rfl
  · exact .inl rfl
  · right
    rw [Bool.eq_not.mpr hsa]

end DisputedTx

end Sand
