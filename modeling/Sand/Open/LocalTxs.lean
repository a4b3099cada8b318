import Sand.Open.Advance
import Sand.Open.Appliers

/-!
# Local transactions

What clients submitted is applied to every new open ledger until it is settled or expires.
-/

namespace Sand

open List

structure LocalTx where
  txn : STTx
  expire : UInt32

namespace LocalTx

def holdLedgers : UInt32 := 5

/-- The constructor: all of it is computed in 32 bits. -/
def new (index : UInt32) (txn : STTx) : LocalTx where
  txn := txn
  expire := match txn.lastLedgerSequence with
    | none => index + holdLedgers
    | some last => if last + 1 < index + holdLedgers then last + 1 else index + holdLedgers

def isExpired (tx : LocalTx) (i : UInt32) : Bool := decide (tx.expire < i)

def canRemove (tx : LocalTx) (ledger : ClosedLedger) : Bool :=
  if tx.isExpired ledger.seq then true
  else if tx.txn.transactionID ∈ ledger.txs then true
  else (ledger.ledger.lookup (Key.account tx.txn.account)).any fun sle =>
    decide (tx.txn.sequence < AccountRoot.sequence sle)

end LocalTx

namespace LocalTxs

open CanonicalTXSet OpenLedger

inductive Call where
  | pushBack (index : UInt32) (txn : STTx)
  | sweep (validLedger : ClosedLedger)

def call (txns : List LocalTx) : Call → List LocalTx
  | .pushBack index txn => txns ++ [.new index txn]
  | .sweep validLedger => txns.filter fun tx => !tx.canRemove validLedger

def run (calls : List Call) : List LocalTx := calls.foldl call []

def getTxSet (txns : List LocalTx) : CanonicalTXSet :=
  (txns.map LocalTx.txn).foldl CanonicalTXSet.insert ⟨0, []⟩

/-- The ledger has it, its account is past it, or its last ledger is over. -/
def Settles (ledger : ClosedLedger) (index : UInt32) (txn : STTx) : Prop :=
  txn.transactionID ∈ ledger.txs ∨ (∃ root ∈ ledger.ledger.lookup (Key.account txn.account),
      txn.sequence < AccountRoot.sequence root) ∨
    (index.toNat + 5 < ledger.seq.toNat ∨
      ∃ last ∈ txn.lastLedgerSequence, last.toNat + 1 < ledger.seq.toNat)

/-- It was pushed, and no later sweep removes it. -/
def Held (removes : ClosedLedger → UInt32 → STTx → Prop) (calls : List Call) (index : UInt32)
    (txn : STTx) : Prop :=
  ∃ before after, calls = before ++ .pushBack index txn :: after ∧
    ∀ ledger, .sweep ledger ∈ after → ¬ removes ledger index txn

/-- The set has what no sweep has settled since. -/
def Kept (calls : List Call) : Prop :=
  ∀ id, id ∈ (getTxSet (run calls)).txs.map STTx.transactionID ↔
    ∃ index txn, txn.transactionID = id ∧ Held Settles calls index txn

variable {calls : List Call} {index : UInt32} {txn : STTx} {id : UInt256}

theorem canRemove_new (hi : index.toNat ≤ 2 ^ 32 - 6)
    (hla : txn.lastLedgerSequence ≠ some 4294967295) (led : ClosedLedger) :
    (LocalTx.new index txn).canRemove led ↔ Settles led index txn := by
  have he : (LocalTx.new index txn).isExpired led.seq ↔ (index.toNat + 5 < led.seq.toNat ∨
        ∃ last ∈ txn.lastLedgerSequence, last.toNat + 1 < led.seq.toNat) := by
    have hho : (index + LocalTx.holdLedgers).toNat = index.toNat + 5 := by
      rw [UInt32.toNat_add]
      exact Nat.mod_eq_of_lt (by rw [show LocalTx.holdLedgers.toNat = 5 from rfl]; omega)
    cases hl : txn.lastLedgerSequence with
    | none => simp [LocalTx.isExpired, LocalTx.new, hl, UInt32.lt_iff_toNat_lt, hho]
    | some last =>
      have hn : (last + 1).toNat = last.toNat + 1 :=
        Transactor.toNat_succ_iff.mpr fun h => hla (hl.trans (congrArg some h))
      simp only [LocalTx.isExpired, LocalTx.new, hl, decide_eq_true_eq, UInt32.lt_iff_toNat_lt,
        Option.mem_some_iff, exists_eq_left', hn, hho]
      split_ifs <;> omega
  simp only [LocalTx.canRemove, Settles, ← he, Bool.if_true_left, Bool.or_eq_true,
    decide_eq_true_eq, Option.any_eq_true]
  exact or_rotate

theorem held_cons {removes : ClosedLedger → UInt32 → STTx → Prop} {first : Call}
    {rest : List Call} : Held removes (first :: rest) index txn ↔
      (first = .pushBack index txn ∧ ∀ ledger, .sweep ledger ∈ rest → ¬ removes ledger index txn) ∨
        Held removes rest index txn := by
  constructor
  · rintro ⟨before, after, hc, ha⟩
    obtain ⟨-, heq⟩ | ⟨before, -, rfl⟩ := cons_eq_append_iff.mp hc
    · cases heq
      exact .inl ⟨rfl, ha⟩
    · exact .inr ⟨before, after, rfl, ha⟩
  · rintro (⟨rfl, ha⟩ | ⟨before, after, rfl, ha⟩)
    · exact ⟨[], rest, rfl, ha⟩
    · exact ⟨first :: before, after, rfl, ha⟩

variable {txns : List LocalTx}

theorem mem_foldl_call {tx : LocalTx} : tx ∈ calls.foldl call txns ↔
      (tx ∈ txns ∧ ∀ ledger, .sweep ledger ∈ calls → ¬ tx.canRemove ledger) ∨
      ∃ index txn, tx = .new index txn ∧
        Held (fun ledger index txn => (LocalTx.new index txn).canRemove ledger) calls index txn := by
  induction calls generalizing txns with
  | nil => simp [Held]
  | cons first rest ih =>
    rw [foldl_cons, ih]
    simp only [held_cons]
    cases first with
    | pushBack index txn =>
      simp only [call, mem_append, mem_cons]
      grind
    | sweep ledger =>
      simp only [call, mem_filter, mem_cons]
      grind

theorem mem_place_transactionID {set : CanonicalTXSet} {tx : STTx} {txs : List STTx} :
    id ∈ (insert.place set tx txs).map STTx.transactionID ↔
      tx.transactionID = id ∨ id ∈ txs.map STTx.transactionID := by
  induction txs with
  | nil => simp [insert.place, eq_comm]
  | cons other rest ih =>
    rw [insert.place]
    split_ifs with hb ha
    · simp [eq_comm]
    · rw [map_cons, mem_cons, ih, map_cons, mem_cons, or_left_comm]
    · -- the key is there already, and with it the identifier
      have hid : tx.transactionID = other.transactionID := by
        rw [keyLt_iff] at hb ha
        simp only [key] at hb ha
        exact BitVec.eq_of_toNat_eq (by omega)
      rw [hid, map_cons, mem_cons, eq_comm, or_self_left]

theorem mem_getTxSet : id ∈ (getTxSet txns).txs.map STTx.transactionID ↔
      ∃ tx ∈ txns, tx.txn.transactionID = id := by
  have hf : ∀ (txs : List STTx) (set : CanonicalTXSet),
      id ∈ (txs.foldl insert set).txs.map STTx.transactionID ↔
        (∃ tx ∈ txs, tx.transactionID = id) ∨ id ∈ set.txs.map STTx.transactionID := by
    intro txs
    induction txs with
    | nil => simp
    | cons tx rest ih =>
      intro set
      rw [foldl_cons, ih, CanonicalTXSet.insert, mem_place_transactionID]
      simp [mem_cons, exists_eq_or_imp, or_left_comm, or_assoc]
  simp [getTxSet, hf]

theorem kept_of_lastLedgerSequence
    (h : ∀ index txn, .pushBack index txn ∈ calls → index.toNat ≤ 2 ^ 32 - 6 ∧
      txn.lastLedgerSequence ≠ some 4294967295) : Kept calls := by
  intro id
  have hh : ∀ index txn,
      Held (fun ledger index txn => (LocalTx.new index txn).canRemove ledger) calls index txn ↔
        Held Settles calls index txn := by
    intro index txn
    refine exists_congr fun before => exists_congr fun after => and_congr_right ?_
    rintro rfl
    obtain ⟨hi, hla⟩ := h index txn (by simp)
    simp [canRemove_new hi hla]
  simp only [mem_getTxSet, run, mem_foldl_call, hh, not_mem_nil, false_and, false_or]
  constructor
  · rintro ⟨-, ⟨index, txn, rfl, hh⟩, hid⟩
    exact ⟨index, txn, hid, hh⟩
  · rintro ⟨index, txn, hid, hh⟩
    exact ⟨_, ⟨index, txn, rfl, hh⟩, hid⟩

/-- With the greatest value the addition wraps. -/
theorem not_kept_of_wrap (h : txn.lastLedgerSequence = some 4294967295) :
    ¬ Kept [.pushBack 8 txn, .sweep { sampleClosed with ledger := ∅ }] := by
  intro hk
  obtain ⟨tx, htx, -⟩ := mem_getTxSet.mp ((hk txn.transactionID).mpr
    ⟨8, txn, rfl, [], _, rfl, by simp [Settles, sampleClosed, h]⟩)
  simp [run, call, LocalTx.canRemove, LocalTx.isExpired, LocalTx.new, h, sampleClosed,
    LocalTx.holdLedgers] at htx

/-- Transactions are kept as long as they should be exactly if none has the greatest
`sfLastLedgerSequence`. -/
theorem forall_kept_iff (kind : STTx → Prop) :
    (∀ calls, (∀ index txn, .pushBack index txn ∈ calls → index.toNat ≤ 2 ^ 32 - 6 ∧ kind txn) →
      Kept calls) ↔ ∀ txn, kind txn → txn.lastLedgerSequence ≠ some 4294967295 := by
  constructor
  · intro hk txn hki hla
    refine not_kept_of_wrap hla (hk _ fun index txn' hm => ?_)
    obtain ⟨rfl, rfl⟩ : index = 8 ∧ txn' = txn := by simpa using hm
    exact ⟨by decide, hki⟩
  · intro hla calls hc
    exact kept_of_lastLedgerSequence fun index txn hm =>
      ⟨(hc index txn hm).1, hla txn (hc index txn hm).2⟩

theorem lastLedgerSequence_max_dropped : ∃ txn : STTx, txn.lastLedgerSequence = some 4294967295 ∧
      ¬ Kept [.pushBack 8 txn, .sweep { sampleClosed with ledger := ∅ }] :=
  ⟨{ payerTx 1 300 with lastLedgerSequence := some 4294967295 }, rfl, not_kept_of_wrap rfl⟩

end LocalTxs

end Sand
