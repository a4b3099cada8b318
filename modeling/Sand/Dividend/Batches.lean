import Sand.Dividend.Announcement

/-!
# Sending a dividend in batches

A table holds a transaction for each account that a dividend pays.
-/

namespace Sand

open DividendMaster List

namespace DividendBatch

inductive RowStatus where
  | wait
  | done
  deriving DecidableEq

/-- A column without a value is `none`. -/
structure Row where
  account : Option AccountID
  ledgerSeq : UInt32
  status : RowStatus := .wait
  transaction : Option Blob
  deriving DecidableEq

abbrev Table := List Row

inductive Submission where
  /-- The transaction was submitted and the row updated. -/
  | updated
  /-- A runtime error was caught; the row is as it was. -/
  | caught
  /-- Another exception left the function. -/
  | escaped
  deriving DecidableEq

def waiting (ledgerIndex : UInt32) (table : Table) : Table :=
  table.filter fun row => row.ledgerSeq == ledgerIndex && row.status == .wait

def markDone (ledgerIndex : UInt32) (account : AccountID) (table : Table) : Table :=
  table.map fun row =>
    if row.account = some account ∧ row.ledgerSeq = ledgerIndex then { row with status := .done }
    else row

/-- The first of the rows has number `count`. -/
def sendRows (ledgerIndex : UInt32) (submit : Nat → Submission) :
    List Row → Nat → Table → Except Table (Nat × Table)
  | [], count, table => .ok (count, table)
  | row :: rows, count, table =>
    match row.account, row.transaction with
    | some account, some _ =>
      match submit count with
      | .updated =>
        sendRows ledgerIndex submit rows (count + 1) (markDone ledgerIndex account table)
      | .caught => sendRows ledgerIndex submit rows (count + 1) table
      | .escaped => .error table
    | _, _ => sendRows ledgerIndex submit rows (count + 1) table

structure Invocation where
  hasPrivateKey : Bool
  isNeedNetworkLedger : Bool
  /-- The current ledger's dividend entry, if any. -/
  dividendObj : Option DividendEntry
  submit : Nat → Submission

def Invocation.dividend (i : Invocation) : Option UInt32 :=
  if !i.hasPrivateKey || i.isNeedNetworkLedger then
    none
  else
    match i.dividendObj with
    | none => none
    | some dividendObj =>
      if dividendObj.dividendState ≠ DivType_Start then none
      else some dividendObj.dividendLedger

def roundSize : Nat := 256

/-- The table, and the dividend Done is submitted for. -/
def checkAndRunTxns (i : Invocation) (table : Table) : Table × Option UInt32 :=
  match i.dividend with
  | none => (table, none)
  | some ledgerIndex =>
    match sendRows ledgerIndex i.submit ((waiting ledgerIndex table).take roundSize) 0 table with
    | .error table => (table, none)
    | .ok (count, table) => (table, if count < roundSize then some ledgerIndex else none)

/-- Rows are sent in the phase that their payments are for. -/
theorem dividend_eq_some_iff {i : Invocation} {phase : Phase} {index : UInt32}
    (hstands : phase.Stands i.dividendObj) : i.dividend = some index ↔
      i.hasPrivateKey ∧ !i.isNeedNetworkLedger ∧ phase = .paying index := by
  unfold Invocation.dividend
  cases phase with
  | idle =>
    rw [show i.dividendObj = none from hstands]
    simp
  | paying started =>
    obtain ⟨entry, hentry, hstate, rfl⟩ := hstands
    rw [show i.dividendObj = some entry from hentry]
    simp [hstate, DivState_Start, DivType_Start, and_assoc]
  | done last =>
    obtain ⟨entry, hentry, hstate, _⟩ := hstands
    rw [show i.dividendObj = some entry from hentry]
    simp [hstate, DivState_Done, DivType_Start]

/-! ## What is left waiting -/

def updatedAccounts (submit : Nat → Submission) : List Row → Nat → List AccountID
  | [], _ => []
  | row :: rows, count =>
    match row.account, row.transaction with
    | some account, some _ =>
      if submit count = .updated then account :: updatedAccounts submit rows (count + 1)
      else updatedAccounts submit rows (count + 1)
    | _, _ => updatedAccounts submit rows (count + 1)

variable {ledgerIndex : UInt32} {submit : Nat → Submission} {table : Table}

theorem waiting_markDone (account : AccountID) (tb : Table) :
    waiting ledgerIndex (markDone ledgerIndex account tb) =
      (waiting ledgerIndex tb).filter fun row => row.account != some account := by
  induction tb with
  | nil => rfl
  | cons row tb ih =>
    unfold waiting markDone at ih ⊢
    by_cases hmk : row.account = some account ∧ row.ledgerSeq = ledgerIndex
    · cases hst : row.status <;> simp [hmk, hst, ih]
    by_cases hw : row.ledgerSeq = ledgerIndex ∧ row.status = .wait
    · have ha : row.account ≠ some account := fun h => hmk ⟨h, hw.1⟩
      simp [hw, ha, ih]
    · simp [hmk, hw, ih]

variable {rows : List Row}

/-- It counts the rows; those not updated go on waiting. -/
theorem sendRows_spec {cn cn' : Nat} {table' : Table}
    (h : sendRows ledgerIndex submit rows cn table = .ok (cn', table')) :
    cn' = cn + rows.length ∧ ∀ row, row ∈ waiting ledgerIndex table' ↔
        row ∈ waiting ledgerIndex table ∧
          ∀ account ∈ updatedAccounts submit rows cn, row.account ≠ some account := by
  induction rows generalizing cn table with
  | nil =>
    cases h
    simp [updatedAccounts]
  | cons row rows ih =>
    have hl : cn + (row :: rows).length = cn + 1 + rows.length := by
      rw [length_cons]
      omega
    rw [hl]
    unfold sendRows at h
    unfold updatedAccounts
    cases ha : row.account with
    | none =>
      simp only [ha] at h
      exact ih h
    | some account =>
      cases htx : row.transaction with
      | none =>
        simp only [ha, htx] at h
        exact ih h
      | some blob =>
        simp only [ha, htx] at h
        cases hsu : submit cn with
        | escaped =>
          simp only [hsu] at h
          cases h
        | caught =>
          simp only [hsu] at h
          simpa [hsu] using ih h
        | updated =>
          simp only [hsu] at h
          obtain ⟨hcn, hwa⟩ := ih h
          refine ⟨hcn, fun row' => ?_⟩
          rw [hwa row', waiting_markDone]
          simp only [mem_filter, bne_iff_ne, if_true, mem_cons, forall_eq_or_imp]
          exact and_assoc

/-- Every waiting row has an account with an updated row. -/
def Settles (ledgerIndex : UInt32) (submit : Nat → Submission) (table : Table) : Prop :=
  ∀ row ∈ waiting ledgerIndex table, ∃ account, row.account = some account ∧
    account ∈ updatedAccounts submit (waiting ledgerIndex table) 0

/-- No exception leaves the loop from number `count` on. -/
def Completes (submit : Nat → Submission) (rows : List Row) (count : Nat) : Prop :=
  ∀ n row, rows[n]? = some row → row.account.isSome → row.transaction.isSome →
    submit (count + n) ≠ .escaped

theorem completes_cons (row : Row) (rows : List Row) (cn : Nat) :
    Completes submit (row :: rows) cn ↔
      (row.account.isSome → row.transaction.isSome → submit cn ≠ .escaped) ∧
        Completes submit rows (cn + 1) := by
  constructor
  · intro h
    refine ⟨h 0 row rfl, fun n row' hr' => ?_⟩
    rw [Nat.add_assoc, Nat.add_comm 1 n]
    exact h (n + 1) row' hr'
  · rintro ⟨hr, hro⟩ n row' hr'
    cases n with
    | zero =>
      cases hr'
      exact hr
    | succ n =>
      have hcn : cn + (n + 1) = cn + 1 + n := by omega
      rw [hcn]
      exact hro n row' hr'

theorem exists_sendRows_iff {count : Nat} :
    (∃ result, sendRows ledgerIndex submit rows count table = .ok result) ↔
      Completes submit rows count := by
  induction rows generalizing count table with
  | nil => simp [sendRows, Completes]
  | cons row rows ih =>
    rw [completes_cons]
    unfold sendRows
    cases ha : row.account with
    | none => simpa using ih
    | some account =>
      cases htx : row.transaction with
      | none => simpa using ih
      | some blob =>
        cases hsu : submit count with
        | escaped => simp
        | caught | updated => simpa using ih

variable {i : Invocation}

/-- Done is submitted for a short batch without exceptions. -/
theorem done_iff : (checkAndRunTxns i table).2 = some ledgerIndex ↔
      i.dividend = some ledgerIndex ∧ (waiting ledgerIndex table).length < roundSize ∧
        Completes i.submit (waiting ledgerIndex table) 0 := by
  unfold checkAndRunTxns
  cases hdi : i.dividend with
  | none => simp
  | some index =>
    have hc : (∃ result, sendRows index i.submit ((waiting index table).take roundSize)
        0 table = .ok result) ↔ Completes i.submit ((waiting index table).take roundSize) 0 :=
      exists_sendRows_iff
    cases hs : sendRows index i.submit ((waiting index table).take roundSize) 0 table with
    | error table' =>
      rw [hs] at hc
      simp only [reduceCtorEq, exists_false, false_iff] at hc
      simp only [hs, reduceCtorEq, Option.some.injEq, false_iff]
      rintro ⟨rfl, hsh, hco⟩
      rw [take_of_length_le (Nat.le_of_lt hsh)] at hc
      exact hc hco
    | ok result =>
      obtain ⟨count, table'⟩ := result
      rw [hs] at hc
      have hco := hc.mp ⟨_, rfl⟩
      obtain ⟨hcn, _⟩ := sendRows_spec hs
      rw [Nat.zero_add, length_take] at hcn
      have hsh : count < roundSize ↔ (waiting index table).length < roundSize := by
        omega
      simp only [hs, Option.ite_none_right_eq_some, Option.some.injEq, hsh]
      constructor
      · rintro ⟨hl, rfl⟩
        rw [take_of_length_le (Nat.le_of_lt hl)] at hco
        exact ⟨rfl, hl, hco⟩
      · rintro ⟨rfl, hl, _⟩
        exact ⟨hl, rfl⟩

theorem waiting_of_done (h : (checkAndRunTxns i table).2 = some ledgerIndex) :
    waiting ledgerIndex (checkAndRunTxns i table).1 = [] ↔ Settles ledgerIndex i.submit table := by
  obtain ⟨hdi, hsh, hco⟩ := done_iff.mp h
  have hta : (waiting ledgerIndex table).take roundSize = waiting ledgerIndex table :=
    take_of_length_le (Nat.le_of_lt hsh)
  obtain ⟨⟨count, table'⟩, hs⟩ :
      ∃ result, sendRows ledgerIndex i.submit (waiting ledgerIndex table) 0 table = .ok result :=
    exists_sendRows_iff.mpr hco
  have ht : (checkAndRunTxns i table).1 = table' := by
    simp [checkAndRunTxns, hdi, hta, hs]
  rw [ht, eq_nil_iff_forall_not_mem]
  refine forall_congr' fun row => ?_
  rw [(sendRows_spec hs).2 row]
  constructor
  · intro hn hr
    by_contra hu
    refine hn ⟨hr, fun account ha heq => hu ⟨account, heq, ha⟩⟩
  · rintro hse ⟨hr, ho⟩
    obtain ⟨account, heq, ha⟩ := hse hr
    exact ho account ha heq

/-! ## Runs -/

/-- Invocations, each with the table it finds. -/
def encounters : List Invocation → Table → List (Invocation × Table)
  | [], _ => []
  | i :: invocations, table =>
    (i, table) :: encounters invocations (checkAndRunTxns i table).1

/-- Done is submitted only for dividends without a waiting row exactly when no invocation with a
short batch has a row that it fails to submit. -/
theorem done_only_when_finished_iff (invocations : List Invocation) (table : Table) :
    (∀ p ∈ encounters invocations table, ∀ ledgerIndex,
        (checkAndRunTxns p.1 p.2).2 = some ledgerIndex →
          waiting ledgerIndex (checkAndRunTxns p.1 p.2).1 = []) ↔
      ∀ p ∈ encounters invocations table, ∀ ledgerIndex, p.1.dividend = some ledgerIndex →
        (waiting ledgerIndex p.2).length < roundSize →
          Completes p.1.submit (waiting ledgerIndex p.2) 0 →
            Settles ledgerIndex p.1.submit p.2 := by
  constructor
  · intro h p hp ledgerIndex hdi hsh hco
    have hd := done_iff.mpr ⟨hdi, hsh, hco⟩
    exact (waiting_of_done hd).mp (h p hp ledgerIndex hd)
  · intro h p hp ledgerIndex hd
    obtain ⟨hdi, hsh, hco⟩ := done_iff.mp hd
    exact (waiting_of_done hd).mpr (h p hp ledgerIndex hdi hsh hco)

/-- The row waits on, and Done is submitted. -/
theorem done_with_row_waiting :
    let row : Row := { account := some 7, ledgerSeq := 5, transaction := some [1] }
    let i : Invocation :=
      { hasPrivateKey := true
        isNeedNetworkLedger := false
        dividendObj := some { dividendState := DivType_Start, dividendLedger := 5 }
        submit := fun _ => .caught }
    (checkAndRunTxns i [row]).2 = some 5 ∧ waiting 5 (checkAndRunTxns i [row]).1 = [row] := by
  decide

end DividendBatch

end Sand
