import Sand.Protocol.Types

/-!
# Paging through an account's transactions

A page ends with a marker if there are more rows.
-/

namespace Sand.AccountTxPaging

open List Nat

structure Row where
  ledgerSeq : ℕ
  txnSeq : ℕ
  status : String
  rawTxn : Blob
  txnMeta : Blob

/-- What `onTransaction` is called with. -/
structure Passed where
  ledgerSeq : ℕ
  status : String
  rawData : Blob
  rawMeta : Blob

abbrev Marker := ℕ × ℕ

namespace Row

abbrev marker (row : Row) : Marker := (row.ledgerSeq, row.txnSeq)

def own (row : Row) : Passed := ⟨row.ledgerSeq, row.status, row.rawTxn, row.txnMeta⟩

/-- For MySQL every column is in the variable of the next one. -/
def fetched (isMySQL : Bool) (row : Row) : Marker × Passed :=
  if isMySQL then
    ((0, row.ledgerSeq), ⟨0, toString row.txnSeq, row.status.toUTF8.toList, row.rawTxn⟩)
  else (row.marker, row.own)

def Before (a b : Row) : Prop :=
  a.ledgerSeq < b.ledgerSeq ∨ a.ledgerSeq = b.ledgerSeq ∧ a.txnSeq < b.txnSeq
  deriving Decidable

end Row

/-- `asInt` gives the numbers of the marker. -/
def Marker.Readable (find : Marker) : Prop := find.1 < 2 ^ 31 - 1 ∧ find.2 < 2 ^ 31 - 1
  deriving Decidable

/-- The rows of an account, one for each transaction of a ledger. -/
structure Table where
  rows : List Row
  sorted : rows.Pairwise Row.Before
  bounds : ∀ row ∈ rows, 0 < row.ledgerSeq ∧ row.ledgerSeq < 2 ^ 31

structure Request where
  isMySQL : Bool
  forward : Bool
  minLedger : Int
  maxLedger : Int
  limit : Int32
  bAdmin : Bool
  pageLength : UInt32
  pageLength_ne : pageLength ≠ 0

def fetchLoop (isMySQL : Bool) (find : Marker) : Bool → ℕ → List Row → List Passed × Option Marker
  | _, _, [] => ([], none)
  | lookingForMarker, numberOfResults, row :: rows =>
    let (marker, passed) := row.fetched isMySQL
    if lookingForMarker ∧ find ≠ marker then fetchLoop isMySQL find true numberOfResults rows
    else if ¬lookingForMarker ∧ numberOfResults = 0 then ([], some marker)
    else
      let (rest, token) := fetchLoop isMySQL find false (numberOfResults - 1) rows
      (passed :: rest, token)

namespace Request

variable (q : Request) (table : Table)

def numberOfResults : ℕ :=
  if q.limit.toInt ≤ 0 ∨ q.pageLength.toNat < q.limit.toInt ∧ !q.bAdmin then q.pageLength.toNat
  else q.limit.toInt.toNat

def selects (find : Marker) (row : Row) : Bool :=
  if find.1 = 0 then q.minLedger ≤ row.ledgerSeq ∧ row.ledgerSeq ≤ q.maxLedger
  else if q.forward then
    (find.1 + 1 ≤ row.ledgerSeq ∧ row.ledgerSeq ≤ q.maxLedger) ∨
      (row.ledgerSeq = find.1 ∧ find.2 ≤ row.txnSeq)
  else
    (q.minLedger ≤ row.ledgerSeq ∧ row.ledgerSeq ≤ find.1 - 1) ∨
      (row.ledgerSeq = find.1 ∧ row.txnSeq ≤ find.2)

/-- The rows of the query, without the limit. -/
def ordered (find : Marker) : List Row :=
  (if q.forward then table.rows else table.rows.reverse).filter (q.selects find)

def accountTxPage (token : Option Marker) : List Passed × Option Marker :=
  let queryLimit := (q.numberOfResults + 1) % 2 ^ 32
  match token with
  | none =>
    fetchLoop q.isMySQL (0, 0) false q.numberOfResults ((q.ordered table (0, 0)).take queryLimit)
  | some find =>
    -- where `asInt` throws, the marker is left as it is
    if find.Readable then
      fetchLoop q.isMySQL find true q.numberOfResults ((q.ordered table find).take queryLimit)
    else ([], token)

def pages : ℕ → Option Marker → Option (List Passed)
  | 0, _ => none
  | fuel + 1, token =>
    match q.accountTxPage table token with
    | (passed, none) => some passed
    | (passed, some marker) => (pages fuel (some marker)).map (passed ++ ·)

/-- Paging ends and has passed every row of the range in order. -/
def Complete : Prop :=
  ∃ fuel, q.pages table fuel none = some ((q.ordered table (0, 0)).map Row.own)

variable {q table}

theorem numberOfResults_pos : 0 < q.numberOfResults ∧ q.numberOfResults < 2 ^ 32 := by
  have hpo : 0 < q.pageLength.toNat :=
    Nat.pos_of_ne_zero fun h => q.pageLength_ne (UInt32.toNat_inj.mp h)
  have hlt := q.pageLength.toNat_lt
  have hli := q.limit.toInt_lt
  unfold numberOfResults
  split_ifs <;> omega

variable {find : Marker} {row : Row} {rows rest before after : List Row} {n : ℕ}
  {token : Option Marker} {passed : List Passed}

theorem fetchLoop_own : fetchLoop false find false n rows =
    ((rows.take n).map Row.own, rows[n]?.map Row.marker) := by
  induction rows generalizing n with
  | nil => simp [fetchLoop]
  | cons row rows ih =>
    cases n with
    | zero => simp [fetchLoop, Row.fetched]
    | succ n => simp [fetchLoop, Row.fetched, ih]

theorem ledgerSeq_pos (h : row ∈ q.ordered table find) : 0 < row.ledgerSeq := by
  have hro := (mem_filter.mp h).1
  exact (table.bounds row (by split at hro <;> simpa using hro)).1

/-- A row comes before another in the order asked for. -/
def Before (q : Request) (a b : Row) : Prop := if q.forward then a.Before b else b.Before a
  deriving Decidable

theorem not_before_of_before {a b : Row} (h : q.Before a b) : ¬q.Before b a := by
  unfold Before Row.Before at *
  split_ifs at * <;> omega

theorem selects_marker (hro : q.selects (0, 0) row) (hpo : 0 < row.ledgerSeq)
    (other : Row) : q.selects row.marker other ↔ ¬q.Before other row ∧ q.selects (0, 0) other := by
  simp only [selects, if_true, hpo.ne', if_false, decide_eq_true_eq, Before] at hro ⊢
  split_ifs <;> simp only [Row.Before, decide_eq_true_eq] <;> omega

/-- With a marker: what is left of the range from its row on. -/
theorem ordered_marker (h : q.ordered table (0, 0) = before ++ row :: after) :
    q.ordered table row.marker = row :: after := by
  have hm : row ∈ q.ordered table (0, 0) := by simp [h]
  have hso : (q.ordered table (0, 0)).Pairwise q.Before := by
    refine List.Pairwise.filter _ ?_
    unfold Before
    split_ifs
    · exact table.sorted
    · exact pairwise_reverse.mpr table.sorted
  have hsp : q.ordered table row.marker =
      (q.ordered table (0, 0)).filter fun other => ¬q.Before other row := by
    rw [ordered, ordered, filter_filter]
    refine filter_congr fun other _ => ?_
    rw [Bool.eq_iff_iff, selects_marker (mem_filter.mp hm).2 (ledgerSeq_pos hm)]
    simp
  rw [h, pairwise_append, pairwise_cons] at hso
  obtain ⟨-, ⟨ha, -⟩, hb⟩ := hso
  rw [hsp, h, filter_append, filter_eq_nil_iff.mpr, filter_eq_self.mpr, nil_append]
  · exact fun other ho => decide_eq_true (forall_mem_cons (p := fun other =>
      ¬q.Before other row).mpr ⟨fun hse => not_before_of_before hse hse,
        fun other ho => not_before_of_before (ha other ho)⟩ other ho)
  · exact fun other ho => by simpa using hb other ho row mem_cons_self

/-- Where paging stands: `rest` is what is left of the range. -/
def At (q : Request) (table : Table) (token : Option Marker) (rest : List Row) : Prop :=
  ∃ before, q.ordered table (0, 0) = before ++ rest ∧
    (token = none ∧ before = [] ∨ ∃ row, rest.head? = some row ∧ token = some row.marker ∧
      row.marker.Readable)

theorem At.next {next : Row} (h : At q table token rest)
    (hn : rest[q.numberOfResults]? = some next) (hr : next.marker.Readable) :
    At q table (some next.marker) (rest.drop q.numberOfResults) := by
  obtain ⟨before, hrn, -⟩ := h
  refine ⟨before ++ rest.take q.numberOfResults, ?_, .inr ⟨next, ?_, rfl, hr⟩⟩
  · rw [append_assoc, take_append_drop, hrn]
  · rw [List.head?_drop, hn]

theorem pages_unreadable (h : ¬find.Readable) (fuel : ℕ) :
    q.pages table fuel (some find) = none := by
  induction fuel with
  | zero => rfl
  | succ fuel ih => simp [pages, accountTxPage, h, ih]

section

variable (hl : q.isMySQL = false) (hli : q.numberOfResults + 1 < 2 ^ 32)
include hl hli

theorem accountTxPage_eq (h : At q table token rest) : q.accountTxPage table token =
    ((rest.take q.numberOfResults).map Row.own, rest[q.numberOfResults]?.map Row.marker) := by
  have how : ∀ find, fetchLoop false find false q.numberOfResults
      (rest.take (q.numberOfResults + 1)) =
      ((rest.take q.numberOfResults).map Row.own, rest[q.numberOfResults]?.map Row.marker) := by
    intro find
    rw [fetchLoop_own, take_take, List.getElem?_take_of_lt (by omega)]
    simp
  obtain ⟨before, hrn, ⟨rfl, rfl⟩ | ⟨row, hh, rfl, hr⟩⟩ := h
  · rw [accountTxPage, mod_eq_of_lt hli, hl, hrn]
    exact how _
  · obtain ⟨after, rfl⟩ := List.head?_eq_some_iff.mp hh
    rw [accountTxPage, if_pos hr, mod_eq_of_lt hli, hl, ordered_marker hrn, ← how row.marker]
    simp [fetchLoop, Row.fetched, numberOfResults_pos.1.ne']

theorem readable_of_pages {fuel : ℕ} (h : At q table token rest)
    (hp : (q.pages table fuel token).isSome) (j : ℕ)
    (hro : rest[(j + 1) * q.numberOfResults]? = some row) : row.marker.Readable := by
  induction fuel generalizing token rest j with
  | zero => cases hp
  | succ fuel ih =>
    rw [pages, accountTxPage_eq hl hli h] at hp
    cases hn : rest[q.numberOfResults]? with
    | none =>
      have hln := List.getElem?_eq_none_iff.mp hn
      have hlt := (List.getElem?_eq_some_iff.mp hro).1
      have hle := Nat.le_mul_of_pos_left q.numberOfResults (show 0 < j + 1 by omega)
      omega
    | some next =>
      simp only [hn, Option.map_some, Option.isSome_map] at hp
      have hr : next.marker.Readable := by
        by_contra hno
        rw [pages_unreadable hno] at hp
        cases hp
      cases j with
      | zero =>
        rw [zero_add, one_mul, hn] at hro
        cases hro
        exact hr
      | succ j =>
        refine ih (h.next hn hr) hp j ?_
        rw [List.getElem?_drop, ← hro]
        rw [succ_mul (j + 1), Nat.add_comm]

theorem exists_pages (h : At q table token rest)
    (hr : ∀ j row, rest[(j + 1) * q.numberOfResults]? = some row → row.marker.Readable) :
    ∃ fuel, q.pages table fuel token = some (rest.map Row.own) := by
  induction hln : rest.length using Nat.strong_induction_on generalizing rest token with
  | _ length ih =>
    cases hn : rest[q.numberOfResults]? with
    | none =>
      refine ⟨1, ?_⟩
      rw [pages, accountTxPage_eq hl hli h, hn, take_of_length_le (List.getElem?_eq_none_iff.mp hn)]
      rfl
    | some next =>
      have hlt := (List.getElem?_eq_some_iff.mp hn).1
      have hpo := q.numberOfResults_pos.1
      obtain ⟨fuel, hf⟩ := ih (rest.drop q.numberOfResults).length (by rw [length_drop]; omega)
        (h.next hn (hr 0 next (by rw [zero_add, one_mul, hn])))
        (fun j row hro => hr (j + 1) row (by
          rw [← hro, List.getElem?_drop]
          rw [succ_mul, Nat.add_comm])) rfl
      refine ⟨fuel + 1, ?_⟩
      rw [pages, accountTxPage_eq hl hli h, hn]
      simp [Option.map_some, hf, take_append_drop]

end

/-- Paging is complete exactly if the range is empty, or the back-end is not MySQL, the limit does
not wrap and every marker can be read back. -/
theorem complete_iff (q : Request) (table : Table) :
    q.Complete table ↔ q.ordered table (0, 0) = [] ∨
      q.isMySQL = false ∧ q.numberOfResults + 1 < 2 ^ 32 ∧ ∀ j row,
        (q.ordered table (0, 0))[(j + 1) * q.numberOfResults]? = some row →
          row.marker.Readable := by
  have hs : At q table none (q.ordered table (0, 0)) := ⟨[], rfl, .inl ⟨rfl, rfl⟩⟩
  constructor
  · rintro ⟨_ | fuel, hp⟩
    · cases hp
    cases hrn : q.ordered table (0, 0) with
    | nil => exact .inl rfl
    | cons row rows =>
      rw [← hrn]
      have hm : row ∈ q.ordered table (0, 0) := by simp [hrn]
      have hli : q.numberOfResults + 1 < 2 ^ 32 := by
        by_contra hno
        have hw : q.numberOfResults + 1 = 2 ^ 32 := by
          have := q.numberOfResults_pos.2
          omega
        simp [pages, accountTxPage, hw, fetchLoop, hrn] at hp
      have hl : q.isMySQL = false := by
        by_contra hmy
        rw [Bool.not_eq_false] at hmy
        -- the first row is passed on with ledger 0
        have hpo := ledgerSeq_pos hm
        simp only [pages, accountTxPage, mod_eq_of_lt hli, hmy, hrn,
          take_succ_cons, fetchLoop, Row.fetched, q.numberOfResults_pos.1.ne', if_true,
          Bool.false_eq_true, false_and, and_false, if_false] at hp
        split at hp
        · next hpa => simp [← (Prod.mk.inj hpa).1, Row.own, hpo.ne] at hp
        · next hpa => simp [← (Prod.mk.inj hpa).1, Row.own, hpo.ne] at hp
      exact .inr ⟨hl, hli, fun j row hro => readable_of_pages hl hli hs (by rw [hp]; rfl) j hro⟩
  · rintro (he | ⟨hl, hli, hr⟩)
    · exact ⟨1, by simp [pages, accountTxPage, he, fetchLoop]⟩
    · exact exists_pages hl hli hs hr

/-- A MySQL row that is passed on with ledger 0. -/
theorem mySQL_incomplete : ∃ (q : Request) (table : Table), q.isMySQL = true ∧
    table.rows.length = 1 ∧ ¬ q.Complete table := by
  refine ⟨⟨true, true, 1, 9, 10, false, 200, by decide⟩,
    ⟨[⟨5, 0, "V", [1], [2]⟩], by simp, by simp⟩, rfl, rfl, ?_⟩
  rintro ⟨_ | fuel, hp⟩
  · cases hp
  · simp [pages, accountTxPage, numberOfResults, ordered, selects, fetchLoop, Row.fetched,
      Row.own] at hp

end Request

end Sand.AccountTxPaging
