import Sand.Open.Replay

/-!
# The open ledger

A new open view receives the disputed transactions, those of the old one and the local ones.
-/

namespace Sand

open Transactor

/-- By account, as the salt decides, then by number. -/
structure CanonicalTXSet where
  setHash : UInt256
  txs : List STTx

namespace CanonicalTXSet

def key (set : CanonicalTXSet) (tx : STTx) : UInt256 × UInt32 × UInt256 :=
  (set.setHash ^^^ (tx.account.setWidth 256 <<< 96), tx.sequence, tx.transactionID)

def keyLt (a b : UInt256 × UInt32 × UInt256) : Bool :=
  if a.1 < b.1 then true
  else if b.1 < a.1 then false
  else if a.2.1 < b.2.1 then true
  else if b.2.1 < a.2.1 then false
  else decide (a.2.2 < b.2.2)

/-- A key that is there is not inserted again. -/
def insert (set : CanonicalTXSet) (tx : STTx) : CanonicalTXSet :=
  { set with txs := place set.txs }
where
  place : List STTx → List STTx
    | [] => [tx]
    | other :: rest =>
      if keyLt (set.key tx) (set.key other) then tx :: other :: rest
      else if keyLt (set.key other) (set.key tx) then other :: place rest
      else other :: rest

end CanonicalTXSet

/-- What of a closed ledger an open view shows. -/
structure ClosedLedger where
  seq : UInt32
  closeTime : UInt32
  fees : Fees
  drops : UInt64
  ledger : Ledger
  txs : List UInt256

namespace OpenLedger

inductive Result where
  | success
  | failure
  | retry
  deriving DecidableEq

def LEDGER_TOTAL_PASSES : Nat := 3
def LEDGER_RETRY_PASSES : Nat := 1

def create (ledger : ClosedLedger) : OpenView where
  info := ⟨true, ledger.seq + 1, ledger.closeTime⟩
  fees := ledger.fees
  drops := ledger.drops
  ledger := ledger.ledger
  txs := []
  dropsCreated := 0
  dropsDestroyed := 0

section Loops

variable {m : Type → Type} [Monad m] {σ : Type} (attempt : σ → STTx → Bool → m (σ × Result))

/-- `none` is a transaction that throws when looked at. -/
def applyNewWith (check : List UInt256) :
    List (Option STTx) → σ → CanonicalTXSet → m (σ × CanonicalTXSet)
  | [], view, retries => pure (view, retries)
  | none :: txs, view, retries => applyNewWith check txs view retries
  | some tx :: txs, view, retries =>
    if tx.transactionID ∈ check then
      applyNewWith check txs view retries
    else do
      let (view, result) ← attempt view tx true
      applyNewWith check txs view (if result = .retry then retries.insert tx else retries)

def applyPassWith (retry : Bool) : List STTx → σ → m (σ × List STTx × Nat)
  | [], view => pure (view, [], 0)
  | tx :: txs, view => do
    let (view, result) ← attempt view tx retry
    let (view, left, changes) ← applyPassWith retry txs view
    match result with
    | .success => pure (view, left, changes + 1)
    | .failure => pure (view, left, changes)
    | .retry => pure (view, tx :: left, changes)

/-- From number `pass` on, `remaining` of them. -/
def applyPassesWith : (remaining pass : Nat) → (retry : Bool) → σ → List STTx →
    m (σ × List STTx)
  | 0, _, _, view, txs => pure (view, txs)
  | remaining + 1, pass, retry, view, txs => do
    let (view, left, changes) ← applyPassWith attempt retry txs view
    if changes = 0 && !retry then
      pure (view, left)
    else
      let stop := changes = 0 || decide (LEDGER_RETRY_PASSES ≤ pass)
      applyPassesWith remaining (pass + 1) (if stop then false else retry) view left

/-- `OpenLedger::apply` over an attempt. -/
def applyAllWith (check : List UInt256) (txs : List (Option STTx)) (view : σ)
    (retries : CanonicalTXSet) : m (σ × CanonicalTXSet) := do
  let (view, retries) ← applyNewWith attempt check txs view retries
  let (view, left) ← applyPassesWith attempt LEDGER_TOTAL_PASSES 0 true view retries.txs
  pure (view, { retries with txs := left })

end Loops

section Apply

-- `sigGood` is what the hash router knows of signatures
variable (env : Env) (sigGood : UInt256 → Bool) (flags : Flags)

/-- Nothing, here and below, if the process ends. -/
def applyOne (view : OpenView) (tx : STTx) (retry : Bool) : Option (OpenView × Result) :=
  let flags := if retry then flags ||| tapRETRY else flags
  let flags := if sigGood tx.transactionID then flags ||| tapNO_CHECK_SIGN else flags
  (Sand.apply env tx view flags).map fun out =>
    (out.view,
      if out.didApply then .success
      else if out.ter.isTefFailure || out.ter.isTemMalformed || out.ter.isTelLocal then .failure
      else .retry)

/-- `OpenLedger::apply`. -/
def applyAll (check : List UInt256) (txs : List STTx) (view : OpenView)
    (retries : CanonicalTXSet) : Option (OpenView × CanonicalTXSet) :=
  applyAllWith (applyOne env sigGood flags) check (txs.map some) view retries

def applyLocals : List STTx → OpenView → Option OpenView
  | [], view => some view
  | tx :: txs, view => do
    let out ← Sand.apply env tx view flags
    applyLocals txs out.view

/-- `current` are the old open view's transactions. -/
def accept (ledger : ClosedLedger) (locals : List STTx) (retriesFirst : Bool)
    (retries : CanonicalTXSet) (current : List STTx) : Option (OpenView × CanonicalTXSet) := do
  let disputed :=
    if retriesFirst then applyAll env sigGood flags ledger.txs [] (create ledger) retries
    else some (create ledger, retries)
  let (next, retries) ← disputed
  let old :=
    if current.isEmpty then some (next, retries)
    else applyAll env sigGood flags ledger.txs current next retries
  let (next, retries) ← old
  let next ← applyLocals env flags locals next
  some (next, retries)

end Apply

def sampleClosed : ClosedLedger where
  seq := 9
  closeTime := 1000
  fees := ⟨10, 10, 200, 50⟩
  drops := 100000000000000000
  ledger := poorLedger
  txs := []

/-- The announcement of dividend 5, of a million drops. -/
def announcement : STTx :=
  Dividend.sampleDividend ⟨some DividendMaster.DivType_Start, some 5, some 1000000, none⟩

/-- An announcement both disputed and in the old open view is written twice, which ends the
process. -/
theorem announcement_written_twice : ∃ (e : Event) (o' : OpenView) (ter : TER) (v : View),
      Run Event.Calls (create sampleClosed) [e] o' ∧ e.tx = announcement ∧
        resolve sampleEnv announcement o' 0 = .ok (ter, some v) ∧
        announcement.transactionID ∈ o'.txs ∧ Sand.apply sampleEnv announcement o' 0 = none ∧
        accept sampleEnv (fun _ => false) 0 sampleClosed [] true ⟨0, [announcement]⟩
          [announcement] = none := by
  have hr : (Sand.apply sampleEnv announcement (create sampleClosed) 0).any (fun out =>
      decide (announcement.transactionID ∈ out.view.txs) &&
        ((resolve sampleEnv announcement out.view 0).toOption.bind Prod.snd).isSome) = true := by
    decide +kernel
  have ha : (accept sampleEnv (fun _ => false) 0 sampleClosed [] true ⟨0, [announcement]⟩
      [announcement]).isNone = true := by
    decide +kernel
  cases hap : Sand.apply sampleEnv announcement (create sampleClosed) 0 with
  | none =>
    rw [hap] at hr
    cases hr
  | some out =>
    simp only [hap, Option.any_some, Bool.and_eq_true, decide_eq_true_eq] at hr
    obtain ⟨hm, hr⟩ := hr
    rcases hre : resolve sampleEnv announcement out.view 0 with fault | ⟨ter, _ | v⟩
    · rw [hre] at hr
      cases hr
    · rw [hre] at hr
      cases hr
    · exact ⟨⟨sampleEnv, announcement, 0, create sampleClosed, out⟩, out.view, ter, v,
        .cons ⟨rfl, hap, rfl⟩ (.nil _), rfl, hre, hm, apply_of_duplicate hre hm,
        Option.isNone_iff_eq_none.mp ha⟩

end OpenLedger

end Sand
