import Sand.Tx.Change
import Sand.Tx.CreateOffer
import Sand.Tx.Dividend
import Sand.Tx.OwnerObjects
import Sand.Tx.Payment
import Sand.Tx.SetAccount
import Sand.Tx.SetTrust

/-!
# Applying transactions

The type of a transaction selects its processor.
-/

namespace Sand

open Evolution Transactor

/-- A processor and what it may do to a ledger. -/
structure AnyProcessor where
  evolution : Evolution
  sub : Sub charge evolution
  processor : Processor evolution

attribute [instance] AnyProcessor.sub

def processorOf (env : Env) (tx : STTx) : Option AnyProcessor :=
  match tx.body with
  | .accountSet fields => some ⟨settings, inferInstance, SetAccount.processor env tx fields⟩
  | .offerCancel sequence => some ⟨ordinary, inferInstance, CancelOffer.processor env tx sequence⟩
  | .offerCreate fields => some ⟨ordinary, inferInstance, CreateOffer.processor env tx fields⟩
  | .payment fields => some ⟨ordinary, inferInstance, Payment.processor env tx fields⟩
  | .regularKeySet key => some ⟨ordinary, inferInstance, SetRegularKey.processor env tx key⟩
  | .signerListSet fields => some ⟨ordinary, inferInstance, SetSignerList.processor env tx fields⟩
  | .ticketCancel id => some ⟨ordinary, inferInstance, CancelTicket.processor env tx id⟩
  | .ticketCreate fields => some ⟨ordinary, inferInstance, CreateTicket.processor env tx fields⟩
  | .trustSet fields => some ⟨settings, inferInstance, SetTrust.processor env tx fields⟩
  | .dividend fields => some ⟨unrestricted, inferInstance, Dividend.processor env tx fields⟩
  | .amendment amendment =>
    some ⟨ordinary, inferInstance, Change.processor env tx (Change.applyAmendment tx amendment)⟩
  | .fee fees => some ⟨ordinary, inferInstance, Change.processor env tx (Change.applyFee fees)⟩
  | .other => none

variable (env : Env) (tx : STTx) (o : OpenView) (flags : Flags)

def invoke : Except Fault Transactor.Outcome :=
  match processorOf env tx with
  | none => .ok ⟨.temUNKNOWN, false, o⟩
  | some p => operate env tx p.processor o flags

def apply : Option Transactor.Outcome :=
  match invoke env tx o flags with
  | .ok out => some out
  | .error .exception => some ⟨.tefEXCEPTION, false, o⟩
  | .error .crash => none

variable {env tx o flags} {out : Transactor.Outcome}

theorem applied_of_invoke (h : invoke env tx o flags = .ok out) (ha : out.didApply) :
    ∃ p, processorOf env tx = some p ∧ tx.transactionID ≠ 0 ∧
      Transactor.Applied env tx p.processor o flags out := by
  unfold invoke at h
  cases hp : processorOf env tx with
  | none =>
    simp only [hp, Except.ok.injEq] at h
    subst h
    cases ha
  | some p =>
    simp only [hp] at h
    exact ⟨p, rfl, applied_of_operate h ha⟩

theorem invoke_of_apply (h : apply env tx o flags = some out) (ha : out.didApply) :
    invoke env tx o flags = .ok out := by
  unfold apply at h
  rcases hi : invoke env tx o flags with (_ | _) | out'
  · simp only [hi, Option.some.injEq] at h
    subst h
    cases ha
  · simp [hi] at h
  · simpa [hi] using h

theorem apply_of_invoke (h : invoke env tx o flags = .ok out) :
    apply env tx o flags = some out := by
  simp [apply, h]

theorem view_of_apply (h : apply env tx o flags = some out) (hn : out.didApply = false) :
    out.view = o := by
  unfold apply at h
  rcases hi : invoke env tx o flags with (_ | _) | out'
  · simp only [hi, Option.some.injEq] at h
    rw [← h]
  · simp [hi] at h
  · simp only [hi, Option.some.injEq] at h
    subst h
    unfold invoke at hi
    cases hp : processorOf env tx with
    | none =>
      simp only [hp, Except.ok.injEq] at hi
      rw [← hi]
    | some p =>
      simp only [hp] at hi
      exact view_of_not_applied hi hn

/-! ## A setting to run transactions in -/

/-- A key is its account's first byte, and verifies its copy. -/
def sampleEnv : Env where
  calcAccountID key := .ofNat 160 (key.headD 0).toNat
  accountPublicVerify key _ signature _ := key == signature
  signingData _ := []
  multiSigningData _ _ _ := []
  transactionFeeBase := 10
  localTxnLoadFee := 256
  remoteTxnLoadFee := 256
  clusterTxnLoadFee := 256
  dividendPublicKey := "dividend"
  parseBase58 _ := some 7

def sampleTx (body : TxBody) : STTx where
  body := body
  account := 1
  sequence := 1
  fee := .ofDrops 10
  signingPubKey := [1]
  txnSignature := some [1]
  transactionID := 1

def sampleView (ledger : Ledger) : OpenView where
  info := ⟨false, 10, 1000⟩
  fees := ⟨10, 10, 200, 50⟩
  drops := 100000000000000000
  ledger := ledger
  txs := []
  dropsCreated := 0
  dropsDestroyed := 0

def poorLedger : Ledger :=
  AList.insert (.account 1) { sequence := 1, balance := .ofDrops 5 } ∅

end Sand
