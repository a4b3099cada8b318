import Sand.Ledger.Directory

/-!
# Funds

What an account holds and may spend, and the transfer rates of issuers.
-/

namespace Sand

open STAmount

inductive FreezeHandling where
  | ignoreFreeze
  | zeroIfFrozen
  deriving DecidableEq

def qualityOne : UInt32 := 1000000000

namespace AccountRoot

def isFlag (root : AccountRoot) (flag : Flags) : Bool := root.flags.has flag

end AccountRoot

namespace RippleState

def isFlag (state : RippleState) (flag : Flags) : Bool := state.flags.has flag

end RippleState

namespace View

variable (v : View)

def accountFlag (id : AccountID) (flag : Flags) : Bool :=
  (v.get (.account id)).any fun root => root.isFlag flag

def isGlobalFrozen (issuer : AccountID) : Bool :=
  !isXRP issuer && v.accountFlag issuer lsfGlobalFreeze

def issuerFreeze (account issuer : AccountID) : Flags :=
  if account < issuer then lsfHighFreeze else lsfLowFreeze

def isFrozen (account : AccountID) (currency : Currency) (issuer : AccountID) : Bool :=
  !isXRP currency && (v.accountFlag issuer lsfGlobalFreeze || (issuer != account &&
        (v.get (.rippleState account issuer currency)).any fun state =>
          state.isFlag (issuerFreeze account issuer)))

/-- Without credits received in the enclosing sandboxes. -/
def balanceHook (account issuer : AccountID) (amount : STAmount) :
    Except Fault STAmount :=
  match v.tab with
  | none => .ok amount
  | some tab =>
    (tab :: v.parents).foldrM (fun tab balance => tab.adjustedBalance account issuer balance) amount

def xrpHolds (account : AccountID) : Except Fault STAmount := do
  let sle ← match v.get (.account account) with
    | some sle => pure sle
    | none => throw .crash
  let reserve := ofDrops (v.context.fees.accountReserve sle.ownerCount)
  if ← sle.balance.lt reserve then
    return zeroDrops
  else
    sle.balance.sub reserve

def iouHolds (account : AccountID) (currency : Currency) (issuer : AccountID)
    (freeze : FreezeHandling) : STAmount :=
  match v.get (.rippleState account issuer currency) with
  | none => zeroOf ⟨currency, issuer⟩
  | some state =>
    if freeze = .zeroIfFrozen ∧ v.isFrozen account currency issuer then
      zeroOf ⟨currency, issuer⟩
    else
      -- the balance in terms of the account
      let balance := if issuer < account then state.balance.negate else state.balance
      balance.setIssuer issuer

def accountHolds (account : AccountID) (currency : Currency) (issuer : AccountID)
    (freeze : FreezeHandling) : Except Fault STAmount := do
  let amount ← if isXRP currency then v.xrpHolds account
    else pure (v.iouHolds account currency issuer freeze)
  v.balanceHook account issuer amount

/-- What an account can pay of `default`. -/
def accountFunds (id : AccountID) (default : STAmount) (freeze : FreezeHandling) :
    Except Fault STAmount :=
  if !default.native && default.getIssuer == id then
    .ok default
  else
    v.accountHolds id default.getCurrency default.getIssuer freeze

def rippleTransferRate (issuer : AccountID) : UInt32 :=
  ((v.get (.account issuer)).bind AccountRoot.transferRate).getD qualityOne

/-- An issuer's fee on an amount sent between two others. -/
def rippleTransferFee (sender receiver issuer : AccountID) (amount : STAmount) :
    Except Fault STAmount := do
  let rate := v.rippleTransferRate issuer
  if sender ≠ issuer ∧ receiver ≠ issuer ∧ rate ≠ qualityOne then
    let total ← amount.multiply (← amountFromRate rate.toUInt64) amount.issue
    total.sub amount
  else
    return amount.zeroed

end View

namespace LedgerM

variable {E : Evolution} {α : Type}

def query (f : View → Except Fault α) : LedgerM E α where
  run v := (f v, v)
  mono v := View.Evolves.refl E v

def creditHook (sender receiver : AccountID) (amount : STAmount) : LedgerM E Unit :=
  step (fun v =>
      match v.tab with
      | none => .ok v
      | some tab => (tab.credit sender receiver amount).map fun tab => { v with tab := some tab })
    (by
      intro v v' h
      cases ht : v.tab with
      | none =>
        simp only [ht, Except.ok.injEq] at h
        subst h
        exact View.Evolves.refl E v
      | some tab =>
        simp only [ht] at h
        cases hcr : tab.credit sender receiver amount with
        | error fault => simp [hcr, Except.map] at h
        | ok tab' =>
          simp only [hcr, Except.map, Except.ok.injEq] at h
          subst h
          exact ⟨rfl, rfl, fun _ => rfl, rfl, rfl, fun k => E.refl k _, fun _ _ h => h⟩)

end LedgerM

end Sand
