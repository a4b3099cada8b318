import Sand.Ledger.TrustLine
import Sand.Protocol.Tx

/-!
# Transactor state

The members of a transactor, and the evolutions that whole transactions keep to.
-/

namespace Sand

open AccountRoot Evolution View.Evolves STAmount

/-- What `SetSignerList::preCheck` decided to do. -/
inductive SignerListOp where
  | unknown
  | set (quorum : UInt32) (signers : List SignerEntry)
  | destroy
  deriving DecidableEq

structure TxState where
  view : View
  /-- Zero until `preCheckAccount` has run. -/
  account : AccountID := 0
  feeDue : STAmount := zeroDrops
  /-- Balance before fees. -/
  priorBalance : STAmount := zeroDrops
  /-- Balance after fees. -/
  sourceBalance : STAmount := zeroDrops
  hasAuthKey : Bool := false
  sigMaster : Bool := false
  signingPubKey : Blob := []
  /-- What is known of the signature. -/
  sigState : Option Bool := none
  signerListOp : SignerListOp := .unknown

namespace Evolution

def uncharged (root : AccountRoot) : AccountRoot :=
  { root with
    balance := zeroDrops
    sequence := 0
    accountTxnID := none }

def chargeRel : ∀ k, Option (Entry k) → Option (Entry k) → Prop
  | .account _, old, new => new.map uncharged = old.map uncharged
  | _, old, new => new = old

/-- Charging sequence number and fee. -/
def charge : Evolution where
  rel := chargeRel
  refl k e := by
    cases k <;> simp [chargeRel]
  trans k e1 e2 e3 h12 h23 := by
    cases k <;> exact Eq.trans h23 h12

theorem uncharged_setBalance (balance : STAmount) (root : AccountRoot) :
    uncharged { root with balance := balance } = uncharged root :=
  rfl

theorem charge_rel_account (id : AccountID) {root root' : AccountRoot}
    (h : uncharged root' = uncharged root) : charge.rel (.account id) (some root) (some root') :=
  congrArg some h

def flagged (root : Option AccountRoot) (flag : Flags) : Bool :=
  root.any fun root => root.isFlag flag

/-- The root is kept, and its last dividend. -/
def keepsDividend (old new : Option AccountRoot) : Prop :=
  (old.isSome → new.isSome) ∧ new.bind dividendLedger = old.bind dividendLedger

def settingsRel : ∀ k, Option (Entry k) → Option (Entry k) → Prop
  | .account _, old, new => keepsDividend old new
  | .dividend, old, new => new = old
  | _, _, _ => True

/-- Any transaction but a dividend. -/
def settings : Evolution where
  rel := settingsRel
  refl k e := by
    cases k <;> simp [settingsRel, keepsDividend]
  trans k e1 e2 e3 h12 h23 := by
    cases k with
    | account id => exact ⟨fun h => h23.1 (h12.1 h), h23.2.trans h12.2⟩
    | dividend => exact Eq.trans h23 h12
    | _ => trivial

def ordinaryRel : ∀ k, Option (Entry k) → Option (Entry k) → Prop
  | .account _, old, new =>
    keepsDividend old new ∧ flagged new lsfNoFreeze = flagged old lsfNoFreeze ∧
      flagged new lsfGlobalFreeze = flagged old lsfGlobalFreeze
  | .line _ _ _, old, new =>
    ∀ mark ∈ lineMarks, marked new mark → marked old mark
  | .dividend, old, new => new = old
  | _, _, _ => True

/-- It moves value or manages an account's entries. -/
def ordinary : Evolution where
  rel := ordinaryRel
  refl k e := by
    cases k <;> simp [ordinaryRel, keepsDividend]
  trans k e1 e2 e3 h12 h23 := by
    cases k with
    | account id =>
      exact ⟨⟨fun h => h23.1.1 (h12.1.1 h), h23.1.2.trans h12.1.2⟩,
        h23.2.1.trans h12.2.1, h23.2.2.trans h12.2.2⟩
    | line low high currency =>
      intro mark hm h3
      exact h12 mark hm (h23 mark hm h3)
    | dividend => exact Eq.trans h23 h12
    | _ => trivial

def ownerObjectsRel : ∀ k, Option (Entry k) → Option (Entry k) → Prop
  | .account _, old, new => new.map AccountRoot.settings = old.map AccountRoot.settings
  | .line _ _ _, old, new =>
    ∀ mark ∈ lineMarks, marked new mark → marked old mark
  | .amendments, old, new => new = old
  | .fees, old, new => new = old
  | .dividend, old, new => new = old
  | _, _, _ => True

/-- Moving value, and placing and removing owned entries. -/
def ownerObjects : Evolution where
  rel := ownerObjectsRel
  refl k e := by
    cases k <;> simp [ownerObjectsRel]
  trans k e1 e2 e3 h12 h23 := by
    cases k with
    | account id => exact Eq.trans h23 h12
    | line low high currency =>
      intro mark hm h3
      exact h12 mark hm (h23 mark hm h3)
    | amendments | fees | dividend => exact Eq.trans h23 h12
    | _ => trivial

instance : Sub transfer ownerObjects where
  sub k e e' h := by
    cases k with
    | account id => exact h
    | line low high currency => exact fun mark hm => h mark hm List.not_mem_nil
    | amendments | fees | dividend => exact h
    | _ => trivial
  mints h := h

instance : Sub ordinary settings where
  sub k e e' h := by
    cases k with
    | account id => exact h.1
    | dividend => exact h
    | _ => trivial
  mints h := h

/-- Roots agree but for fields not kept. -/
theorem ordinaryRel_account_of_map_eq (id : AccountID) (f : AccountRoot → AccountRoot)
    (hfl : ∀ root, (f root).flags = root.flags)
    (hd : ∀ root, (f root).dividendLedger = root.dividendLedger)
    {old new : Option AccountRoot} (h : new.map f = old.map f) :
    ordinaryRel (.account id) old new := by
  have hf : ∀ (root : Option AccountRoot) (flag : Flags),
      flagged root flag = flagged (root.map f) flag := by
    intro root flag
    cases root <;> simp [flagged, isFlag, hfl]
  have hl : ∀ root : Option AccountRoot,
      root.bind dividendLedger = (root.map f).bind dividendLedger := by
    intro root
    cases root <;> simp [hd]
  refine ⟨⟨?_, ?_⟩, ?_, ?_⟩
  · intro hs
    have hma : (new.map f).isSome := by simpa [h] using hs
    simpa using hma
  · rw [hl new, hl old, h]
  · rw [hf new, hf old, h]
  · rw [hf new, hf old, h]

instance : Sub charge ordinary where
  sub k e e' h := by
    cases k with
    | account id =>
      exact ordinaryRel_account_of_map_eq id uncharged (fun _ => rfl) (fun _ => rfl) h
    | line low high currency =>
      cases h
      exact fun _ _ hmk => hmk
    | dividend => exact h
    | _ => trivial
  mints h := h

instance : Sub ownerObjects ordinary where
  sub k e e' h := by
    cases k with
    | account id =>
      exact ordinaryRel_account_of_map_eq id AccountRoot.settings (fun _ => rfl) (fun _ => rfl) h
    | line low high currency | dividend => exact h
    | _ => trivial
  mints h := h

instance : Sub transfer ordinary :=
  Sub.trans transfer ownerObjects ordinary

instance : Sub charge settings :=
  Sub.trans charge ordinary settings

instance (marks : SettableMarks) : Sub (transferWith marks) settings where
  sub k e e' h := by
    cases k with
    | account id =>
      exact (ordinaryRel_account_of_map_eq id AccountRoot.settings (fun _ => rfl)
        (fun _ => rfl) h).1
    | dividend => exact h
    | _ => trivial
  mints h := h

end Evolution

instance (E : Evolution) [Evolution.Sub ownerObjects E] :
    MonadLift (LedgerM ownerObjects) (LedgerM E) where
  monadLift := LedgerM.lift

/-! ## Transactor computations -/

def TxState.Evolves (E : Evolution) (s s' : TxState) : Prop :=
  View.Evolves E s.view s'.view

instance (E : Evolution) : IsPreorder TxState (TxState.Evolves E) where
  refl s := refl E s.view
  trans _ _ _ h h' := trans h h'

abbrev TxM (E : Evolution) (α : Type) := MonoM (TxState.Evolves E) Fault α

instance (E : Evolution) : MonadLift (LedgerM E) (TxM E) where
  monadLift x := x.zoom TxState.view (fun s v => { s with view := v }) fun _ _ h => h

def TxM.lift {E E' : Evolution} {α : Type} [Evolution.Sub E E'] (x : TxM E α) : TxM E' α :=
  x.weaken fun _ _ h => weaken h

/-!
### Checks

`preCheck` looks at the transaction and the flags only; the checks after it change the source
account's root without marking it as written.
-/

def TxState.SameView (s s' : TxState) : Prop := s'.view = s.view

instance : IsPreorder TxState TxState.SameView where
  refl _ := rfl
  trans _ _ _ h h' := Eq.trans h' h

abbrev PreCheckM (α : Type) := MonoM TxState.SameView Fault α

structure TxState.Checks (s s' : TxState) : Prop where
  evolves : View.Evolves charge s.view s'.view
  unwritten : s.view.Unwritten → s'.view.Unwritten

instance : IsPreorder TxState TxState.Checks where
  refl s := ⟨refl _ s.view, id⟩
  trans _ _ _ h h' := ⟨h.evolves.trans h'.evolves, h'.unwritten ∘ h.unwritten⟩

abbrev CheckM (α : Type) := MonoM TxState.Checks Fault α

instance : MonadLift PreCheckM CheckM where
  monadLift x := x.weaken fun s s' h => by
    refine ⟨?_, ?_⟩ <;> rw [show s'.view = s.view from h]
    · exact refl _ s.view
    · exact id

instance (E : Evolution) [Evolution.Sub charge E] : MonadLift CheckM (TxM E) where
  monadLift x := x.weaken fun _ _ h => h.evolves.weaken

instance (E : Evolution) : MonadLift PreCheckM (TxM E) where
  monadLift x := x.weaken fun s s' h => by
    unfold TxState.Evolves
    rw [show s'.view = s.view from h]
    exact refl E s.view

namespace PreCheckM

def members : PreCheckM TxState :=
  MonoM.gets id

variable (f : TxState → TxState)

def setMembers (h : ∀ s, (f s).view = s.view) : PreCheckM Unit :=
  MonoM.modify f h

def context : PreCheckM Context :=
  MonoM.gets fun s => s.view.context

@[simp]
theorem run_members (s : TxState) : members.run s = (.ok s, s) := rfl

@[simp]
theorem run_setMembers (h : ∀ s, (f s).view = s.view) (s : TxState) :
    (setMembers f h).run s = (.ok (), f s) :=
  rfl

@[simp]
theorem run_context (s : TxState) : context.run s = (.ok s.view.context, s) := rfl

@[simp]
theorem run_liftM_check {α : Type} (x : PreCheckM α) (s : TxState) :
    (liftM x : CheckM α).run s = x.run s :=
  rfl

@[simp]
theorem run_liftM_tx {α : Type} {E : Evolution} (x : PreCheckM α) (s : TxState) :
    (liftM x : TxM E α).run s = x.run s :=
  rfl

end PreCheckM

namespace CheckM

def peek (k : Key) : CheckM (Option (Entry k)) where
  run s := (.ok (s.view.peek k).1, { s with view := (s.view.peek k).2 })
  mono s := ⟨View.evolves_peek s.view k, fun h => h.peek k⟩

def alterRoot (id : AccountID) (f : AccountRoot → AccountRoot)
    (h : ∀ root, uncharged (f root) = uncharged root) : CheckM Unit :=
  MonoM.modify (fun s => { s with view := s.view.alter (.account id) f }) fun s =>
    ⟨View.evolves_alter s.view (.account id) f fun root => congrArg some (h root),
      fun hu => hu.alter (.account id) f⟩

@[simp]
theorem run_peek (k : Key) (s : TxState) :
    (peek k).run s = (.ok (s.view.peek k).1, { s with view := (s.view.peek k).2 }) :=
  rfl

@[simp]
theorem run_alterRoot (id : AccountID) (f : AccountRoot → AccountRoot)
    (h : ∀ root, uncharged (f root) = uncharged root) (s : TxState) :
    (alterRoot id f h).run s = (.ok (), { s with view := s.view.alter (.account id) f }) :=
  rfl

@[simp]
theorem run_liftM_tx {α : Type} {E : Evolution} [Evolution.Sub charge E] (x : CheckM α)
    (s : TxState) : (liftM x : TxM E α).run s = x.run s :=
  rfl

end CheckM

variable {E : Evolution}

@[simp]
theorem TxM.run_liftM_ledger {α : Type} (x : LedgerM E α) (s : TxState) :
    (liftM x : TxM E α).run s = ((x.run s.view).1, { s with view := (x.run s.view).2 }) :=
  rfl

theorem TxM.run_liftM_ledger_eq_ok {α : Type} {x : LedgerM E α} {s s' : TxState}
    {a : α} (h : (liftM x : TxM E α).run s = (.ok a, s')) :
    ∃ v', x.run s.view = (.ok a, v') ∧ s' = { s with view := v' } := by
  obtain ⟨hr, rfl⟩ := Prod.mk.inj h
  exact ⟨_, Prod.ext hr rfl, rfl⟩

end Sand
