import Sand.Ledger.Sandbox

/-!
# What moving value may change

The functions that move value between accounts touch few fields.
-/

namespace Sand

open Evolution STAmount

/-- An account root without what a transfer may change. -/
def AccountRoot.settings (root : AccountRoot) : AccountRoot :=
  { root with balance := zeroDrops, ownerCount := 0 }

def Offer.terms (offer : Offer) : Offer :=
  { offer with takerPays := zeroDrops, takerGets := zeroDrops }

/-- The marks a side sets on a line for the other side. -/
def lineMarks : List Flags := [lsfLowAuth, lsfHighAuth, lsfLowFreeze, lsfHighFreeze]

/-- For each line, the marks that may be set on it. -/
abbrev SettableMarks := AccountID → AccountID → Currency → List Flags

def marked (line : Option RippleState) (mark : Flags) : Bool :=
  line.any fun state => state.flags.has mark

namespace Evolution

def transferRel (marks : SettableMarks) : ∀ k, Option (Entry k) → Option (Entry k) → Prop
  | .account _, old, new => new.map AccountRoot.settings = old.map AccountRoot.settings
  | .line low high currency, old, new =>
    ∀ mark ∈ lineMarks, mark ∉ marks low high currency → marked new mark → marked old mark
  | .offer _ _, old, new => new = none ∨ new.map Offer.terms = old.map Offer.terms
  | .dir _ _, _, _ => True
  | .ticket _ _, old, new => new = old
  | .signers _, old, new => new = old
  | .amendments, old, new => new = old
  | .fees, old, new => new = old
  | .dividend, old, new => new = old

/-- Moving value, and setting marks on lines. -/
def transferWith (marks : SettableMarks) : Evolution where
  rel := transferRel marks
  refl k e := by
    cases k <;> simp [transferRel]
  trans k e1 e2 e3 h12 h23 := by
    cases k with
    | line low high currency =>
      intro mark hm hf h3
      exact h12 mark hm hf (h23 mark hm hf h3)
    | offer id sequence =>
      rcases h23 with hno | ht
      · exact .inl hno
      rcases h12 with hno | ht'
      · subst hno
        exact .inl (by simpa using ht)
      · exact .inr (ht.trans ht')
    | dir root page => trivial
    | _ => exact Eq.trans h23 h12

abbrev transfer : Evolution := transferWith fun _ _ _ => []

instance (marks : SettableMarks) : Sub transfer (transferWith marks) where
  sub k e e' h := by
    cases k with
    | line low high currency =>
      intro mark hm _
      exact h mark hm List.not_mem_nil
    | _ => exact h
  mints h := h

end Evolution

namespace LedgerM

instance (E : Evolution) [Evolution.Sub transfer E] :
    MonadLift (LedgerM transfer) (LedgerM E) where
  monadLift := lift

variable (id : AccountID)

def setBalance (balance : STAmount) : LedgerM transfer Unit :=
  alter (.account id) (fun root => { root with balance := balance }) fun _ => rfl

def setOwnerCount (count : UInt32) : LedgerM transfer Unit :=
  alter (.account id) (fun root => { root with ownerCount := count }) fun _ => rfl

def setOfferAmounts (sequence : UInt32) (takerPays takerGets : STAmount) :
    LedgerM transfer Unit :=
  alter (.offer id sequence)
    (fun offer => { offer with takerPays := takerPays, takerGets := takerGets })
    fun _ => .inr rfl

def eraseOffer (sequence : UInt32) : LedgerM transfer Unit :=
  erase (.offer id sequence) fun _ => .inl rfl

variable (root : DirRoot)

def alterDir (page : UInt64) (f : DirNode → DirNode) :
    LedgerM transfer Unit :=
  alter (.dir root page) f fun _ => trivial

def insertDir (page : UInt64) (node : DirNode) :
    LedgerM transfer Unit :=
  insert (.dir root page) node trivial

def eraseDir (page : UInt64) : LedgerM transfer Unit :=
  erase (.dir root page) fun _ => trivial

def setLineBalance (low high : AccountID) (currency : Currency) (balance : STAmount) :
    LedgerM transfer Unit :=
  alter (.line low high currency) (fun state => { state with balance := balance })
    fun _ _ _ _ h => h

def clearLineFlags (low high : AccountID) (currency : Currency) (mask : Flags) :
    LedgerM transfer Unit :=
  alter (.line low high currency) (fun state => { state with flags := state.flags &&& ~~~mask })
    fun _ _ _ _ hmk => Flags.has_of_has_clear hmk

def eraseLine (low high : AccountID) (currency : Currency) : LedgerM transfer Unit :=
  erase (.line low high currency) (by
    intro state mark _ _ hmk
    simp [marked] at hmk)

end LedgerM

end Sand
