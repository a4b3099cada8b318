import Mathlib.Data.List.AList
import Sand.Protocol.Drops

/-!
# Ledger entries

The entries a ledger can hold and the keys they stand under.
-/

namespace Sand

open STAmount

structure AccountRoot where
  flags : Flags := 0
  sequence : UInt32 := 0
  balance : STAmount := zeroDrops
  ownerCount : UInt32 := 0
  accountTxnID : Option UInt256 := none
  regularKey : Option AccountID := none
  emailHash : Option (BitVec 128) := none
  walletLocator : Option UInt256 := none
  walletSize : Option UInt32 := none
  messageKey : Option Blob := none
  transferRate : Option UInt32 := none
  domain : Option Blob := none
  dividendLedger : Option UInt32 := none
  deriving DecidableEq

/-- The balance is the low account's. -/
structure RippleState where
  flags : Flags := 0
  balance : STAmount := zeroDrops
  lowLimit : STAmount := zeroDrops
  highLimit : STAmount := zeroDrops
  lowNode : Option UInt64 := none
  highNode : Option UInt64 := none
  lowQualityIn : Option UInt32 := none
  lowQualityOut : Option UInt32 := none
  highQualityIn : Option UInt32 := none
  highQualityOut : Option UInt32 := none
  deriving DecidableEq

/-- An owner directory, or offers of one quality. -/
inductive DirRoot where
  | owner (id : AccountID)
  | book (book : Book) (rate : UInt64)
  deriving DecidableEq

structure Offer where
  flags : Flags := 0
  takerPays : STAmount
  takerGets : STAmount
  bookDirectory : DirRoot
  bookNode : UInt64
  ownerNode : UInt64
  expiration : Option UInt32 := none
  deriving DecidableEq

inductive Key where
  | account (id : AccountID)
  | dir (root : DirRoot) (page : UInt64)
  | line (low high : AccountID) (currency : Currency)
  | offer (id : AccountID) (sequence : UInt32)
  | ticket (id : AccountID) (sequence : UInt32)
  | signers (id : AccountID)
  | amendments
  | fees
  | dividend
  deriving DecidableEq

structure DirNode where
  indexes : List Key := []
  indexNext : UInt64 := 0
  indexPrevious : UInt64 := 0
  deriving DecidableEq

structure Ticket where
  ownerNode : UInt64
  target : Option AccountID := none
  expiration : Option UInt32 := none
  deriving DecidableEq

structure SignerEntry where
  account : AccountID
  weight : UInt16
  deriving DecidableEq

structure SignerList where
  ownerNode : UInt64
  signerQuorum : UInt32
  signerEntries : List SignerEntry
  deriving DecidableEq

structure Amendments where
  amendments : List UInt256 := []
  /-- Amendments and the close time of their majority. -/
  majorities : Option (List (UInt256 × UInt32)) := none
  deriving DecidableEq

structure FeeSettings where
  baseFee : UInt64 := 0
  referenceFeeUnits : UInt32 := 0
  reserveBase : UInt32 := 0
  reserveIncrement : UInt32 := 0
  deriving DecidableEq

structure DividendEntry where
  dividendState : UInt8 := 0
  dividendLedger : UInt32 := 0
  dividendCoins : UInt64 := 0
  deriving DecidableEq

@[reducible]
def Entry : Key → Type
  | .account _ => AccountRoot
  | .dir _ _ => DirNode
  | .line _ _ _ => RippleState
  | .offer _ _ => Offer
  | .ticket _ _ => Ticket
  | .signers _ => SignerList
  | .amendments => Amendments
  | .fees => FeeSettings
  | .dividend => DividendEntry

abbrev Ledger := AList Entry

variable (a b : AccountID)

def lowAccount : AccountID := if a < b then a else b

def highAccount : AccountID := if a < b then b else a

/-- The line between two accounts, in any order. -/
def Key.rippleState (currency : Currency) : Key :=
  .line (lowAccount a b) (highAccount a b) currency

end Sand
