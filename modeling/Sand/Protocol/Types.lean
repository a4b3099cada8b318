import Mathlib.Data.BitVec

/-!
# Protocol types

Account identifiers, currencies, issues and books, and the engine result codes.
-/

namespace Sand

/-- Compared as a big-endian number. -/
abbrev AccountID := BitVec 160

abbrev Currency := BitVec 160

abbrev UInt256 := BitVec 256

instance : LawfulBEq UInt256 := inferInstance

/-- A C++ exception, which `ripple::apply` catches, or a `LogicError` or null dereference, which
ends the process. -/
inductive Fault where
  | exception
  | crash
  deriving DecidableEq

/-- Public keys, signatures and signed data. -/
abbrev Blob := List UInt8

/-- Flag words of transactions and ledger entries. -/
abbrev Flags := BitVec 32

/-- As `(flags & mask) != 0`. -/
def Flags.has (flags mask : Flags) : Bool :=
  flags &&& mask != 0

/-- Sets, clears or leaves a flag; setting comes first. -/
def Flags.change (flags : Flags) (set clear : Bool) (flag : Flags) : Flags :=
  if set then flags ||| flag else if clear then flags &&& ~~~flag else flags

variable {mask flags : Flags}

theorem Flags.has_or (fgs ad mask : Flags) :
    (fgs ||| ad).has mask = (fgs.has mask || ad.has mask) := by
  have hs : (fgs ||| ad) &&& mask = (fgs &&& mask) ||| (ad &&& mask) := by
    rw [BitVec.and_comm, BitVec.and_or_distrib_left, BitVec.and_comm mask, BitVec.and_comm mask]
  have h0 : (fgs &&& mask) ||| (ad &&& mask) = 0 ↔ fgs &&& mask = 0 ∧ ad &&& mask = 0 :=
    BitVec.or_eq_zero_iff
  unfold Flags.has
  rw [Bool.eq_iff_iff, Bool.or_eq_true, bne_iff_ne, bne_iff_ne, bne_iff_ne, hs, ne_eq, h0]
  tauto

variable {removed : Flags}

theorem Flags.has_clear_of_disjoint (fgs : Flags) (h : removed &&& mask = 0) :
    (fgs &&& ~~~removed).has mask = fgs.has mask := by
  have hma : ~~~removed &&& mask = mask := by
    ext i hi
    have hb : (removed[i] && mask[i]) = false := by
      rw [← BitVec.getElem_and, h]
      simp
    cases hm : mask[i] <;> simp_all
  simp [Flags.has, BitVec.and_assoc, hma]

theorem Flags.has_of_has_clear (h : (flags &&& ~~~removed).has mask) : flags.has mask := by
  simp only [Flags.has, bne_iff_ne, ne_eq] at h ⊢
  intro h0
  apply h
  rw [BitVec.and_assoc, BitVec.and_comm _ mask, ← BitVec.and_assoc, h0]
  simp

variable {flag : Flags}

theorem Flags.has_of_has_change {set clear : Bool} (h : (flags.change set clear flag).has mask) :
    flags.has mask ∨ set ∧ flag.has mask := by
  unfold Flags.change at h
  split at h
  · next hse =>
      rw [Flags.has_or, Bool.or_eq_true] at h
      exact h.imp_right fun hf => ⟨hse, hf⟩
  · split at h
    · exact .inl (Flags.has_of_has_clear h)
    · exact .inl h

theorem Flags.has_change_of_disjoint (fgs : Flags) (set clear : Bool) (h : flag &&& mask = 0) :
    (fgs.change set clear flag).has mask = fgs.has mask := by
  unfold Flags.change
  split
  · rw [Flags.has_or]
    simp [Flags.has, h]
  · split
    · exact Flags.has_clear_of_disjoint fgs h
    · rfl

theorem Flags.has_change_of_has (set : Bool) (flag : Flags) (h : flags.has mask) :
    (flags.change set false flag).has mask := by
  unfold Flags.change
  split
  · rw [Flags.has_or, h, Bool.true_or]
  · exact h

def xrpAccount : AccountID := 0

def noAccount : AccountID := 1

def xrpCurrency : Currency := 0

def noCurrency : Currency := 1

def badCurrency : Currency := 0x5852500000000000

/-- Native exactly when zero. -/
def isXRP (id : BitVec 160) : Bool :=
  id == 0

structure Issue where
  currency : Currency
  account : AccountID
  deriving DecidableEq

def xrpIssue : Issue := ⟨xrpCurrency, xrpAccount⟩

def noIssue : Issue := ⟨noCurrency, noAccount⟩

/-- For the native currency the account is not compared. -/
def Issue.same (lhs rhs : Issue) : Bool :=
  lhs.currency == rhs.currency && (isXRP lhs.currency || lhs.account == rhs.account)

def Issue.isConsistent (issue : Issue) : Bool :=
  isXRP issue.currency == isXRP issue.account

/-- What the taker pays in and gets out. -/
structure Book where
  input : Issue
  output : Issue
  deriving DecidableEq

/-! ## Engine results -/

inductive TER where
  | telLOCAL_ERROR | telBAD_DOMAIN | telBAD_PATH_COUNT | telBAD_PUBLIC_KEY
  | telFAILED_PROCESSING | telINSUF_FEE_P | telNO_DST_PARTIAL
  | temMALFORMED | temBAD_AMOUNT | temBAD_CURRENCY | temBAD_EXPIRATION | temBAD_FEE
  | temBAD_ISSUER | temBAD_LIMIT | temBAD_OFFER | temBAD_PATH | temBAD_PATH_LOOP
  | temBAD_SEND_XRP_LIMIT | temBAD_SEND_XRP_MAX | temBAD_SEND_XRP_NO_DIRECT
  | temBAD_SEND_XRP_PARTIAL | temBAD_SEND_XRP_PATHS | temBAD_SEQUENCE | temBAD_SIGNATURE
  | temBAD_SRC_ACCOUNT | temBAD_TRANSFER_RATE | temDST_IS_SRC | temDST_NEEDED | temINVALID
  | temINVALID_FLAG | temREDUNDANT | temRIPPLE_EMPTY | temDISABLED | temBAD_DIV_TYPE
  | temBAD_SIGNER | temBAD_QUORUM | temUNCERTAIN | temUNKNOWN
  | tefFAILURE | tefALREADY | tefBAD_ADD_AUTH | tefBAD_AUTH | tefBAD_LEDGER | tefCREATED
  | tefEXCEPTION | tefINTERNAL | tefNO_AUTH_REQUIRED | tefPAST_SEQ | tefWRONG_PRIOR
  | tefMASTER_DISABLED | tefMAX_LEDGER | tefBAD_SIGNATURE | tefBAD_QUORUM
  | tefNOT_MULTI_SIGNING | tefBAD_AUTH_MASTER
  | terRETRY | terFUNDS_SPENT | terINSUF_FEE_B | terNO_ACCOUNT | terNO_AUTH | terNO_LINE
  | terOWNERS | terPRE_SEQ | terLAST | terNO_RIPPLE
  | tesSUCCESS
  | tecCLAIM | tecPATH_PARTIAL | tecUNFUNDED_ADD | tecUNFUNDED_OFFER | tecUNFUNDED_PAYMENT
  | tecFAILED_PROCESSING | tecDIR_FULL | tecINSUF_RESERVE_LINE | tecINSUF_RESERVE_OFFER
  | tecNO_DST | tecNO_DST_INSUF_XRP | tecNO_LINE_INSUF_RESERVE | tecNO_LINE_REDUNDANT
  | tecPATH_DRY | tecUNFUNDED | tecMASTER_DISABLED | tecNO_REGULAR_KEY | tecOWNERS
  | tecNO_ISSUER | tecNO_AUTH | tecNO_LINE | tecINSUFF_FEE | tecFROZEN | tecNO_TARGET
  | tecNO_PERMISSION | tecNO_ENTRY | tecINSUFFICIENT_RESERVE | tecNEED_MASTER_KEY
  | tecDST_TAG_NEEDED | tecINTERNAL | tecOVERSIZE
  deriving DecidableEq

namespace TER

/-- Only the fee-claiming codes are protocol values. -/
def code : TER → Int
  | telLOCAL_ERROR => -399 | telBAD_DOMAIN => -398 | telBAD_PATH_COUNT => -397
  | telBAD_PUBLIC_KEY => -396 | telFAILED_PROCESSING => -395 | telINSUF_FEE_P => -394
  | telNO_DST_PARTIAL => -393
  | temMALFORMED => -299 | temBAD_AMOUNT => -298 | temBAD_CURRENCY => -297
  | temBAD_EXPIRATION => -296 | temBAD_FEE => -295 | temBAD_ISSUER => -294
  | temBAD_LIMIT => -293 | temBAD_OFFER => -292 | temBAD_PATH => -291
  | temBAD_PATH_LOOP => -290 | temBAD_SEND_XRP_LIMIT => -289 | temBAD_SEND_XRP_MAX => -288
  | temBAD_SEND_XRP_NO_DIRECT => -287 | temBAD_SEND_XRP_PARTIAL => -286
  | temBAD_SEND_XRP_PATHS => -285 | temBAD_SEQUENCE => -284 | temBAD_SIGNATURE => -283
  | temBAD_SRC_ACCOUNT => -282 | temBAD_TRANSFER_RATE => -281 | temDST_IS_SRC => -280
  | temDST_NEEDED => -279 | temINVALID => -278 | temINVALID_FLAG => -277
  | temREDUNDANT => -276 | temRIPPLE_EMPTY => -275 | temDISABLED => -274
  | temBAD_DIV_TYPE => -273 | temBAD_SIGNER => -272 | temBAD_QUORUM => -271
  | temUNCERTAIN => -270 | temUNKNOWN => -269
  | tefFAILURE => -199 | tefALREADY => -198 | tefBAD_ADD_AUTH => -197 | tefBAD_AUTH => -196
  | tefBAD_LEDGER => -195 | tefCREATED => -194 | tefEXCEPTION => -193 | tefINTERNAL => -192
  | tefNO_AUTH_REQUIRED => -191 | tefPAST_SEQ => -190 | tefWRONG_PRIOR => -189
  | tefMASTER_DISABLED => -188 | tefMAX_LEDGER => -187 | tefBAD_SIGNATURE => -186
  | tefBAD_QUORUM => -185 | tefNOT_MULTI_SIGNING => -184 | tefBAD_AUTH_MASTER => -183
  | terRETRY => -99 | terFUNDS_SPENT => -98 | terINSUF_FEE_B => -97 | terNO_ACCOUNT => -96
  | terNO_AUTH => -95 | terNO_LINE => -94 | terOWNERS => -93 | terPRE_SEQ => -92
  | terLAST => -91 | terNO_RIPPLE => -90
  | tesSUCCESS => 0
  | tecCLAIM => 100 | tecPATH_PARTIAL => 101 | tecUNFUNDED_ADD => 102
  | tecUNFUNDED_OFFER => 103 | tecUNFUNDED_PAYMENT => 104 | tecFAILED_PROCESSING => 105
  | tecDIR_FULL => 121 | tecINSUF_RESERVE_LINE => 122 | tecINSUF_RESERVE_OFFER => 123
  | tecNO_DST => 124 | tecNO_DST_INSUF_XRP => 125 | tecNO_LINE_INSUF_RESERVE => 126
  | tecNO_LINE_REDUNDANT => 127 | tecPATH_DRY => 128 | tecUNFUNDED => 129
  | tecMASTER_DISABLED => 130 | tecNO_REGULAR_KEY => 131 | tecOWNERS => 132
  | tecNO_ISSUER => 133 | tecNO_AUTH => 134 | tecNO_LINE => 135 | tecINSUFF_FEE => 136
  | tecFROZEN => 137 | tecNO_TARGET => 138 | tecNO_PERMISSION => 139 | tecNO_ENTRY => 140
  | tecINSUFFICIENT_RESERVE => 141 | tecNEED_MASTER_KEY => 142 | tecDST_TAG_NEEDED => 143
  | tecINTERNAL => 144 | tecOVERSIZE => 145

variable (ter : TER)

def isTesSuccess : Bool :=
  ter == tesSUCCESS

def isTecClaim : Bool :=
  decide (tecCLAIM.code ≤ ter.code)

def isTemMalformed : Bool :=
  decide (temMALFORMED.code ≤ ter.code) && decide (ter.code < tefFAILURE.code)

def isTelLocal : Bool :=
  decide (telLOCAL_ERROR.code ≤ ter.code) && decide (ter.code < temMALFORMED.code)

def isTefFailure : Bool :=
  decide (tefFAILURE.code ≤ ter.code) && decide (ter.code < terRETRY.code)

def isTerRetry : Bool :=
  decide (terRETRY.code ≤ ter.code) && decide (ter.code < tesSUCCESS.code)

end TER

/-! ## Flag words -/

def tfFullyCanonicalSig : Flags := 0x80000000
def tfUniversal : Flags := tfFullyCanonicalSig

-- AccountSet
def tfRequireDestTag : Flags := 0x00010000
def tfOptionalDestTag : Flags := 0x00020000
def tfRequireAuth : Flags := 0x00040000
def tfOptionalAuth : Flags := 0x00080000
def tfDisallowXRP : Flags := 0x00100000
def tfAllowXRP : Flags := 0x00200000

-- OfferCreate
def tfPassive : Flags := 0x00010000
def tfImmediateOrCancel : Flags := 0x00020000
def tfFillOrKill : Flags := 0x00040000
def tfSell : Flags := 0x00080000

-- Payment
def tfNoRippleDirect : Flags := 0x00010000
def tfPartialPayment : Flags := 0x00020000
def tfLimitQuality : Flags := 0x00040000

-- TrustSet
def tfSetfAuth : Flags := 0x00010000
def tfSetNoRipple : Flags := 0x00020000
def tfClearNoRipple : Flags := 0x00040000
def tfSetFreeze : Flags := 0x00100000
def tfClearFreeze : Flags := 0x00200000

-- EnableAmendment
def tfGotMajority : Flags := 0x00010000
def tfLostMajority : Flags := 0x00020000

-- account roots
def lsfPasswordSpent : Flags := 0x00010000
def lsfRequireDestTag : Flags := 0x00020000
def lsfRequireAuth : Flags := 0x00040000
def lsfDisallowXRP : Flags := 0x00080000
def lsfDisableMaster : Flags := 0x00100000
def lsfNoFreeze : Flags := 0x00200000
def lsfGlobalFreeze : Flags := 0x00400000
def lsfDefaultRipple : Flags := 0x00800000

-- offers
def lsfPassive : Flags := 0x00010000
def lsfSell : Flags := 0x00020000

-- trust lines
def lsfLowReserve : Flags := 0x00010000
def lsfHighReserve : Flags := 0x00020000
def lsfLowAuth : Flags := 0x00040000
def lsfHighAuth : Flags := 0x00080000
def lsfLowNoRipple : Flags := 0x00100000
def lsfHighNoRipple : Flags := 0x00200000
def lsfLowFreeze : Flags := 0x00400000
def lsfHighFreeze : Flags := 0x00800000

end Sand
