import Mathlib.Data.List.TakeWhile
import Mathlib.Data.Nat.Digits.Lemmas
import Sand.Protocol.Types

/-!
# Currencies in text

A currency is the system's, a code of three characters, or forty hexadecimal digits.
-/

namespace Sand.Currency

open List Nat Char

def systemCurrencyCode : List Char := ['S', 'A', 'N']

def allowed (c : Char) : Bool :=
  c.isAlphanum || c ∈ ['<', '>', '(', ')', '\x7b', '\x7d', '[', ']', '|', '?', '!', '@', '#', '$',
    '%', '^', '&', '*']

def sIsoBits : Currency := 0xFFFFFFFFFFFFFFFFFFFFFFFF000000FFFFFFFFFF

/-- The characters at offset 12. -/
def iso (currency : Currency) : List Char :=
  [56, 48, 40].map fun bit => .ofNat (currency.toNat / 2 ^ bit % 256)

def isIso (currency : Currency) : Bool :=
  currency &&& sIsoBits == 0 && iso currency != systemCurrencyCode && (iso currency).all allowed

def charHex (digit : ℕ) : Char := .ofNat (if digit < 10 then 48 + digit else 55 + digit)

def strHex (currency : Currency) : List Char :=
  (range 40).reverse.map fun i => charHex (currency.toNat / 16 ^ i % 16)

def text (currency : Currency) : List Char :=
  if currency = 0 then systemCurrencyCode
  else if currency = noCurrency then ['1']
  else if isIso currency then iso currency
  else strHex currency

def charUnHex (c : Char) : Option ℕ :=
  if '0' ≤ c ∧ c ≤ '9' then some (c.toNat - 48)
  else if 'A' ≤ c ∧ c ≤ 'F' then some (c.toNat - 55)
  else if 'a' ≤ c ∧ c ≤ 'f' then some (c.toNat - 87)
  else none

def skip0x : List Char → List Char
  | '0' :: 'x' :: s | '0' :: 'X' :: s => s
  | s => s

def isSpace (c : Char) : Bool := c.isWhitespace || c = '\x0b' || c = '\x0c'

/-- Only the last digits count, and a zero ends the text. -/
def setHex (s : List Char) : Option Currency :=
  let (digits, rest) := (skip0x (s.dropWhile isSpace)).span (charUnHex · |>.isSome)
  if rest.headD '\x00' = '\x00' then
    some (.ofNat 160 (ofDigits 16 (digits.reverse.filterMap charUnHex)))
  else none

/-- `to_currency`, with `f` for `toupper`. -/
def readWith (f : Char → Char) (code : List Char) : Option Currency :=
  if code = [] ∨ code = systemCurrencyCode then some 0
  else
    match code with
    | [x, y, z] =>
      some (.ofNat 160 (((f x).toNat * 2 ^ 16 + (f y).toNat * 2 ^ 8 + (f z).toNat) * 2 ^ 40))
    | code => if code.length = 40 then setHex code else none

def toCurrency : List Char → Option Currency := readWith toUpper

theorem charUnHex_charHex {d : ℕ} (hd : d < 16) :
    charUnHex (charHex d) = some d ∧ isSpace (charHex d) = false ∧ charHex d ≠ 'x' ∧
      charHex d ≠ 'X' := by
  revert d
  decide

theorem ofDigits_range (n k : ℕ) :
    ofDigits 16 ((range k).map fun i => n / 16 ^ i % 16) = n % 16 ^ k := by
  induction k with
  | zero => simp [mod_one]
  | succ k ih =>
    rw [range_succ, map_append, ofDigits_append, ih, mod_pow_succ]
    simp

theorem setHex_strHex (currency : Currency) : setHex (strHex currency) = some currency := by
  have hdi : ∀ c ∈ strHex currency, ∃ d < 16, c = charHex d := by
    intro c hc
    obtain ⟨i, -, rfl⟩ := List.mem_map.mp hc
    exact ⟨_, mod_lt _ (by decide), rfl⟩
  have hsp : (strHex currency).dropWhile isSpace = strHex currency := by
    refine List.dropWhile_eq_self_iff.mpr fun hp => ?_
    obtain ⟨d, hd, heq⟩ := hdi _ (getElem_mem hp)
    simp [heq, (charUnHex_charHex hd).2.1]
  have hsk : skip0x (strHex currency) = strHex currency := by
    unfold skip0x
    split
    · next heq =>
      obtain ⟨d, hd, hx⟩ := hdi 'x' (by simp [heq])
      exact absurd hx.symm (charUnHex_charHex hd).2.2.1
    · next heq =>
      obtain ⟨d, hd, hx⟩ := hdi 'X' (by simp [heq])
      exact absurd hx.symm (charUnHex_charHex hd).2.2.2
    · rfl
  have hhe : ∀ c ∈ strHex currency, (charUnHex c).isSome := by
    intro c hc
    obtain ⟨d, hd, rfl⟩ := hdi c hc
    rw [(charUnHex_charHex hd).1]
    rfl
  have hv : (strHex currency).reverse.filterMap charUnHex =
      (range 40).map fun i => currency.toNat / 16 ^ i % 16 := by
    rw [strHex, ← map_reverse, reverse_reverse, filterMap_map, ← filterMap_eq_map]
    congr 1
    funext i
    exact (charUnHex_charHex (mod_lt _ (by decide))).1
  rw [setHex, hsp, hsk, span_eq_takeWhile_dropWhile, List.takeWhile_eq_self_iff.mpr hhe,
    List.dropWhile_eq_nil_iff.mpr hhe]
  dsimp only
  rw [headD_nil, if_pos rfl, hv, ofDigits_range]
  congr 1
  apply BitVec.eq_of_toNat_eq
  rw [BitVec.toNat_ofNat]
  omega

theorem iso_eq {cur : Currency} (h : isIso cur) :
    ∃ x y z : Char, x.toNat < 256 ∧ y.toNat < 256 ∧ z.toNat < 256 ∧ iso cur = [x, y, z] ∧
      cur.toNat = (x.toNat * 2 ^ 16 + y.toNat * 2 ^ 8 + z.toNat) * 2 ^ 40 := by
  have hch : ∀ n < 256, (ofNat n).toNat = n := by decide +kernel
  have hb (bit : ℕ) := hch (cur.toNat / 2 ^ bit % 256) (mod_lt _ (by decide))
  simp only [isIso, Bool.and_eq_true, beq_iff_eq] at h
  have hand : cur.toNat &&& (2 ^ 160 - 2 ^ 64 + 2 ^ 40 - 1) = 0 := congrArg BitVec.toNat h.1.1
  have hlo : cur.toNat &&& (2 ^ 40 - 1) = 0 := by
    have hm := congrArg (· &&& (2 ^ 40 - 1)) hand
    rwa [Nat.and_assoc] at hm
  have hh : cur.toNat >>> 64 &&& (2 ^ 96 - 1) = 0 := by
    have hm := congrArg (· >>> 64) hand
    rwa [shiftRight_and_distrib] at hm
  rw [and_two_pow_sub_one_eq_mod] at hlo hh
  rw [shiftRight_eq_div_pow] at hh
  refine ⟨_, _, _, ?_, ?_, ?_, rfl, ?_⟩ <;> simp only [hb] <;> omega

theorem readWith_iso {f : Char → Char} (hf : ∀ c : Char, c.toNat < 256 → (f c).toNat < 256)
    {cur : Currency} (h : isIso cur) :
    readWith f (iso cur) = some cur ↔ ∀ c ∈ iso cur, f c = c := by
  have hs : iso cur ≠ systemCurrencyCode := by
    simp only [isIso, Bool.and_eq_true, bne_iff_ne] at h
    exact h.1.2
  obtain ⟨x, y, z, hx, hy, hz, hi, hv⟩ := iso_eq h
  have hx' := hf x hx
  have hy' := hf y hy
  have hz' := hf z hz
  rw [hi] at hs ⊢
  rw [readWith, if_neg (by simp [hs])]
  simp only [Option.some.injEq, ← BitVec.toNat_inj, BitVec.toNat_ofNat, hv, forall_mem_cons,
    ← toNat_inj]
  constructor
  · intro heq
    exact ⟨by omega, by omega, by omega, nofun⟩
  · rintro ⟨hx, hy, hz, -⟩
    rw [hx, hy, hz]
    omega

theorem readWith_text {f : Char → Char} {currency : Currency} (hno : currency ≠ noCurrency) :
    readWith f (text currency) =
      if isIso currency then readWith f (iso currency) else some currency := by
  have hze : isIso 0 = false := by decide
  unfold text
  split_ifs with h0 hi
  · rw [h0, hze] at hi
    cases hi
  · rw [h0]
    rfl
  · rfl
  · have hl : (strHex currency).length = 40 := by simp [strHex]
    have hco : ¬ (strHex currency = [] ∨ strHex currency = systemCurrencyCode) := by
      rintro (h | h) <;> simp [h, systemCurrencyCode] at hl
    unfold readWith
    rw [if_neg hco, ← setHex_strHex]
    rfl

theorem readWith_id (currency : Currency) :
    readWith id (text currency) = if currency = noCurrency then none else some currency := by
  split_ifs with hno
  · rw [hno]
    rfl
  · rw [readWith_text hno]
    split_ifs with hi
    · exact (readWith_iso (fun _ => id) hi).mpr fun _ _ => rfl
    · rfl

theorem text_injective : Function.Injective text := by
  intro currency currency' h
  have hr := congrArg (readWith id) h
  rw [readWith_id, readWith_id] at hr
  grind

/-- Texts are read back, except for codes with a lower-case letter, and tell currencies apart. -/
theorem text_survives_iff (currency : Currency) :
    ((currency ≠ noCurrency → toCurrency (text currency) = some currency) ∧
        ∀ currency', text currency' = text currency → currency' = currency) ↔
      (isIso currency → ∀ c ∈ iso currency, c.toUpper = c) := by
  have hb : ∀ n < 256, (ofNat n).toUpper.toNat < 256 := by decide +kernel
  have hu (c : Char) (hc : c.toNat < 256) : c.toUpper.toNat < 256 := by
    simpa using hb c.toNat hc
  rw [and_iff_left fun currency' h => text_injective h]
  by_cases hno : currency = noCurrency
  · have hi : isIso noCurrency = false := by decide
    simp [hno, hi]
  · simp only [ne_eq, hno, not_false_eq_true, forall_const, toCurrency, readWith_text hno]
    split_ifs with hi
    · simp [readWith_iso hu hi, hi]
    · simp [hi]

/-- The code "usd". -/
def lowerCase : Currency := 0x7573640000000000

theorem lowerCase_not_read :
    lowerCase ≠ noCurrency ∧ toCurrency (text lowerCase) ≠ some lowerCase := by
  decide

end Sand.Currency
