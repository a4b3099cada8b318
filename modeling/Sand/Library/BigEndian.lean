import Mathlib.Data.List.Induction
import Mathlib.Tactic.Ring

/-!
# Big-endian byte strings

The bytes of a number, most significant first, and the number of a byte string.
-/

namespace BigEndian

def bytes : ℕ → ℕ → List UInt8
  | 0, _ => []
  | n + 1, x => bytes n (x / 256) ++ [UInt8.ofNat x]

def value (l : List UInt8) : ℕ :=
  l.foldl (fun x b => x * 256 + b.toNat) 0

@[simp]
theorem length_bytes (n x : ℕ) : (bytes n x).length = n := by
  induction n generalizing x with
  | zero => rfl
  | succ n ih => simp [bytes, ih]

theorem value_concat (l : List UInt8) (b : UInt8) : value (l ++ [b]) = value l * 256 + b.toNat := by
  simp [value]

theorem value_bytes (n x : ℕ) : value (bytes n x) = x % 256 ^ n := by
  induction n generalizing x with
  | zero => simp [bytes, value, Nat.mod_one]
  | succ n ih =>
    have hs : x % 256 ^ (n + 1) = x % 256 + 256 * (x / 256 % 256 ^ n) := by
      rw [pow_succ', Nat.mod_mul]
    rw [bytes, value_concat, ih, hs, UInt8.toNat_ofNat']
    omega

theorem getElem?_bytes {n i : ℕ} (x : ℕ) (hi : i < n) :
    (bytes n x)[i]? = some (UInt8.ofNat (x / 256 ^ (n - 1 - i))) := by
  induction n generalizing x with
  | zero => omega
  | succ n ih =>
    rw [bytes]
    rcases Nat.lt_succ_iff_lt_or_eq.mp hi with hlt | rfl
    · have he : n + 1 - 1 - i = n - 1 - i + 1 := by omega
      rw [List.getElem?_append_left (by simpa using hlt), ih _ hlt, he, pow_succ',
        Nat.div_div_eq_div_mul]
    · simp

end BigEndian
