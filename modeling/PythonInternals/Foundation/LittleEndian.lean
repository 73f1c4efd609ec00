import Mathlib.Data.List.OfFn
import Mathlib.Data.Nat.Digits.Defs

/-!
# Little-endian byte strings

`bytes w n` is the string of the `w` low bytes of `n`, the lowest first, and `value bs` is
the number whose bytes are `bs`.  The number is read back from its bytes when they are
enough for it (`value_bytes`), and else what its low bytes make (`value_bytes_mod`).
-/

namespace LittleEndian

/-- The number with the given bytes, the lowest first. -/
def value (bs : List UInt8) : ℕ := Nat.ofDigits 256 (bs.map UInt8.toNat)

/-- The `w` low bytes of `n`, the lowest first. -/
def bytes (w n : ℕ) : List UInt8 :=
  List.ofFn (fun i : Fin w => UInt8.ofNat (n / 256 ^ (i : ℕ)))

@[simp]
theorem length_bytes (w n : ℕ) :
  (bytes w n).length = w
  := List.length_ofFn

theorem bytes_succ (w n : ℕ) :
  bytes (w + 1) n = UInt8.ofNat n :: bytes w (n / 256)
  := by
  rw [bytes, List.ofFn_succ]
  simp only [bytes, Fin.val_zero, pow_zero, Nat.div_one, Fin.val_succ, pow_succ',
    Nat.div_div_eq_div_mul]

/-- The bytes of a number below `256 ^ w` give back the number. -/
theorem value_bytes {w n : ℕ} (hn : n < 256 ^ w) :
  value (bytes w n) = n
  := by
  induction w generalizing n with
  | zero =>
      obtain rfl : n = 0 := by simpa using hn
      rfl
  | succ w ih =>
      have hdiv : n / 256 < 256 ^ w := by
        rw [pow_succ] at hn
        apply Nat.div_lt_of_lt_mul
        rwa [Nat.mul_comm]
      rw [bytes_succ, value, List.map_cons, Nat.ofDigits_cons]
      have hrest := ih hdiv
      rw [value] at hrest
      rw [hrest, UInt8.toNat_ofNat']
      omega

/-- The bytes of a number give back the number up to a power of 256. -/
theorem value_bytes_mod (w n : ℕ) :
  value (bytes w n) = n % 256 ^ w
  := by
  induction w generalizing n with
  | zero =>
      rw [pow_zero, Nat.mod_one]
      rfl
  | succ w ih =>
      have hrest := ih (n / 256)
      rw [value] at hrest
      rw [bytes_succ, value, List.map_cons, Nat.ofDigits_cons, hrest, UInt8.toNat_ofNat',
        pow_succ' 256 w]
      exact Nat.mod_mul.symm

/-- The low bytes come first. -/
theorem bytes_add (v w n : ℕ) :
  bytes (v + w) n = bytes v n ++ bytes w (n / 256 ^ v)
  := by
  induction v generalizing n with
  | zero =>
      rw [Nat.zero_add, pow_zero, Nat.div_one]
      rfl
  | succ v ih =>
      rw [Nat.succ_add, bytes_succ, bytes_succ, ih, List.cons_append, Nat.div_div_eq_div_mul,
        pow_succ']

end LittleEndian
