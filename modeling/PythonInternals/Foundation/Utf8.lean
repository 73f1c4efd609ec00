import Mathlib.Data.Nat.Notation
import Mathlib.Tactic.SplitIfs

/-!
# UTF-8 read byte by byte

`encode s` is the string of the UTF-8 bytes of the characters `s`, and `latin1 b` is the
character whose code is the byte `b`.  The bytes of characters other than NUL are not zero
(`encode_ne_zero`).  Reading every byte as a character of its own gives back `s` when all its
characters are in ASCII, and only then (`map_latin1_encode`): any other character takes more
than one byte.
-/

namespace Utf8

/-- The UTF-8 bytes of the characters. -/
def encode (s : List Char) : List UInt8 := s.flatMap String.utf8EncodeChar

/-- The character whose code is the byte. -/
def latin1 (b : UInt8) : Char := Char.ofNat b.toNat

/-- All characters are in ASCII. -/
def Ascii (s : List Char) : Prop := ∀ c ∈ s, c.toNat < 128

instance (s : List Char) : Decidable (Ascii s) :=
  inferInstanceAs (Decidable (∀ c ∈ s, c.toNat < 128))

theorem ascii_cons {c : Char} {s : List Char} :
  Ascii (c :: s) ↔ c.toNat < 128 ∧ Ascii s
  := List.forall_mem_cons

/-! ### The bytes of a character -/

theorem ofNat_ne_zero {n : ℕ} (h : n % 256 ≠ 0) :
  UInt8.ofNat n ≠ 0
  := by
  intro hzero
  apply h
  rw [← UInt8.toNat_ofNat', hzero]
  rfl

theorem encodeChar_ne_zero {c : Char} (hc : c ≠ '\x00') :
  ∀ b ∈ String.utf8EncodeChar c, b ≠ 0
  := by
  have hcode : c.val.toNat ≠ 0 := by
    intro h
    apply hc
    rw [← Char.ofNat_toNat c, ← Char.toNat_val, h]
  -- every byte of a longer code has its high bits set
  intro b hb
  simp only [String.utf8EncodeChar] at hb
  split_ifs at hb
  all_goals
    simp only [List.mem_cons, List.not_mem_nil, or_false] at hb
    rcases hb with rfl | rfl | rfl | rfl <;> apply ofNat_ne_zero <;> omega

/-- Only the character NUL has a byte that is zero. -/
theorem encode_ne_zero {s : List Char} (hs : ∀ c ∈ s, c ≠ '\x00') :
  ∀ b ∈ encode s, b ≠ 0
  := by
  intro b hb
  obtain ⟨c, hc, hb⟩ := List.mem_flatMap.mp hb
  apply encodeChar_ne_zero (hs c hc) b hb

theorem utf8Size_eq_one_iff (c : Char) :
  c.utf8Size = 1 ↔ c.toNat < 128
  := by
  rw [Char.utf8Size_eq_one_iff, UInt32.le_iff_toNat_le]
  apply Nat.lt_succ_iff.symm

theorem length_encode_cons (c : Char) (s : List Char) :
  (encode (c :: s)).length = c.utf8Size + (encode s).length
  := by
  rw [encode, List.flatMap_cons, List.length_append, String.length_utf8EncodeChar]
  rfl

theorem length_le_length_encode (s : List Char) :
  s.length ≤ (encode s).length
  := by
  induction s with
  | nil => apply Nat.zero_le
  | cons c s ih =>
      have hsize := c.utf8Size_pos
      rw [length_encode_cons, List.length_cons]
      omega

/-- Characters that take one byte each are in ASCII. -/
theorem ascii_of_length_encode {s : List Char} (h : (encode s).length = s.length) :
  Ascii s
  := by
  induction s with
  | nil =>
      intro c hc
      cases hc
  | cons c s ih =>
      have hsize := c.utf8Size_pos
      have hle := length_le_length_encode s
      rw [length_encode_cons, List.length_cons] at h
      apply ascii_cons.mpr
      constructor
      · apply (utf8Size_eq_one_iff c).mp
        omega
      · apply ih
        omega

theorem map_latin1_encodeChar {c : Char} (hc : c.toNat < 128) :
  (String.utf8EncodeChar c).map latin1 = [c]
  := by
  have hsmall : c.val.toNat ≤ 127 := Nat.le_of_lt_succ hc
  have hbyte : c.val.toNat % 2 ^ 8 = c.toNat := Nat.mod_eq_of_lt (by omega)
  rw [String.utf8EncodeChar, if_pos hsmall, List.map_singleton, latin1, UInt8.toNat_ofNat',
    hbyte, Char.ofNat_toNat]

/-- Reading UTF-8 byte by byte gives back the characters exactly when they are in ASCII. -/
theorem map_latin1_encode (s : List Char) :
  (encode s).map latin1 = s ↔ Ascii s
  := by
  constructor
  · intro h
    apply ascii_of_length_encode
    rw [← List.length_map latin1, h]
  · intro h
    induction s with
    | nil => rfl
    | cons c s ih =>
        obtain ⟨hc, hs⟩ := ascii_cons.mp h
        rw [encode, List.flatMap_cons, List.map_append, map_latin1_encodeChar hc]
        apply congrArg (c :: ·) (ih hs)

end Utf8
