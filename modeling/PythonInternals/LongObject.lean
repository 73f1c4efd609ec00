import Mathlib.Data.Int.Notation
import Mathlib.Data.Nat.Bitwise
import Mathlib.Data.Nat.Digits.Lemmas
import Mathlib.Tactic.Ring
import Mathlib.Tactic.SplitIfs
import PythonInternals.Ctypes
import PythonInternals.Foundation.LittleEndian

/-!
# The layout of integers

The functions of `longobject_demo.py` that read an `int` through its address, and the
layout they assume: at offset 16 the eight bytes of `lv_tag`, from offset 24 the digits in
base `2 ^ 30`, four bytes each.

`PyLong` is an object of that format; its fields carry what the format promises, so that
an object cannot be ill formed.  Reading an object that lies in memory gives back its
fields (`analyzeInt_of_storedAt`), and the loop of `main` folds what is read to the value
of the object (`recovered_analyzeInt`).  The sign and the number of digits are those of the
integer, while `compact` is true of zero only (`analyzeInt_classification`).
-/

namespace LongObject

def PyLong_SHIFT : ℕ := 30

def SIGN_MASK : ℕ := 3

def NON_SIZE_BITS : ℕ := 3

/-! ### Reading an integer -/

/-- The field `lv_tag` of the object at `addr`. -/
def readTag (mem : Memory) (addr : ℕ) : ℕ :=
  LittleEndian.value (mem.stringAt (addr + 16) 8)

/-- `ob_digit[index]` of the object at `addr`. -/
def readDigit (mem : Memory) (addr index : ℕ) : ℕ :=
  LittleEndian.value (mem.stringAt (addr + 24 + index * 4) 4)

/-- `hex(n)`, for a natural number. -/
def hex (n : ℕ) : String := "0x" ++ String.ofList (Nat.toDigits 16 n)

/-- The dictionary that `analyze_int` returns. -/
structure Analysis where
  address : String
  tag : ℕ
  ndigits : ℕ
  sign : ℤ
  digits : List ℕ
  compact : Bool
  isSmallInt : Bool

/-- `sign_map.get(sign_code, 0)`. -/
def signMap : ℕ → ℤ
  | 0 => 1
  | 1 => 0
  | 2 => -1
  | _ => 0

/-- `analyze_int`, of the integer whose object is at `addr`. -/
def analyzeInt (mem : Memory) (addr : ℕ) : Analysis :=
  let tag := readTag mem addr
  let ndigits := tag >>> NON_SIZE_BITS
  let sign_code := tag &&& SIGN_MASK
  let is_small := tag &&& (1 <<< 2) != 0
  let (sign, actual_ndigits) :=
    if ndigits = 0 then (signMap sign_code, 1) else (signMap sign_code, ndigits)
  let digits := (List.range actual_ndigits).map (readDigit mem addr)
  { address := hex addr
    tag := tag
    ndigits := actual_ndigits
    sign := sign
    digits := digits
    compact := ndigits == 0
    isSmallInt := is_small }

/-- The recovery loop of `main`. -/
def recovered (info : Analysis) : ℤ :=
  let recovered := info.digits.zipIdx.foldl
    (fun (recovered : ℤ) (d, i) => recovered + (d <<< (PyLong_SHIFT * i) : ℕ)) 0
  if info.sign < 0 then -recovered else recovered

/-! ### The format -/

/-- The sign of an integer, with its code in the tag. -/
inductive Sign where
  | positive
  | zero
  | negative
  deriving DecidableEq

def Sign.code : Sign → ℕ
  | .positive => 0
  | .zero => 1
  | .negative => 2

def Sign.toInt : Sign → ℤ
  | .positive => 1
  | .zero => 0
  | .negative => -1

/-- The sign of `n`. -/
def Sign.ofInt (n : ℤ) : Sign :=
  if n = 0 then .zero else if n < 0 then .negative else .positive

theorem Sign.ofInt_eq_zero {n : ℤ} :
  Sign.ofInt n = .zero ↔ n = 0
  := by
  rw [Sign.ofInt]
  split_ifs with h h'
  · simp [h]
  · simp [h]
  · simp [h]

/-- An integer is its sign times its absolute value. -/
theorem Sign.toInt_ofInt_mul (n : ℤ) :
  (Sign.ofInt n).toInt * (n.natAbs : ℤ) = n
  := by
  rw [Sign.ofInt]
  split_ifs with h h'
  · rw [h]
    rfl
  · simp only [Sign.toInt]
    omega
  · simp only [Sign.toInt]
    omega

/-- An integer object: its sign, its flag of small integers, and its digits, the lowest
first, without leading zeros and few enough for their number to fit in the tag. -/
structure PyLong where
  sign : Sign
  flag : Bool
  digits : List ℕ
  digit_lt : ∀ d ∈ digits, d < 2 ^ PyLong_SHIFT
  top_ne_zero : ∀ h : digits ≠ [], digits.getLast h ≠ 0
  zero_iff : sign = .zero ↔ digits = []
  length_lt : digits.length < 2 ^ 61

namespace PyLong

/-- The integer that the object stands for. -/
def value (obj : PyLong) : ℤ :=
  obj.sign.toInt * (Nat.ofDigits (2 ^ PyLong_SHIFT) obj.digits : ℕ)

/-- The field `lv_tag`. -/
def tag (obj : PyLong) : ℕ :=
  (obj.digits.length <<< NON_SIZE_BITS) ||| (obj.flag.toNat <<< 2 ||| obj.sign.code)

/-- The field `ob_digit`: zero has no digits, and a single one in memory. -/
def obDigit (obj : PyLong) : List ℕ := if obj.digits = [] then [0] else obj.digits

/-- The bytes of the object from offset 16. -/
def layout (obj : PyLong) : List UInt8 :=
  LittleEndian.bytes 8 obj.tag ++ obj.obDigit.flatMap (LittleEndian.bytes 4)

/-- The object lies at `addr`. -/
def StoredAt (obj : PyLong) (mem : Memory) (addr : ℕ) : Prop :=
  mem.Holds (addr + 16) obj.layout

/-- The flag and the sign fit in the three low bits of the tag. -/
theorem low_bits (obj : PyLong) :
  obj.flag.toNat <<< 2 ||| obj.sign.code = 4 * obj.flag.toNat + obj.sign.code
  := by
  cases obj.flag <;> cases obj.sign <;> rfl

theorem tag_eq (obj : PyLong) :
  obj.tag = 8 * obj.digits.length + (4 * obj.flag.toNat + obj.sign.code)
  := by
  have hlow : 4 * obj.flag.toNat + obj.sign.code < 2 ^ NON_SIZE_BITS := by
    cases obj.flag <;> cases obj.sign <;> decide
  rw [tag, low_bits, ← Nat.shiftLeft_add_eq_or_of_lt hlow, Nat.shiftLeft_eq, NON_SIZE_BITS]
  omega

theorem code_lt (s : Sign) :
  s.code < 3
  := by
  cases s <;> decide

theorem tag_lt (obj : PyLong) :
  obj.tag < 256 ^ 8
  := by
  have hlength := obj.length_lt
  have hflag := Bool.toNat_lt obj.flag
  have hcode := code_lt obj.sign
  rw [tag_eq]
  omega

/-- The number of digits is in the high bits of the tag. -/
theorem tag_shiftRight (obj : PyLong) :
  obj.tag >>> NON_SIZE_BITS = obj.digits.length
  := by
  have hflag := Bool.toNat_lt obj.flag
  have hcode := code_lt obj.sign
  rw [tag_eq, Nat.shiftRight_eq_div_pow, NON_SIZE_BITS]
  omega

/-- The sign is in the two low bits of the tag. -/
theorem tag_and_signMask (obj : PyLong) :
  obj.tag &&& SIGN_MASK = obj.sign.code
  := by
  have hcode := code_lt obj.sign
  have hmask : SIGN_MASK = 2 ^ 2 - 1 := rfl
  rw [tag_eq, hmask, Nat.and_two_pow_sub_one_eq_mod]
  omega

/-- The flag is the third bit of the tag. -/
theorem tag_and_flag (obj : PyLong) :
  (obj.tag &&& (1 <<< 2) != 0) = obj.flag
  := by
  have hcode := code_lt obj.sign
  have hdiv : obj.tag / 2 ^ 2 % 2 = obj.flag.toNat := by
    have hflag := Bool.toNat_lt obj.flag
    rw [tag_eq]
    omega
  have hbit : obj.tag.testBit 2 = obj.flag := by
    rw [Nat.testBit_eq_decide_div_mod_eq, hdiv]
    cases obj.flag <;> rfl
  rw [Nat.shiftLeft_eq, Nat.one_mul, Nat.and_two_pow, hbit]
  cases obj.flag <;> rfl

theorem signMap_code (s : Sign) :
  signMap s.code = s.toInt
  := by
  cases s <;> rfl

theorem length_obDigit (obj : PyLong) :
  obj.obDigit.length = if obj.digits.length = 0 then 1 else obj.digits.length
  := by
  rw [obDigit]
  split_ifs with h h' h'
  · rfl
  · simp [h] at h'
  · simp at h'
    exact absurd h' h
  · rfl

theorem obDigit_lt (obj : PyLong) :
  ∀ d ∈ obj.obDigit, d < 256 ^ 4
  := by
  intro d hd
  rw [obDigit] at hd
  split_ifs at hd
  · rw [List.mem_singleton.mp hd]
    decide
  · apply (obj.digit_lt d hd).trans
    decide

theorem ofDigits_obDigit (obj : PyLong) :
  Nat.ofDigits (2 ^ PyLong_SHIFT) obj.obDigit = Nat.ofDigits (2 ^ PyLong_SHIFT) obj.digits
  := by
  rw [obDigit]
  split_ifs with h
  · rw [h]
    rfl
  · rfl

/-- The object of the integer `n`, when the number of its digits fits in the tag. -/
def ofInt (n : ℤ) (flag : Bool) (hn : (Nat.digits (2 ^ PyLong_SHIFT) n.natAbs).length < 2 ^ 61) :
    PyLong where
  sign := Sign.ofInt n
  flag := flag
  digits := Nat.digits (2 ^ PyLong_SHIFT) n.natAbs
  digit_lt := by
    intro d hd
    apply Nat.digits_lt_base (by decide) hd
  top_ne_zero := by
    intro h
    apply Nat.getLast_digit_ne_zero _ (Nat.digits_ne_nil_iff_ne_zero.mp h)
  zero_iff := by
    rw [Sign.ofInt_eq_zero, Nat.digits_eq_nil_iff_eq_zero, Int.natAbs_eq_zero]
  length_lt := hn

theorem value_ofInt (n : ℤ) (flag : Bool)
    (hn : (Nat.digits (2 ^ PyLong_SHIFT) n.natAbs).length < 2 ^ 61) :
  (ofInt n flag hn).value = n
  := by
  rw [value, ofInt, Nat.ofDigits_digits]
  apply Sign.toInt_ofInt_mul

end PyLong

/-! ### Reading an object back -/

section StoredAt

variable {obj : PyLong} {mem : Memory} {addr : ℕ}

theorem readTag_of_storedAt (hobj : obj.StoredAt mem addr) :
  readTag mem addr = obj.tag
  := by
  obtain ⟨htag, -⟩ := Memory.holds_append.mp hobj
  have hbytes := htag.stringAt_eq
  rw [LittleEndian.length_bytes] at hbytes
  rw [readTag, hbytes, LittleEndian.value_bytes obj.tag_lt]

theorem readDigit_of_storedAt (hobj : obj.StoredAt mem addr) (i : ℕ)
    (hi : i < obj.obDigit.length) :
  readDigit mem addr i = obj.obDigit[i]
  := by
  obtain ⟨-, hdigits⟩ := Memory.holds_append.mp hobj
  rw [LittleEndian.length_bytes] at hdigits
  have hbytes := (hdigits.field (LittleEndian.length_bytes 4) i hi).stringAt_eq
  rw [LittleEndian.length_bytes] at hbytes
  rw [readDigit, show addr + 24 + i * 4 = addr + 16 + 8 + i * 4 by omega, hbytes,
    LittleEndian.value_bytes]
  apply obj.obDigit_lt _ (List.getElem_mem hi)

/-- What `analyze_int` returns for an object that lies in memory. -/
theorem analyzeInt_of_storedAt (hobj : obj.StoredAt mem addr) :
  analyzeInt mem addr =
    { address := hex addr
      tag := obj.tag
      ndigits := obj.obDigit.length
      sign := obj.sign.toInt
      digits := obj.obDigit
      compact := obj.digits.length == 0
      isSmallInt := obj.flag }
  := by
  have hdigits : (List.range obj.obDigit.length).map (readDigit mem addr) = obj.obDigit := by
    apply List.ext_getElem
    · simp
    · intro i hi _
      rw [List.getElem_map, List.getElem_range]
      apply readDigit_of_storedAt hobj
  rw [PyLong.length_obDigit] at hdigits
  simp only [analyzeInt, readTag_of_storedAt hobj, PyLong.tag_shiftRight, PyLong.tag_and_signMask,
    PyLong.tag_and_flag, PyLong.signMap_code, PyLong.length_obDigit]
  split_ifs with h
  · rw [if_pos h] at hdigits
    simp only [hdigits]
  · rw [if_neg h] at hdigits
    simp only [hdigits]

/-- The recovery loop adds up the digits at their positions. -/
theorem foldl_recovered (digits : List ℕ) (k : ℕ) (acc : ℤ) :
  (digits.zipIdx k).foldl
      (fun (recovered : ℤ) (d, i) => recovered + (d <<< (PyLong_SHIFT * i) : ℕ)) acc
    = acc + 2 ^ (PyLong_SHIFT * k) * (Nat.ofDigits (2 ^ PyLong_SHIFT) digits : ℕ)
  := by
  induction digits generalizing k acc with
  | nil => simp
  | cons d digits ih =>
      rw [List.zipIdx_cons, List.foldl_cons, ih, Nat.ofDigits_cons]
      simp only [Nat.shiftLeft_eq]
      push_cast
      ring

/-- The recovery loop turns what `analyze_int` reads into the value of the object. -/
theorem recovered_of_storedAt (hobj : obj.StoredAt mem addr) :
  recovered (analyzeInt mem addr) = obj.value
  := by
  rw [analyzeInt_of_storedAt hobj, recovered]
  simp only [foldl_recovered, PyLong.ofDigits_obDigit, PyLong.value]
  cases hsign : obj.sign with
  | positive => simp [Sign.toInt]
  | zero =>
      rw [obj.zero_iff.mp hsign]
      simp [Sign.toInt]
  | negative => simp [Sign.toInt]

end StoredAt

/-- Every integer whose number of digits fits in the tag has an object of the format, with
either flag, and is given back by reading any of its objects, wherever it lies. -/
theorem recovered_analyzeInt (n : ℤ)
    (hn : (Nat.digits (2 ^ PyLong_SHIFT) n.natAbs).length < 2 ^ 61) :
  (∀ flag, ∃ obj : PyLong, obj.flag = flag ∧ obj.value = n) ∧
    ∀ (obj : PyLong), obj.value = n →
      ∀ mem addr, obj.StoredAt mem addr → recovered (analyzeInt mem addr) = n
  := by
  constructor
  · intro flag
    use PyLong.ofInt n flag hn
    exact ⟨rfl, PyLong.value_ofInt n flag hn⟩
  · intro obj hvalue mem addr hobj
    rw [← hvalue]
    apply recovered_of_storedAt hobj

/-- The object of `-(2 ^ 30 + 5)`: two digits and a negative sign. -/
def negativeTwoDigits : PyLong where
  sign := .negative
  flag := false
  digits := [5, 1]
  digit_lt := by decide
  top_ne_zero := by decide
  zero_iff := by decide
  length_lt := by decide

theorem negativeTwoDigits_recovered :
  recovered (analyzeInt (Memory.of 116 negativeTwoDigits.layout) 100) = -(2 ^ 30 + 5)
  := by
  have hdigits : (Nat.digits (2 ^ PyLong_SHIFT) (-(2 ^ 30 + 5) : ℤ).natAbs).length < 2 ^ 61 := by
    simp [PyLong_SHIFT]
  apply (recovered_analyzeInt (-(2 ^ 30 + 5)) hdigits).2 negativeTwoDigits (by decide)
  apply Memory.holds_of

/-! ### Classification -/

namespace PyLong

/-- The digits of an object are those of the number that they make up. -/
theorem digits_ofDigits (obj : PyLong) :
  Nat.digits (2 ^ PyLong_SHIFT) (Nat.ofDigits (2 ^ PyLong_SHIFT) obj.digits) = obj.digits
  := Nat.digits_ofDigits _ (by decide) _ obj.digit_lt obj.top_ne_zero

theorem natAbs_value (obj : PyLong) :
  obj.value.natAbs = Nat.ofDigits (2 ^ PyLong_SHIFT) obj.digits
  := by
  rw [value, Int.natAbs_mul, Int.natAbs_natCast]
  cases hsign : obj.sign with
  | positive => apply Nat.one_mul
  | zero =>
      rw [obj.zero_iff.mp hsign]
      rfl
  | negative => apply Nat.one_mul

/-- The digits of an object are those of the absolute value of its integer. -/
theorem digits_eq (obj : PyLong) :
  obj.digits = Nat.digits (2 ^ PyLong_SHIFT) obj.value.natAbs
  := by
  rw [natAbs_value, digits_ofDigits]

/-- The sign of an object is the sign of its integer. -/
theorem toInt_sign (obj : PyLong) :
  obj.sign.toInt = obj.value.sign
  := by
  have habs : obj.digits ≠ [] →
      ((Nat.ofDigits (2 ^ PyLong_SHIFT) obj.digits : ℕ) : ℤ).sign = 1 := by
    intro h
    apply Int.sign_natCast_of_ne_zero
    apply Nat.digits_ne_nil_iff_ne_zero.mp
    rwa [digits_ofDigits]
  rw [value, Int.sign_mul]
  cases hsign : obj.sign with
  | positive =>
      rw [habs (obj.zero_iff.not.mp (by simp [hsign]))]
      rfl
  | zero => rw [Sign.toInt, Int.sign_zero, Int.zero_mul]
  | negative =>
      rw [habs (obj.zero_iff.not.mp (by simp [hsign]))]
      rfl

end PyLong

/-- What `analyze_int` says of an integer is right but for `compact`: the sign, the number of
digits, and `compact` exactly when the integer is zero. -/
theorem analyzeInt_classification {obj : PyLong} {mem : Memory} {addr : ℕ}
    (hobj : obj.StoredAt mem addr) :
  (analyzeInt mem addr).sign = obj.value.sign ∧
    (analyzeInt mem addr).ndigits
      = max 1 (Nat.digits (2 ^ PyLong_SHIFT) obj.value.natAbs).length ∧
    ((analyzeInt mem addr).compact = true ↔ obj.value = 0)
  := by
  rw [analyzeInt_of_storedAt hobj]
  and_intros
  · apply obj.toInt_sign
  · simp only [← obj.digits_eq, PyLong.length_obDigit]
    split_ifs with h
    · rw [h]
      rfl
    · omega
  · rw [beq_iff_eq, obj.digits_eq, List.length_eq_zero_iff, Nat.digits_eq_nil_iff_eq_zero,
      Int.natAbs_eq_zero]

/-- The classification of an integer is right, with `compact` for the integers of one digit,
exactly when the integer is zero or has more than one digit. -/
theorem analyzeInt_classifies_iff (n : ℤ) (obj : PyLong) (hvalue : obj.value = n)
    (mem : Memory) (addr : ℕ) (hobj : obj.StoredAt mem addr) :
  ((analyzeInt mem addr).sign = n.sign ∧
      (analyzeInt mem addr).ndigits = max 1 (Nat.digits (2 ^ PyLong_SHIFT) n.natAbs).length ∧
      ((analyzeInt mem addr).compact = true ↔ n.natAbs < 2 ^ PyLong_SHIFT))
    ↔ n = 0 ∨ 2 ^ PyLong_SHIFT ≤ n.natAbs
  := by
  obtain ⟨hsign, hndigits, hcompact⟩ := analyzeInt_classification hobj
  rw [hvalue] at hsign hndigits hcompact
  rw [hsign, hndigits, hcompact]
  simp only [true_and, PyLong_SHIFT]
  omega

/-- The object of `42`: one digit, and the flag of small integers. -/
def fortyTwo : PyLong where
  sign := .positive
  flag := true
  digits := [42]
  digit_lt := by decide
  top_ne_zero := by decide
  zero_iff := by decide
  length_lt := by decide

theorem fortyTwo_not_compact :
  fortyTwo.value = 42 ∧ fortyTwo.StoredAt (Memory.of 116 fortyTwo.layout) 100 ∧
    (42 : ℤ).natAbs < 2 ^ PyLong_SHIFT ∧
    (analyzeInt (Memory.of 116 fortyTwo.layout) 100).compact = false
  := by
  have hstored : fortyTwo.StoredAt (Memory.of 116 fortyTwo.layout) 100 := Memory.holds_of _ _
  have hvalue : fortyTwo.value = 42 := by decide
  and_intros
  · apply hvalue
  · apply hstored
  · decide
  · rw [analyzeInt_of_storedAt hstored]
    rfl

theorem negativeTwoDigits_classified :
  (analyzeInt (Memory.of 116 negativeTwoDigits.layout) 100).sign = (-(2 ^ 30 + 5) : ℤ).sign ∧
    (analyzeInt (Memory.of 116 negativeTwoDigits.layout) 100).ndigits
      = max 1 (Nat.digits (2 ^ PyLong_SHIFT) (-(2 ^ 30 + 5) : ℤ).natAbs).length ∧
    ((analyzeInt (Memory.of 116 negativeTwoDigits.layout) 100).compact = true
      ↔ (-(2 ^ 30 + 5) : ℤ).natAbs < 2 ^ PyLong_SHIFT)
  := by
  apply (analyzeInt_classifies_iff (-(2 ^ 30 + 5)) negativeTwoDigits (by decide) _ _
    (Memory.holds_of 116 _)).mpr
  right
  decide

end LongObject
