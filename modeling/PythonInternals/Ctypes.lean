import Mathlib.Data.Int.Notation
import Mathlib.Data.List.OfFn
import Mathlib.Data.Nat.Notation
import PythonInternals.Foundation.LittleEndian

/-!
# Raw memory

The memory that the scripts read through `ctypes`: a byte at every address.  `stringAt`
is `ctypes.string_at` with a size, and `Holds mem addr bs` says that the bytes `bs` lie at
`addr`, whatever lies elsewhere.  `c_uint`, `c_ssize_t` and `c_void_p` are the readings with
`from_address`.
-/

/-- The byte at every address. -/
def Memory : Type := ℕ → UInt8

namespace Memory

/-- `ctypes.string_at(addr, size)`. -/
def stringAt (mem : Memory) (addr size : ℕ) : List UInt8 :=
  List.ofFn (fun i : Fin size => mem (addr + i))

/-- The bytes `bs` lie at `addr`. -/
def Holds (mem : Memory) (addr : ℕ) (bs : List UInt8) : Prop :=
  ∀ i (hi : i < bs.length), mem (addr + i) = bs[i]

variable {mem : Memory} {addr : ℕ}

theorem Holds.stringAt_eq {bs : List UInt8} (h : mem.Holds addr bs) :
  mem.stringAt addr bs.length = bs
  := by
  apply List.ext_getElem
  · simp [stringAt]
  · intro i _ hi
    simpa [stringAt] using h i hi

theorem holds_append {bs cs : List UInt8} :
  mem.Holds addr (bs ++ cs) ↔ mem.Holds addr bs ∧ mem.Holds (addr + bs.length) cs
  := by
  constructor
  · intro h
    constructor
    · intro i hi
      rw [h i (by simp; omega), List.getElem_append_left hi]
    · intro i hi
      rw [Nat.add_assoc, h (bs.length + i) (by simp; omega), List.getElem_append_right (by omega)]
      simp
  · rintro ⟨hbs, hcs⟩ i hi
    by_cases hlt : i < bs.length
    · rw [hbs i hlt, List.getElem_append_left hlt]
    · simp only [List.length_append] at hi
      have hmem := hcs (i - bs.length) (by omega)
      rw [List.getElem_append_right (by omega), ← hmem]
      congr 1
      omega

/-- Of a sequence of fields of equal width, each lies at its own offset. -/
theorem Holds.field {α : Type*} {width : ℕ} {f : α → List UInt8} (hf : ∀ a, (f a).length = width)
    {xs : List α} (h : mem.Holds addr (xs.flatMap f)) (i : ℕ) (hi : i < xs.length) :
  mem.Holds (addr + i * width) (f xs[i])
  := by
  induction xs generalizing addr i with
  | nil => simp at hi
  | cons x xs ih =>
      rw [List.flatMap_cons, holds_append, hf] at h
      cases i with
      | zero => simpa using h.1
      | succ i =>
          have hfield := ih h.2 i (by simpa using hi)
          rw [List.getElem_cons_succ, Nat.succ_mul]
          rwa [Nat.add_assoc, Nat.add_comm width] at hfield

/-- A memory with the bytes `bs` at `addr`, and 0 elsewhere. -/
def of (addr : ℕ) (bs : List UInt8) : Memory :=
  fun a => if addr ≤ a then bs.getD (a - addr) 0 else 0

theorem holds_of (addr : ℕ) (bs : List UInt8) :
  (Memory.of addr bs).Holds addr bs
  := by
  intro i hi
  simp [Memory.of, hi]

/-- The memory with the bytes `bs` written at `addr`. -/
def write (mem : Memory) (addr : ℕ) (bs : List UInt8) : Memory :=
  fun a => if addr ≤ a ∧ a < addr + bs.length then bs.getD (a - addr) 0 else mem a

theorem holds_write (mem : Memory) (addr : ℕ) (bs : List UInt8) :
  (mem.write addr bs).Holds addr bs
  := by
  intro i hi
  simp [write, hi]

/-- What is written changes nothing elsewhere. -/
theorem write_frame (mem : Memory) {addr : ℕ} {bs : List UInt8} {a : ℕ}
    (h : a < addr ∨ addr + bs.length ≤ a) :
  mem.write addr bs a = mem a
  := by
  rw [write, if_neg (by omega)]

/-- Memories that agree on a range hold the same string there. -/
theorem stringAt_congr {mem mem' : Memory} {addr size : ℕ}
    (h : ∀ a, addr ≤ a → a < addr + size → mem a = mem' a) :
  mem.stringAt addr size = mem'.stringAt addr size
  := by
  rw [stringAt, stringAt, List.ofFn_inj]
  funext i
  apply h <;> omega

/-- `from_address(addr).value` of an unsigned type with `width` bytes. -/
def c_uint (mem : Memory) (width addr : ℕ) : ℕ := LittleEndian.value (mem.stringAt addr width)

/-- `c_ssize_t.from_address(addr).value`. -/
def c_ssize_t (mem : Memory) (addr : ℕ) : ℤ := (BitVec.ofNat 64 (mem.c_uint 8 addr)).toInt

/-- `c_void_p.from_address(addr).value`, which is `None` for a null pointer. -/
def c_void_p (mem : Memory) (addr : ℕ) : Option ℕ :=
  if mem.c_uint 8 addr = 0 then none else some (mem.c_uint 8 addr)

/-- The low bytes of a number are read. -/
theorem c_uint_eq_mod {n : ℕ} (width more : ℕ)
    (h : mem.Holds addr (LittleEndian.bytes (width + more) n)) :
  mem.c_uint width addr = n % 256 ^ width
  := by
  rw [LittleEndian.bytes_add] at h
  have hbytes := (holds_append.mp h).1.stringAt_eq
  rw [LittleEndian.length_bytes] at hbytes
  rw [c_uint, hbytes, LittleEndian.value_bytes_mod]

/-- A number is read from its bytes. -/
theorem c_uint_eq {width n : ℕ} (h : mem.Holds addr (LittleEndian.bytes width n))
    (hn : n < 256 ^ width) :
  mem.c_uint width addr = n
  := by
  rw [c_uint_eq_mod width 0 h, Nat.mod_eq_of_lt hn]

/-- A signed number is read from eight bytes. -/
theorem c_ssize_t_eq_toInt {n : BitVec 64}
    (h : mem.Holds addr (LittleEndian.bytes 8 n.toNat)) :
  mem.c_ssize_t addr = n.toInt
  := by
  rw [c_ssize_t, c_uint_eq h n.isLt, BitVec.ofNat_toNat, BitVec.setWidth_eq]

/-- A size is read from eight bytes. -/
theorem c_ssize_t_eq {n : ℕ} (h : mem.Holds addr (LittleEndian.bytes 8 n)) (hn : n < 2 ^ 63) :
  mem.c_ssize_t addr = n
  := by
  rw [c_ssize_t, c_uint_eq h (by omega), BitVec.toInt_eq_toNat_of_lt]
  · rw [BitVec.toNat_ofNat, Nat.mod_eq_of_lt (by omega)]
  · rw [BitVec.toNat_ofNat]
    omega

/-- A pointer that is not null is read from eight bytes. -/
theorem c_void_p_eq {n : ℕ} (h : mem.Holds addr (LittleEndian.bytes 8 n)) (hpos : 0 < n)
    (hn : n < 2 ^ 64) :
  mem.c_void_p addr = some n
  := by
  rw [c_void_p, c_uint_eq h (by omega), if_neg (by omega)]

end Memory
