import Mathlib.Data.Int.Notation
import PythonInternals.Ctypes
import PythonInternals.Foundation.LittleEndian
import PythonInternals.Foundation.Loop
import PythonInternals.Foundation.Utf8
import PythonInternals.LongObject

/-!
# The name of a type object

The functions of `typeobject_demo.py` that read a type object through its address: the
pointer `tp_name` at offset 24, the C string it points to, and the size of the instances.

`read_cstr` ends at the first zero byte and makes a character of every byte before it
(`readCstr_of_holds`).  So it undoes ASCII, and no other string that is kept in UTF-8
(`readCstr_eq_iff`).
-/

namespace TypeObject

/-- `read_ptr(addr)`, which is `None` for a null pointer. -/
def readPtr (mem : Memory) (addr : ℕ) : Option ℕ :=
  let value := LittleEndian.value (mem.stringAt addr 8)
  if value = 0 then none else some value

/-- `read_ssize(addr)`. -/
def readSsize (mem : Memory) (addr : ℕ) : ℤ :=
  let value := LittleEndian.value (mem.stringAt addr 8)
  if value < 2 ^ 63 then value else value - 2 ^ 64

/-- The variables of the loop of `read_cstr`. -/
structure CstrState where
  buf : List Char
  i : ℕ

/-- A pass of the loop of `read_cstr`, where `chr(b)` is the character with the code `b`. -/
def readCstrStep (mem : Memory) (addr : ℕ) (s : CstrState) : Except String CstrState :=
  let b := mem (addr + s.i)
  if b = 0 then .error (String.ofList s.buf)
  else .ok { buf := s.buf ++ [Utf8.latin1 b], i := s.i + 1 }

/-- `read_cstr(addr)`, when its loop is left within the given number of passes. -/
def readCstr (mem : Memory) (addr : Option ℕ) (passes : ℕ) : Option String :=
  match addr with
  | none => some "<NULL>"
  | some addr =>
      if addr = 0 then some "<NULL>"
      else Loop.run (readCstrStep mem addr) passes { buf := [], i := 0 }

/-- The dictionary that `inspect_type` returns. -/
structure TypeInfo (τ : Type) where
  address : String
  tpName : String
  tpBasicsize : ℤ
  obType : τ

/-- `inspect_type(tp)`, where `id` and `type` are the functions of these names on the type
objects `τ`. -/
def inspectType {τ : Type} (mem : Memory) (id : τ → ℕ) (type : τ → τ) (tp : τ) (passes : ℕ) :
    Option (TypeInfo τ) := do
  let addr := id tp
  let tp_name ← readCstr mem (readPtr mem (addr + 24)) passes
  let tp_basicsize := readSsize mem (addr + 24 + 8)
  pure { address := LongObject.hex addr
         tpName := tp_name
         tpBasicsize := tp_basicsize
         obType := type tp }

/-! ### Reading a string -/

section Reading

variable {mem : Memory} {addr : ℕ}

/-- From the place of `bs`, which a zero byte ends, the loop goes on until it has read them. -/
theorem run_readCstrStep {bs : List UInt8} (hbs : ∀ b ∈ bs, b ≠ 0) (buf : List Char) (i : ℕ)
    (hmem : mem.Holds (addr + i) (bs ++ [0])) :
  Loop.run (readCstrStep mem addr) (bs.length + 1) { buf := buf, i := i }
    = some (String.ofList (buf ++ bs.map Utf8.latin1))
  := by
  induction bs generalizing buf i with
  | nil =>
      have hend : mem (addr + i) = 0 := hmem 0 (by simp)
      apply Loop.run_of_error
      simp [readCstrStep, hend]
  | cons b bs ih =>
      obtain ⟨hb, hbs⟩ := List.forall_mem_cons.mp hbs
      rw [← List.singleton_append, List.append_assoc, Memory.holds_append] at hmem
      obtain ⟨hbyte, hrest⟩ := hmem
      have hread : mem (addr + i) = b := hbyte 0 (by simp)
      have hstep : readCstrStep mem addr { buf := buf, i := i }
          = .ok { buf := buf ++ [Utf8.latin1 b], i := i + 1 } := by
        simp [readCstrStep, hread, hb]
      rw [List.length_cons, Loop.run_of_ok hstep, ih hbs _ _ hrest, List.append_assoc]
      rfl

/-- What `read_cstr` returns of bytes other than zero, with a zero byte behind them. -/
theorem readCstr_of_holds {bs : List UInt8} (hbs : ∀ b ∈ bs, b ≠ 0)
    (hmem : mem.Holds addr (bs ++ [0])) {passes : ℕ} (hpasses : bs.length < passes) :
  readCstr mem (some addr) passes
    = some (if addr = 0 then "<NULL>" else String.ofList (bs.map Utf8.latin1))
  := by
  rw [readCstr]
  split_ifs with haddr
  · rfl
  · apply Loop.run_mono hpasses (run_readCstrStep hbs [] 0 hmem)

/-- A pointer kept in memory is read back, and as `None` when it is null. -/
theorem readPtr_of_holds {ptr : ℕ} (hptr : ptr < 2 ^ 64)
    (hmem : mem.Holds addr (LittleEndian.bytes 8 ptr)) :
  readPtr mem addr = if ptr = 0 then none else some ptr
  := by
  have hbytes := hmem.stringAt_eq
  rw [LittleEndian.length_bytes] at hbytes
  rw [readPtr, hbytes, LittleEndian.value_bytes hptr]

/-- `inspect_type` reports the name that `read_cstr` reads through the pointer. -/
theorem inspectType_of_readCstr {τ : Type} {id : τ → ℕ} {type : τ → τ} {tp : τ} {ptr : ℕ}
    (hptr : ptr < 2 ^ 64) (hmem : mem.Holds (id tp + 24) (LittleEndian.bytes 8 ptr))
    {passes : ℕ} {name : String} (hname : readCstr mem (some ptr) passes = some name) :
  (inspectType mem id type tp passes).map TypeInfo.tpName = some name
  := by
  have hread : readCstr mem (readPtr mem (id tp + 24)) passes = some name := by
    rw [readPtr_of_holds hptr hmem]
    split_ifs with h
    · rw [← hname, h]
      rfl
    · apply hname
  rw [inspectType, hread]
  rfl

end Reading

/-- Of a string without NUL that memory holds in UTF-8, with a zero byte behind it,
`read_cstr` always returns something, and it returns the string itself exactly when the string
is in ASCII and not at the null address, where it returns `<NULL>`; what `inspect_type`
reports of a type with this name is what `read_cstr` returns. -/
theorem readCstr_eq_iff (s : String) (hs : ∀ c ∈ s.toList, c ≠ '\x00') (mem : Memory) (addr : ℕ)
    (hmem : mem.Holds addr (Utf8.encode s.toList ++ [0])) :
  ∃ r, (∃ n, ∀ m, n ≤ m → readCstr mem (some addr) m = some r) ∧
    (r = s ↔ (addr ≠ 0 ∧ Utf8.Ascii s.toList) ∨ (addr = 0 ∧ s = "<NULL>")) ∧
    ∀ (τ : Type) (id : τ → ℕ) (type : τ → τ) (tp : τ), addr < 2 ^ 64 →
      mem.Holds (id tp + 24) (LittleEndian.bytes 8 addr) →
      ∃ n, ∀ m, n ≤ m → (inspectType mem id type tp m).map TypeInfo.tpName = some r
  := by
  have hread : ∀ m, (Utf8.encode s.toList).length < m → readCstr mem (some addr) m
      = some (if addr = 0 then "<NULL>"
          else String.ofList ((Utf8.encode s.toList).map Utf8.latin1)) :=
    fun m => readCstr_of_holds (Utf8.encode_ne_zero hs) hmem
  use if addr = 0 then "<NULL>" else String.ofList ((Utf8.encode s.toList).map Utf8.latin1)
  and_intros
  · use (Utf8.encode s.toList).length + 1
    apply hread
  · split_ifs with haddr
    · simp [haddr, eq_comm]
    · have hascii := Utf8.map_latin1_encode s.toList
      simp only [haddr, false_and, or_false, ne_eq, not_false_eq_true, true_and]
      rw [← hascii, ← String.toList_inj, String.toList_ofList]
  · intro τ id type tp hptr htype
    use (Utf8.encode s.toList).length + 1
    intro m hm
    apply inspectType_of_readCstr hptr htype (hread m hm)

theorem readCstr_int :
  ∃ n, ∀ m, n ≤ m →
    readCstr (Memory.of 100 (Utf8.encode "int".toList ++ [0])) (some 100) m = some "int"
  := by
  obtain ⟨r, hrun, hiff, -⟩ := readCstr_eq_iff "int" (by simp)
    (Memory.of 100 (Utf8.encode "int".toList ++ [0])) 100 (Memory.holds_of _ _)
  have hascii : Utf8.Ascii "int".toList := by simp [Utf8.Ascii]
  rw [hiff.mpr (Or.inl ⟨by decide, hascii⟩)] at hrun
  apply hrun

theorem readCstr_cafe :
  readCstr (Memory.of 100 (Utf8.encode "Café".toList ++ [0])) (some 100) 6 = some "CafÃ©" ∧
    "CafÃ©" ≠ "Café"
  := by
  constructor
  · apply readCstr_of_holds (Utf8.encode_ne_zero (by simp)) (Memory.holds_of _ _)
    decide
  · decide

end TypeObject
