import Mathlib.Data.Nat.Bitwise
import PythonInternals.Ctypes
import PythonInternals.DictObject
import PythonInternals.Foundation.LittleEndian

/-!
# The string object

A string keeps its characters in 1, 2 or 4 bytes each, whichever is enough for the largest of
them, and says so in its `state`.  What `read_unicode_state` reads of a string tells how its
characters are read back (`read_unicode_state_spec`).

An interned string is the only one with its text: `PyUnicode_InternInPlace` exchanges a string for
the one with the same text that was interned before.  What a program reads of its strings does
not depend on it, and two interned strings are equal only when they are the same object
(`intern_run`).
-/

namespace UnicodeObject

/-! ### The representation of the characters -/

/-- The bytes for each character in a string whose largest character is `maxchar`. -/
def kindOf (maxchar : ℕ) : ℕ :=
  if maxchar < 128 then 1
  else if maxchar < 256 then 1
  else if maxchar < 65536 then 2
  else 4

/-- The size of a header, as the text of `PyUnicode_New` has it: a `PyASCIIObject`, with `state` and
its padding, when there is a byte for each character, whether they are all ASCII or not, and else a
`PyCompactUnicodeObject`, which adds `utf8_length` and `utf8`. -/
def headerSize (kind : ℕ) : ℕ := if kind = 1 then 40 else 56

/-- The largest of some characters. -/
def maxchar (chars : List ℕ) : ℕ := chars.foldr max 0

/-- A string object.  The bytes of its header behind the 4 bytes of `state`, and the bits of
`state` that are not described, can be anything. -/
structure PyUnicode where
  chars : List ℕ
  hash : BitVec 64
  interned : Fin 4
  more : Fin (2 ^ 24)
  between : List UInt8
  char_lt : ∀ c ∈ chars, c < 0x110000
  length_lt : chars.length < 2 ^ 63
  between_length : 36 + between.length = headerSize (kindOf (maxchar chars))

namespace PyUnicode

def kind (s : PyUnicode) : ℕ := kindOf (maxchar s.chars)

def ascii (s : PyUnicode) : Bool := maxchar s.chars < 128

/-- The field `state`, the bit fields from the lowest on; the string is compact and ready. -/
def state (s : PyUnicode) : ℕ :=
  s.interned + 4 * s.kind + 32 * 1 + 64 * s.ascii.toNat + 128 * 1 + 256 * s.more

/-- The bytes of the object from offset 16. -/
def layout (s : PyUnicode) : List UInt8 :=
  LittleEndian.bytes 8 s.chars.length ++ (LittleEndian.bytes 8 s.hash.toNat
    ++ (LittleEndian.bytes 4 s.state ++ (s.between
      ++ s.chars.flatMap (LittleEndian.bytes s.kind))))

/-- The object lies at `addr`. -/
def StoredAt (s : PyUnicode) (mem : Memory) (addr : ℕ) : Prop := mem.Holds (addr + 16) s.layout

end PyUnicode

/-- The dictionary that `read_unicode_state` returns. -/
structure UnicodeState where
  length : ℤ
  hash : ℤ
  interned : ℕ
  kind : ℕ
  compact : Bool
  ascii : Bool
  ready : Bool
  deriving DecidableEq

/-- `read_unicode_state` of the string at `addr`. -/
def read_unicode_state (mem : Memory) (addr : ℕ) : UnicodeState :=
  let length := mem.c_ssize_t (addr + 16)
  let hash_val := mem.c_ssize_t (addr + 24)
  let state_bits := mem.c_uint 2 (addr + 32)
  let interned := state_bits &&& 0b11
  let kind := (state_bits >>> 2) &&& 0b111
  let compact := (state_bits >>> 5) &&& 1
  let ascii := (state_bits >>> 6) &&& 1
  let ready := (state_bits >>> 7) &&& 1
  { length := length
    hash := hash_val
    interned := interned
    kind := kind
    compact := compact != 0
    ascii := ascii != 0
    ready := ready != 0 }

/-- The characters of a string of the given length and kind, behind the header. -/
def readChars (mem : Memory) (addr kind length : ℕ) : List ℕ :=
  (List.range length).map
    (fun i => LittleEndian.value (mem.stringAt (addr + headerSize kind + i * kind) kind))

/-- Some characters fit in `w` bytes each exactly when the largest does. -/
theorem maxchar_lt_iff {chars : List ℕ} {n : ℕ} (hn : 0 < n) :
  maxchar chars < n ↔ ∀ c ∈ chars, c < n
  := by
  induction chars with
  | nil => simp [maxchar, hn]
  | cons c chars ih =>
      rw [maxchar, List.foldr_cons, List.forall_mem_cons, ← ih, maxchar]
      omega

/-- The kind is the least of the three widths that is enough. -/
theorem kindOf_le_iff {m w : ℕ} (hm : m < 0x110000) (hw : w = 1 ∨ w = 2 ∨ w = 4) :
  kindOf m ≤ w ↔ m < 256 ^ w
  := by
  rw [kindOf]
  obtain rfl | rfl | rfl := hw <;> split_ifs <;> omega

namespace PyUnicode

variable {s : PyUnicode} {mem : Memory} {addr : ℕ}

theorem kind_cases (s : PyUnicode) :
  s.kind = 1 ∨ s.kind = 2 ∨ s.kind = 4
  := by
  rw [kind, kindOf]
  split_ifs <;> omega

theorem maxchar_lt (s : PyUnicode) :
  maxchar s.chars < 0x110000
  := (maxchar_lt_iff (by decide)).mpr s.char_lt

/-- Every character fits in its bytes. -/
theorem char_lt_kind (s : PyUnicode) {c : ℕ} (hc : c ∈ s.chars) :
  c < 256 ^ s.kind
  := by
  have hmax : maxchar s.chars < 256 ^ s.kind :=
    (kindOf_le_iff s.maxchar_lt s.kind_cases).mp (Nat.le_refl s.kind)
  exact (maxchar_lt_iff (Nat.pow_pos (by decide))).mp hmax c hc

/-- Where the fields of a string lie. -/
theorem StoredAt.fields (h : s.StoredAt mem addr) :
  mem.Holds (addr + 16) (LittleEndian.bytes 8 s.chars.length)
    ∧ mem.Holds (addr + 24) (LittleEndian.bytes 8 s.hash.toNat)
    ∧ mem.Holds (addr + 32) (LittleEndian.bytes 4 s.state)
    ∧ mem.Holds (addr + headerSize s.kind) (s.chars.flatMap (LittleEndian.bytes s.kind))
  := by
  rw [StoredAt, layout] at h
  obtain ⟨hlength, h⟩ := Memory.holds_append.mp h
  obtain ⟨hhash, h⟩ := Memory.holds_append.mp h
  obtain ⟨hstate, h⟩ := Memory.holds_append.mp h
  obtain ⟨-, hdata⟩ := Memory.holds_append.mp h
  simp only [LittleEndian.length_bytes] at hhash hstate hdata
  refine ⟨hlength, hhash, hstate, ?_⟩
  have hbetween := s.between_length
  have haddr : addr + headerSize s.kind = addr + 16 + 8 + 8 + 4 + s.between.length := by
    rw [kind]
    omega
  rwa [haddr]

end PyUnicode

/-- What `read_unicode_state` reads of a string. -/
theorem read_unicode_state_eq {s : PyUnicode} {mem : Memory} {addr : ℕ}
    (h : s.StoredAt mem addr) :
  read_unicode_state mem addr
    = ⟨s.chars.length, s.hash.toInt, s.interned, s.kind, true, s.ascii, true⟩
  := by
  obtain ⟨hlength, hhash, hstate, -⟩ := h.fields
  have hmask (x k : ℕ) : x &&& 2 ^ k - 1 = x % 2 ^ k := Nat.and_two_pow_sub_one_eq_mod x k
  have hkind := s.kind_cases
  have hascii := Bool.toNat_lt s.ascii
  have hinterned := s.interned.isLt
  -- the bit fields are read off the sum that they are in
  have hfields : (s.state % 65536) &&& 0b11 = s.interned
      ∧ (s.state % 65536) >>> 2 &&& 0b111 = s.kind
      ∧ (s.state % 65536) >>> 5 &&& 1 = 1
      ∧ (s.state % 65536) >>> 6 &&& 1 = s.ascii.toNat
      ∧ (s.state % 65536) >>> 7 &&& 1 = 1 := by
    have h₁ := hmask (s.state % 65536) 2
    have h₂ := hmask ((s.state % 65536) >>> 2) 3
    have h₃ := hmask ((s.state % 65536) >>> 5) 1
    have h₄ := hmask ((s.state % 65536) >>> 6) 1
    have h₅ := hmask ((s.state % 65536) >>> 7) 1
    simp only [Nat.shiftRight_eq_div_pow] at h₂ h₃ h₄ h₅ ⊢
    norm_num at h₁ h₂ h₃ h₄ h₅ ⊢
    rw [PyUnicode.state] at *
    omega
  rw [read_unicode_state, Memory.c_ssize_t_eq hlength s.length_lt,
    Memory.c_ssize_t_eq_toInt hhash, Memory.c_uint_eq_mod 2 2 hstate]
  obtain ⟨h₁, h₂, h₃, h₄, h₅⟩ := hfields
  rw [show 256 ^ 2 = 65536 from rfl, h₁, h₂, h₃, h₄, h₅]
  cases s.ascii <;> rfl

/-- What `read_unicode_state` reads of a string tells how many characters it has and how they are
read back from behind its header, in the least of the widths 1, 2 and 4 that is enough for all of
them. -/
theorem read_unicode_state_spec {s : PyUnicode} {mem : Memory} {addr : ℕ}
    (h : s.StoredAt mem addr) :
  (read_unicode_state mem addr).length = s.chars.length
    ∧ readChars mem addr (read_unicode_state mem addr).kind s.chars.length = s.chars
    ∧ ((read_unicode_state mem addr).kind = 1 ∨ (read_unicode_state mem addr).kind = 2
      ∨ (read_unicode_state mem addr).kind = 4)
    ∧ (∀ w, w = 1 ∨ w = 2 ∨ w = 4 →
      ((read_unicode_state mem addr).kind ≤ w ↔ ∀ c ∈ s.chars, c < 256 ^ w))
    ∧ ((read_unicode_state mem addr).ascii = true ↔ ∀ c ∈ s.chars, c < 128)
    ∧ (read_unicode_state mem addr).hash = s.hash.toInt
    ∧ (read_unicode_state mem addr).interned = s.interned
  := by
  rw [read_unicode_state_eq h]
  refine ⟨rfl, ?_, s.kind_cases, ?_, ?_, rfl, rfl⟩
  · obtain ⟨-, -, -, hdata⟩ := h.fields
    apply List.ext_getElem
    · rw [readChars, List.length_map, List.length_range]
    · intro i hi hi'
      have hchar := hdata.field (LittleEndian.length_bytes s.kind) i hi'
      have hbytes := hchar.stringAt_eq
      rw [LittleEndian.length_bytes] at hbytes
      simp only [readChars, List.getElem_map, List.getElem_range]
      rw [hbytes, LittleEndian.value_bytes (s.char_lt_kind (List.getElem_mem hi'))]
  · intro w hw
    rw [← maxchar_lt_iff (Nat.pow_pos (by decide))]
    exact kindOf_le_iff s.maxchar_lt hw
  · rw [← maxchar_lt_iff (by decide)]
    exact decide_eq_true_iff

/-- The string `"é好"`, with two bytes for a character. -/
def sample : PyUnicode where
  chars := [0xE9, 0x597D]
  hash := -1
  interned := 0
  more := 0
  between := List.replicate 20 0
  char_lt := by decide
  length_lt := by decide
  between_length := by decide

/-- The string `"é好"` is read back from its state. -/
theorem read_unicode_state_sample :
  sample.StoredAt (Memory.of 4112 sample.layout) 4096
    ∧ readChars (Memory.of 4112 sample.layout) 4096
      (read_unicode_state (Memory.of 4112 sample.layout) 4096).kind 2 = [0xE9, 0x597D]
  := by
  have hstored : sample.StoredAt (Memory.of 4112 sample.layout) 4096 := Memory.holds_of _ _
  exact ⟨hstored, (read_unicode_state_spec hstored).2.1⟩

/-! ### Interning -/

section Interning

open Operations

/-- A string object, without what does not matter here. -/
structure Str where
  text : String
  interned : Bool

/-- The strings, the dictionary of the interned ones, and the variables, which may be unbound. -/
structure Interp where
  heap : List Str
  ids : DictObject.PyDictKeysObject String ℕ
  vars : List (Option ℕ)

variable (hash : String → ℕ)

/-- `PyUnicode_InternInPlace` for a variable that refers to the string at the address `s`: the
address that it refers to then, with the strings and the dictionary. -/
def PyUnicode_InternInPlace (s : ℕ) (heap : List Str)
    (ids : DictObject.PyDictKeysObject String ℕ) :
    Option (ℕ × List Str × DictObject.PyDictKeysObject String ℕ) :=
  heap[s]?.bind (fun v =>
    (DictObject.getItem hash ids v.text).bind (fun found =>
      match found with
      | some t => some (t, heap, ids)
      | none =>
          (DictObject.setItem hash ids v.text s).map
            (fun ids => (s, heap.set s { v with interned := true }, ids))))

/-- What a program does with strings: a new one, an assignment, interning, and a comparison. -/
inductive Op where
  | new (x : ℕ) (text : String)
  | copy (x y : ℕ)
  | intern (x : ℕ)
  | eq (x y : ℕ)

/-- The operations, with the result of a comparison, or with the field `interned` of the string
that was interned. -/
def exec (c : Interp) : Op → Option (Interp × Option Bool)
  | .new x text =>
      if x < c.vars.length then
        some ({ c with
          heap := c.heap ++ [⟨text, false⟩], vars := c.vars.set x (some c.heap.length) }, none)
      else none
  | .copy x y =>
      if x < c.vars.length then
        c.vars[y]?.join.map (fun s => ({ c with vars := c.vars.set x (some s) }, none))
      else none
  | .intern x =>
      c.vars[x]?.join.bind (fun s =>
        (PyUnicode_InternInPlace hash s c.heap c.ids).bind (fun r =>
          r.2.1[r.1]?.map
            (fun v => (⟨r.2.1, r.2.2, c.vars.set x (some r.1)⟩, some v.interned))))
  | .eq x y =>
      c.vars[x]?.join.bind (fun s => c.vars[y]?.join.bind (fun t =>
        c.heap[s]?.bind (fun v => c.heap[t]?.map (fun w => (c, some (v.text = w.text))))))

/-- The operations on the texts of the variables; interning does nothing. -/
def spec (texts : List (Option String)) : Op → Option (List (Option String) × Option Bool)
  | .new x text => if x < texts.length then some (texts.set x (some text), none) else none
  | .copy x y =>
      if x < texts.length then texts[y]?.join.map (fun v => (texts.set x (some v), none))
      else none
  | .intern x => texts[x]?.join.map (fun _ => (texts, some true))
  | .eq x y => texts[x]?.join.bind (fun v => texts[y]?.join.map (fun w => (texts, some (v = w))))

/-- Variables that are unbound, and no strings. -/
def init (slots : ℕ) : Interp := ⟨[], DictObject.PyDictKeysObject.empty, List.replicate slots none⟩

/-- The texts of the variables. -/
def texts (c : Interp) : List (Option String) :=
  c.vars.map (fun o => o.bind (fun s => c.heap[s]?.map Str.text))

/-- The dictionary leads from the texts of the interned strings to them, and the variables refer to
strings. -/
structure Inv (c : Interp) (xs : List (String × ℕ)) : Prop where
  holds : DictObject.Holds hash c.ids xs
  mem_iff : ∀ text (s : ℕ), (text, s) ∈ xs ↔ c.heap[s]? = some ⟨text, true⟩
  vars_lt : ∀ s, some s ∈ c.vars → s < c.heap.length

variable {hash} {c : Interp} {xs : List (String × ℕ)}

/-- Looking up a text gives the interned string with the text, if there is one. -/
theorem getItem_cases (h : Inv hash c xs) (text : String) :
  (∃ t : ℕ, DictObject.getItem hash c.ids text = some (some t)
      ∧ c.heap[t]? = some ⟨text, true⟩) ∨
    (DictObject.getItem hash c.ids text = some none ∧ text ∉ xs.map Prod.fst)
  := by
  have hrel := DictObject.exec_rel (.get text) h.holds
  rw [DictObject.exec, DictObject.spec] at hrel
  cases hget : DictObject.getItem hash c.ids text with
  | none =>
      rw [hget] at hrel
      cases hrel
  | some found =>
      rw [hget] at hrel
      cases hrel with
      | some hsame =>
          have hfound : found = (xs.find? (fun x => x.1 = text)).map Prod.snd := hsame.2
          cases hfind : xs.find? (fun x => x.1 = text) with
          | none =>
              right
              rw [hfound, hfind]
              refine ⟨rfl, ?_⟩
              intro hmem
              obtain ⟨x, hx, hxtext⟩ := List.mem_map.mp hmem
              have hne := List.find?_eq_none.mp hfind x hx
              simp only [decide_eq_true_eq] at hne
              exact hne hxtext
          | some x =>
              left
              obtain ⟨text', t⟩ := x
              have htext := List.find?_some hfind
              simp only [decide_eq_true_eq] at htext
              obtain rfl : text' = text := htext
              refine ⟨t, ?_, ?_⟩
              · rw [hfound, hfind]
                rfl
              · apply (h.mem_iff text' t).mp
                exact List.mem_of_find?_eq_some hfind

/-- A text that is new is added to the dictionary. -/
theorem exists_setItem (h : Inv hash c xs) {text : String} (hnew : text ∉ xs.map Prod.fst) (s : ℕ) :
  ∃ ids, DictObject.setItem hash c.ids text s = some ids
    ∧ DictObject.Holds hash ids (xs ++ [(text, s)])
  := by
  have hrel := DictObject.exec_rel (.set text s) h.holds
  rw [DictObject.exec, DictObject.spec, if_neg hnew] at hrel
  cases hset : DictObject.setItem hash c.ids text s with
  | none =>
      rw [hset] at hrel
      cases hrel
  | some ids =>
      rw [hset] at hrel
      cases hrel with
      | some hsame => exact ⟨ids, rfl, hsame.1⟩

/-- The text of a variable. -/
theorem getElem?_texts (c : Interp) (x : ℕ) :
  (texts c)[x]?.join = c.vars[x]?.join.bind (fun s => c.heap[s]?.map Str.text)
  := by
  rw [texts, List.getElem?_map]
  cases c.vars[x]? with
  | none => rfl
  | some o =>
      cases o with
      | none => rfl
      | some s => rfl

/-- What a variable refers to is there. -/
theorem exists_str (h : Inv hash c xs) {x s : ℕ} (hx : c.vars[x]?.join = some s) :
  ∃ v, c.heap[s]? = some v
  := by
  rw [Option.join_eq_some_iff] at hx
  have hlt := h.vars_lt s (List.mem_of_getElem? hx)
  exact ⟨_, List.getElem?_eq_getElem hlt⟩

/-- The variables refer to strings, when one of them is set to a string. -/
theorem vars_lt_set (h : Inv hash c xs) {n t : ℕ} (hn : c.heap.length ≤ n) (ht : t < n) (x s : ℕ)
    (hs : some s ∈ c.vars.set x (some t)) :
  s < n
  := by
  rcases List.mem_or_eq_of_mem_set hs with hold | hnew
  · exact Nat.lt_of_lt_of_le (h.vars_lt s hold) hn
  · rw [Option.some.inj hnew]
    exact ht

/-- Exchanging the string of a variable for one with the same text, when the strings keep their
texts. -/
theorem texts_set {heap : List Str} {ids : DictObject.PyDictKeysObject String ℕ} {x s t : ℕ}
    {v : Str} (hx : c.vars[x]?.join = some s) (hs : c.heap[s]? = some v)
    (ht : heap[t]?.map Str.text = some v.text)
    (hheap : ∀ i : ℕ, heap[i]?.map Str.text = c.heap[i]?.map Str.text) :
  texts ⟨heap, ids, c.vars.set x (some t)⟩ = texts c
  := by
  rw [Option.join_eq_some_iff] at hx
  apply List.ext_getElem?
  intro y
  rw [texts, texts, List.getElem?_map, List.getElem?_map]
  dsimp only
  by_cases hy : x = y
  · subst hy
    rw [List.getElem?_set_self (List.getElem?_eq_some_iff.mp hx).1, hx, Option.map_some,
      Option.map_some, Option.bind_some, Option.bind_some, ht, hs]
    rfl
  · rw [List.getElem?_set_ne hy]
    congr 1
    funext o
    cases o with
    | none => rfl
    | some i => exact hheap i

/-- A string that is marked as interned is added to the dictionary. -/
theorem mem_iff_mark (h : Inv hash c xs) {s : ℕ} {v : Str} (hs : c.heap[s]? = some v)
    (text : String) (i : ℕ) :
  (text, i) ∈ xs ++ [(v.text, s)]
    ↔ (c.heap.set s { v with interned := true })[i]? = some ⟨text, true⟩
  := by
  rw [List.mem_append, List.mem_singleton, h.mem_iff, Prod.mk.injEq]
  by_cases hi : s = i
  · subst hi
    rw [List.getElem?_set_self (List.getElem?_eq_some_iff.mp hs).1, hs]
    constructor
    · rintro (heq | ⟨rfl, -⟩)
      · rw [Option.some.inj heq]
      · rfl
    · intro heq
      right
      exact ⟨(congrArg Str.text (Option.some.inj heq)).symm, rfl⟩
  · rw [List.getElem?_set_ne hi]
    constructor
    · rintro (heq | ⟨-, rfl⟩)
      · exact heq
      · exact absurd rfl hi
    · intro heq
      left
      exact heq

/-- `PyUnicode_InternInPlace` gives an interned string with the same text, and no string changes
its text. -/
theorem exists_intern (h : Inv hash c xs) {x s : ℕ} {v : Str} (hx : c.vars[x]?.join = some s)
    (hs : c.heap[s]? = some v) :
  ∃ t heap ids ys, PyUnicode_InternInPlace hash s c.heap c.ids = some (t, heap, ids)
    ∧ heap[t]? = some ⟨v.text, true⟩ ∧ Inv hash ⟨heap, ids, c.vars.set x (some t)⟩ ys
    ∧ texts ⟨heap, ids, c.vars.set x (some t)⟩ = texts c
  := by
  rcases getItem_cases h v.text with ⟨t, hget, ht⟩ | ⟨hget, hnew⟩
  · refine ⟨t, c.heap, c.ids, xs, ?_, ht, ⟨h.holds, h.mem_iff, ?_⟩, ?_⟩
    · rw [PyUnicode_InternInPlace, hs, Option.bind_some, hget, Option.bind_some]
    · exact vars_lt_set h (Nat.le_refl _) (List.getElem?_eq_some_iff.mp ht).1 x
    · apply texts_set hx hs
      · rw [ht]
        rfl
      · intro i
        rfl
  · obtain ⟨ids, hinsert, hholds⟩ := exists_setItem h hnew s
    have hlt := (List.getElem?_eq_some_iff.mp hs).1
    have hself : (c.heap.set s { v with interned := true })[s]? = some ⟨v.text, true⟩ :=
      List.getElem?_set_self hlt
    refine ⟨s, c.heap.set s { v with interned := true }, ids, xs ++ [(v.text, s)], ?_, hself,
      ⟨hholds, mem_iff_mark h hs, ?_⟩, ?_⟩
    · rw [PyUnicode_InternInPlace, hs, Option.bind_some, hget, Option.bind_some]
      dsimp only
      rw [hinsert]
      rfl
    · dsimp only
      rw [List.length_set]
      exact vars_lt_set h (Nat.le_refl _) hlt x
    · apply texts_set hx hs
      · rw [hself]
        rfl
      · intro i
        by_cases hi : s = i
        · rw [← hi, hself, hs]
          rfl
        · rw [List.getElem?_set_ne hi]

/-- A new string changes the text of no other variable. -/
theorem texts_new (h : Inv hash c xs) (x : ℕ) (text : String) :
  texts ⟨c.heap ++ [⟨text, false⟩], c.ids, c.vars.set x (some c.heap.length)⟩
    = (texts c).set x (some text)
  := by
  rw [texts, texts, List.map_set]
  congr 1
  · apply List.map_congr_left
    intro o ho
    cases o with
    | none => rfl
    | some s =>
        dsimp only [Option.bind_some]
        rw [List.getElem?_append_left (h.vars_lt s ho)]
  · dsimp only [Option.bind_some]
    rw [List.getElem?_concat_length]
    rfl

/-- An operation does to the texts what it does when nothing is interned. -/
theorem exec_rel (c : Interp) (t : List (Option String)) (op : Op)
    (h : (∃ xs, Inv hash c xs) ∧ texts c = t) :
  Option.Rel (Same (fun c t => (∃ xs, Inv hash c xs) ∧ texts c = t)) (exec hash c op) (spec t op)
  := by
  obtain ⟨⟨xs, h⟩, rfl⟩ := h
  have hlength : (texts c).length = c.vars.length := List.length_map _
  cases op with
  | new x text =>
      rw [exec, spec, hlength]
      split
      · apply Option.Rel.some
        refine ⟨⟨⟨xs, h.holds, ?_, ?_⟩, texts_new h x text⟩, rfl⟩
        · intro text' s
          rw [h.mem_iff]
          dsimp only
          by_cases hs : s < c.heap.length
          · rw [List.getElem?_append_left hs]
          · rw [List.getElem?_append_right (by omega), List.getElem?_eq_none (by omega)]
            constructor
            · intro hnone
              cases hnone
            · intro hsome
              cases List.mem_singleton.mp (List.mem_of_getElem? hsome)
        · dsimp only
          rw [List.length_append, List.length_singleton]
          exact vars_lt_set h (Nat.le_succ _) (Nat.lt_succ_self _) x
      · exact Option.Rel.none
  | copy x y =>
      rw [exec, spec, hlength, getElem?_texts]
      split
      · cases hy : c.vars[y]?.join with
        | none => exact Option.Rel.none
        | some s =>
            obtain ⟨v, hv⟩ := exists_str h hy
            rw [Option.bind_some, hv]
            apply Option.Rel.some
            refine ⟨⟨⟨xs, h.holds, h.mem_iff, ?_⟩, ?_⟩, rfl⟩
            · exact vars_lt_set h (Nat.le_refl _) (List.getElem?_eq_some_iff.mp hv).1 x
            · rw [texts, texts, List.map_set]
              dsimp only [Option.bind_some]
              rw [hv]
              rfl
      · exact Option.Rel.none
  | intern x =>
      rw [exec, spec, getElem?_texts]
      cases hx : c.vars[x]?.join with
      | none => exact Option.Rel.none
      | some s =>
          obtain ⟨v, hv⟩ := exists_str h hx
          obtain ⟨t, heap, ids, ys, hintern, ht, hinv, htexts⟩ := exists_intern h hx hv
          rw [Option.bind_some, Option.bind_some, hintern, hv, Option.bind_some]
          dsimp only
          rw [ht]
          apply Option.Rel.some
          exact ⟨⟨⟨ys, hinv⟩, htexts⟩, rfl⟩
  | eq x y =>
      rw [exec, spec, getElem?_texts, getElem?_texts]
      cases hx : c.vars[x]?.join with
      | none => exact Option.Rel.none
      | some s =>
          obtain ⟨v, hv⟩ := exists_str h hx
          rw [Option.bind_some, Option.bind_some, hv, Option.map_some, Option.bind_some]
          cases hy : c.vars[y]?.join with
          | none => exact Option.Rel.none
          | some t =>
              obtain ⟨w, hw⟩ := exists_str h hy
              simp only [Option.bind_some, hw, Option.map_some]
              apply Option.Rel.some
              exact ⟨⟨⟨xs, h⟩, rfl⟩, rfl⟩

/-- A program reads of its strings what it would read if nothing were interned; and among the
interned strings those with equal texts are the same object. -/
theorem intern_run (hash : String → ℕ) (slots : ℕ) (ops : List Op) :
  Option.Rel (fun r r' => texts r.1 = r'.1 ∧ r.2 = r'.2
      ∧ ∀ (s t : ℕ) text text', r.1.heap[s]? = some ⟨text, true⟩ →
        r.1.heap[t]? = some ⟨text', true⟩ → (text = text' ↔ s = t))
    (run (exec hash) (init slots) ops) (run spec (List.replicate slots none) ops)
  := by
  have hinit : (∃ xs, Inv hash (init slots) xs)
      ∧ texts (init slots) = List.replicate slots none := by
    refine ⟨⟨[], DictObject.holds_empty hash, ?_, ?_⟩, ?_⟩
    · intro text s
      refine iff_of_false List.not_mem_nil ?_
      intro hnone
      cases hnone
    · intro s hs
      cases List.eq_of_mem_replicate hs
    · rw [texts, init, List.map_replicate]
      rfl
  have hrun := run_rel exec_rel hinit ops
  generalize run (exec hash) (init slots) ops = a at hrun
  generalize run spec (List.replicate slots none) ops = b at hrun
  cases hrun with
  | none => exact Option.Rel.none
  | some hsame =>
      obtain ⟨⟨⟨xs, h⟩, htexts⟩, hresults⟩ := hsame
      apply Option.Rel.some
      refine ⟨htexts, hresults, ?_⟩
      intro s t text text' hs ht
      rw [← h.mem_iff] at hs ht
      constructor
      · rintro rfl
        obtain ⟨i, hi⟩ := List.mem_iff_getElem?.mp hs
        obtain ⟨j, hj⟩ := List.mem_iff_getElem?.mp ht
        have hij := DictObject.eq_of_key_eq h.holds.nodup hi hj rfl
        rw [hij, hj] at hi
        exact (congrArg Prod.snd (Option.some.inj hi)).symm
      · rintro rfl
        rw [h.mem_iff] at hs ht
        rw [hs] at ht
        exact congrArg Str.text (Option.some.inj ht)

end Interning

end UnicodeObject
