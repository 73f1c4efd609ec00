import PythonInternals.Ctypes
import PythonInternals.DictObject
import PythonInternals.ListObject
import PythonInternals.LongObject

/-!
# The probes of lists and dictionaries

`read_list_info` of `list_demo.py` and `read_dict_keys` of `dict_demo.py` read an object through
its address, at the offsets of its fields.  Whatever operations have led to the object, they show
what the object is for: the first elements of the list in their order (`read_list_info_run`), and
for a dictionary the number of its keys in a table whose size is a power of two and of which two
thirds can be used (`read_dict_keys_run`).
-/

namespace Probes

open Operations

/-- `hex(ptr) if ptr else "NULL"`. -/
def hexOrNull (ptr : Option ℕ) : String :=
  match ptr with
  | some p => LongObject.hex p
  | none => "NULL"

/-! ### Lists -/

/-- The dictionary that `read_list_info` returns. -/
structure ListInfo where
  len : ℤ
  allocated : ℤ
  ob_item : String
  elements : List String
  deriving DecidableEq

/-- `read_list_info` of the list at `addr`. -/
def read_list_info (mem : Memory) (addr : ℕ) : ListInfo :=
  let ob_size := mem.c_ssize_t (addr + 16)
  let ob_item_ptr := mem.c_void_p (addr + 24)
  let allocated := mem.c_ssize_t (addr + 32)
  let elements :=
    match ob_item_ptr with
    | some ptr =>
        if ob_size > 0 then
          (List.range (min ob_size 5).toNat).map (fun i => hexOrNull (mem.c_void_p (ptr + i * 8)))
        else []
    | none => []
  { len := ob_size
    allocated := allocated
    ob_item := hexOrNull ob_item_ptr
    elements := elements }

/-- The list object lies at `addr`, and its array at `items`, which is null at most when there are
no elements.  The elements are addresses of objects. -/
structure ListAt (l : ListObject.PyListObject ℕ) (mem : Memory) (addr items : ℕ) : Prop where
  ob_size_lt : l.ob_size < 2 ^ 63
  allocated_lt : l.allocated < 2 ^ 63
  items_lt : items < 2 ^ 64
  items_pos : 0 < l.ob_size → 0 < items
  ob_size : mem.Holds (addr + 16) (LittleEndian.bytes 8 l.ob_size)
  ob_item : mem.Holds (addr + 24) (LittleEndian.bytes 8 items)
  allocated : mem.Holds (addr + 32) (LittleEndian.bytes 8 l.allocated)
  slot : ∀ (i : ℕ) p, l.ob_item[i]? = some (some p) →
    0 < p ∧ p < 2 ^ 64 ∧ mem.Holds (items + i * 8) (LittleEndian.bytes 8 p)

/-- What is read of a list object with the elements `xs`. -/
theorem read_list_info_eq {l : ListObject.PyListObject ℕ} {xs : List ℕ} {mem : Memory}
    {addr items : ℕ} (hl : ListObject.Represents l xs) (h : ListAt l mem addr items) :
  (read_list_info mem addr).len = xs.length
    ∧ (read_list_info mem addr).allocated = l.allocated
    ∧ (read_list_info mem addr).elements = (xs.take 5).map LongObject.hex
  := by
  have hsize := Memory.c_ssize_t_eq h.ob_size h.ob_size_lt
  have hallocated := Memory.c_ssize_t_eq h.allocated h.allocated_lt
  rw [hl.ob_size_eq] at hsize
  rw [read_list_info]
  dsimp only
  rw [hsize, hallocated]
  refine ⟨rfl, rfl, ?_⟩
  by_cases hxs : xs = []
  · subst hxs
    cases mem.c_void_p (addr + 24) <;> rfl
  · have hpos : 0 < xs.length := List.length_pos_iff.mpr hxs
    have hptr := h.items_pos (by rw [hl.ob_size_eq]; exact hpos)
    rw [Memory.c_void_p_eq h.ob_item hptr h.items_lt]
    dsimp only
    rw [if_pos (by omega)]
    apply List.ext_getElem
    · rw [List.length_map, List.length_map, List.length_range, List.length_take]
      omega
    · intro i hi hi'
      rw [List.length_map, List.length_take] at hi'
      have hx : i < xs.length := by omega
      have hslot : l.ob_item[i]? = some (some xs[i]) := by
        obtain ⟨rest, hrest⟩ := hl.items
        rw [← hrest, List.getElem?_append_left (by rwa [List.length_map]), List.getElem?_map,
          List.getElem?_eq_getElem hx]
        rfl
      obtain ⟨hp, hlt, hheld⟩ := h.slot i _ hslot
      rw [List.getElem_map, List.getElem_map, List.getElem_range, List.getElem_take,
        Memory.c_void_p_eq hheld hp hlt]
      rfl

/-- After any operations on an empty list, `read_list_info` shows the length of what the same
operations make of a list, no more than what is allocated, and the first five elements in their
order. -/
theorem read_list_info_run (ops : List (ListObject.Op ℕ)) :
  Option.Rel
    (Same (fun l xs => ∀ mem addr items, ListAt l mem addr items →
      (read_list_info mem addr).len = xs.length
        ∧ (read_list_info mem addr).len ≤ (read_list_info mem addr).allocated
        ∧ (read_list_info mem addr).elements = (xs.take 5).map LongObject.hex))
    (run ListObject.exec ListObject.PyListObject.empty ops) (run ListObject.spec [] ops)
  := by
  have hrun := run_rel (fun _ _ op h => ListObject.exec_rel op h)
    (ListObject.represents_empty (α := ℕ)) ops
  generalize run ListObject.exec ListObject.PyListObject.empty ops = a at hrun
  generalize run ListObject.spec [] ops = b at hrun
  cases hrun with
  | none => exact Option.Rel.none
  | some hsame =>
      obtain ⟨hl, hout⟩ := hsame
      apply Option.Rel.some
      refine ⟨?_, hout⟩
      intro mem addr items h
      obtain ⟨hlen, hallocated, helements⟩ := read_list_info_eq hl h
      refine ⟨hlen, ?_, helements⟩
      have hle := hl.ob_size_le
      rw [hl.ob_size_eq] at hle
      rw [hlen, hallocated]
      omega

/-- A list with the elements at 5000 and 6000, and its array behind it. -/
def listMemory : Memory :=
  Memory.of 4112 (LittleEndian.bytes 8 2 ++ (LittleEndian.bytes 8 4136 ++ (LittleEndian.bytes 8 4
    ++ (LittleEndian.bytes 8 5000 ++ LittleEndian.bytes 8 6000))))

/-- `lst = []; lst.append(a); lst.append(b)`. -/
theorem read_list_info_two :
  ∃ l out, run ListObject.exec ListObject.PyListObject.empty [.append 5000, .append 6000]
      = some (l, out) ∧ ListAt l listMemory 4096 4136
    ∧ (read_list_info listMemory 4096).elements = [5000, 6000].map LongObject.hex
  := by
  have hrun : run ListObject.exec ListObject.PyListObject.empty [.append 5000, .append 6000]
    = some (⟨[some 5000, some 6000, none, none], 4, 2⟩, _) := rfl
  have hspec : run ListObject.spec [] [.append 5000, .append 6000] = some ([5000, 6000], _) := rfl
  obtain ⟨h₁, h⟩ := Memory.holds_append.mp (Memory.holds_of 4112 (LittleEndian.bytes 8 2 ++
    (LittleEndian.bytes 8 4136 ++ (LittleEndian.bytes 8 4
      ++ (LittleEndian.bytes 8 5000 ++ LittleEndian.bytes 8 6000)))))
  obtain ⟨h₂, h⟩ := Memory.holds_append.mp h
  obtain ⟨h₃, h⟩ := Memory.holds_append.mp h
  obtain ⟨h₄, h₅⟩ := Memory.holds_append.mp h
  have hat : ListAt ⟨[some 5000, some 6000, none, none], 4, 2⟩ listMemory 4096 4136 := by
    refine ⟨by decide, by decide, by decide, fun _ => by decide, h₁, h₂, h₃, ?_⟩
    intro i p hi
    match i, hi with
    | 0, hi =>
        obtain rfl : 5000 = p := Option.some.inj (Option.some.inj hi)
        exact ⟨by decide, by decide, h₄⟩
    | 1, hi =>
        obtain rfl : 6000 = p := Option.some.inj (Option.some.inj hi)
        exact ⟨by decide, by decide, h₅⟩
    | 2, hi => cases hi
    | 3, hi => cases hi
    | i + 4, hi => cases hi
  have hrel := read_list_info_run [.append 5000, .append 6000]
  rw [hrun, hspec] at hrel
  cases hrel with
  | some hsame => exact ⟨_, _, hrun, hat, (hsame.1 listMemory 4096 4136 hat).2.2⟩

/-! ### Dictionaries -/

/-- The dictionary that `read_dict_keys` returns, if `ma_keys` is not null. -/
structure KeysInfo where
  keys_ptr : String
  size : ℕ
  log2_size : ℕ
  refcnt : ℤ
  usable : ℤ
  nentries : ℤ
  version : ℕ
  kind : ℕ
  deriving DecidableEq

/-- `read_dict_keys` of the dictionary at `addr`; an error when `ma_keys` is null. -/
def read_dict_keys (mem : Memory) (addr : ℕ) : Except String KeysInfo :=
  match mem.c_void_p (addr + 32) with
  | none => .error "ma_keys is NULL"
  | some keys_ptr =>
      let dk_refcnt := mem.c_ssize_t keys_ptr
      let dk_log2_size := mem.c_uint 1 (keys_ptr + 8)
      let dk_kind := mem.c_uint 1 (keys_ptr + 10)
      let dk_version := mem.c_uint 4 (keys_ptr + 12)
      let dk_usable := mem.c_ssize_t (keys_ptr + 16)
      let dk_nentries := mem.c_ssize_t (keys_ptr + 24)
      .ok
        { keys_ptr := LongObject.hex keys_ptr
          size := 1 <<< dk_log2_size
          log2_size := dk_log2_size
          refcnt := dk_refcnt
          usable := dk_usable
          nentries := dk_nentries
          version := dk_version
          kind := dk_kind }

/-- A dictionary with the keys object `dk` lies at `addr`, and the keys object at `keys`. -/
structure DictAt {K V : Type*} (dk : DictObject.PyDictKeysObject K V) (mem : Memory)
    (addr keys : ℕ) : Prop where
  keys_pos : 0 < keys
  keys_lt : keys < 2 ^ 64
  log2_size_lt : dk.dk_log2_size < 256
  usable_lt : dk.dk_usable < 2 ^ 63
  nentries_lt : dk.dk_entries.length < 2 ^ 63
  ma_keys : mem.Holds (addr + 32) (LittleEndian.bytes 8 keys)
  log2_size : mem.Holds (keys + 8) (LittleEndian.bytes 1 dk.dk_log2_size)
  usable : mem.Holds (keys + 16) (LittleEndian.bytes 8 dk.dk_usable)
  nentries : mem.Holds (keys + 24) (LittleEndian.bytes 8 dk.dk_entries.length)

section Dictionaries

variable {K V : Type*} {mem : Memory} {addr keys : ℕ}

/-- What is read of a keys object. -/
theorem read_dict_keys_eq {dk : DictObject.PyDictKeysObject K V} (h : DictAt dk mem addr keys) :
  ∃ info, read_dict_keys mem addr = .ok info ∧ info.keys_ptr = LongObject.hex keys
    ∧ info.size = DictObject.DK_SIZE dk ∧ info.usable = dk.dk_usable
    ∧ info.nentries = dk.dk_entries.length
  := by
  rw [read_dict_keys, Memory.c_void_p_eq h.ma_keys h.keys_pos h.keys_lt]
  dsimp only
  rw [Memory.c_uint_eq h.log2_size h.log2_size_lt, Memory.c_ssize_t_eq h.usable h.usable_lt,
    Memory.c_ssize_t_eq h.nentries h.nentries_lt]
  exact ⟨_, rfl, rfl, rfl, rfl, rfl⟩

variable [DecidableEq K]

/-- After any lookups and assignments on an empty dictionary, `read_dict_keys` shows the number of
the keys and a table of which two thirds, rounded down, are or can be used.  Its size is 1 when
there are no keys, and else a power of two from 8 on. -/
theorem read_dict_keys_run (hash : K → ℕ) (ops : List (DictObject.Op K V)) :
  Option.Rel
    (Same (fun dk xs => ∀ mem addr keys, DictAt dk mem addr keys →
      ∃ info, read_dict_keys mem addr = .ok info
        ∧ info.nentries = (xs.map Prod.fst).length ∧ (xs.map Prod.fst).Nodup
        ∧ (xs = [] → info.size = 1) ∧ (xs ≠ [] → ∃ k, 3 ≤ k ∧ info.size = 2 ^ k)
        ∧ 0 ≤ info.usable
        ∧ info.usable + info.nentries = (2 * info.size / 3 : ℕ)))
    (run (DictObject.exec hash) DictObject.PyDictKeysObject.empty ops) (run DictObject.spec [] ops)
  := by
  have hrun := run_rel (fun _ _ op h => DictObject.exec_rel op h)
    (DictObject.holds_empty (V := V) hash) ops
  generalize run (DictObject.exec hash) DictObject.PyDictKeysObject.empty ops = a at hrun
  generalize run DictObject.spec [] ops = b at hrun
  cases hrun with
  | none => exact Option.Rel.none
  | @some a b hsame =>
      obtain ⟨dk, out⟩ := a
      obtain ⟨xs, out'⟩ := b
      obtain ⟨hdict, hout⟩ := hsame
      apply Option.Rel.some
      refine ⟨?_, hout⟩
      intro mem addr keys h
      obtain ⟨info, hread, -, hsize, husable, hnentries⟩ := read_dict_keys_eq h
      have hcount := hdict.usable
      rw [DictObject.USABLE_FRACTION] at hcount
      rw [hdict.entries] at hnentries
      refine ⟨info, hread, ?_, hdict.nodup, ?_, ?_, ?_, ?_⟩
      · rw [hnentries, List.length_map]
      · intro hnil
        rw [hsize, DictObject.DK_SIZE, hdict.size_empty hnil, Nat.shiftLeft_zero]
      · intro hne
        use dk.dk_log2_size, hdict.size hne
        rw [hsize, DictObject.DK_SIZE, Nat.one_shiftLeft]
      · rw [husable]
        exact Int.natCast_nonneg _
      · rw [husable, hnentries, hsize, ← hcount]
        rfl

end Dictionaries

/-- A dictionary with its keys object behind it: 8 slots and one key. -/
def dictMemory : Memory :=
  Memory.of 4128 (LittleEndian.bytes 8 4136 ++ (LittleEndian.bytes 8 1 ++ (LittleEndian.bytes 1 3
    ++ (List.replicate 7 0 ++ (LittleEndian.bytes 8 4 ++ LittleEndian.bytes 8 1)))))

/-- `d = {}; d["a"] = 1`. -/
theorem read_dict_keys_one :
  ∃ dk out, run (DictObject.exec String.length) DictObject.PyDictKeysObject.empty [.set "a" 1]
      = some (dk, out) ∧ DictAt dk dictMemory 4096 4136
    ∧ ∃ info, read_dict_keys dictMemory 4096 = .ok info ∧ info.nentries = 1
  := by
  have hrun : run (DictObject.exec String.length) DictObject.PyDictKeysObject.empty [.set "a" 1]
    = some (⟨3, 4, [none, some 0, none, none, none, none, none, none], [("a", 1)]⟩, _) := rfl
  have hspec : run DictObject.spec [] [.set "a" 1] = some ([("a", 1)], _) := rfl
  obtain ⟨h₁, h⟩ := Memory.holds_append.mp (Memory.holds_of 4128 (LittleEndian.bytes 8 4136 ++
    (LittleEndian.bytes 8 1 ++ (LittleEndian.bytes 1 3
      ++ (List.replicate 7 0 ++ (LittleEndian.bytes 8 4 ++ LittleEndian.bytes 8 1))))))
  obtain ⟨-, h⟩ := Memory.holds_append.mp h
  obtain ⟨h₂, h⟩ := Memory.holds_append.mp h
  obtain ⟨-, h⟩ := Memory.holds_append.mp h
  obtain ⟨h₃, h₄⟩ := Memory.holds_append.mp h
  have hat : DictAt (⟨3, 4, [none, some 0, none, none, none, none, none, none], [("a", 1)]⟩ :
      DictObject.PyDictKeysObject String ℕ) dictMemory 4096 4136 :=
    ⟨by decide, by decide, by decide, by decide, by decide, h₁, h₂, h₃, h₄⟩
  have hrel := read_dict_keys_run String.length [.set "a" 1]
  rw [hrun, hspec] at hrel
  cases hrel with
  | some hsame =>
      obtain ⟨info, hread, hnentries, -⟩ := hsame.1 dictMemory 4096 4136 hat
      exact ⟨_, _, hrun, hat, info, hread, hnentries⟩

end Probes
