import Mathlib.Data.List.Nodup
import PythonInternals.Foundation.Operations
import PythonInternals.Foundation.Probing

/-!
# The dictionary object

The entries of a dictionary lie in `dk_entries` in the order in which they were added, and the
hash table `dk_indices` has the position of an entry in the first slot, from the slot of its hash
on, that was empty.  When two thirds of the slots are in use the table is doubled, and the entries
are put into the new table.  The empty dictionary has a table of one slot, and that of its first
entry has 8.

Whatever the hashes of the keys are, every sequence of lookups and assignments gives what it gives
on a list of pairs in the order of insertion (`dict_run`): no search goes round for ever, it finds
the entry of a key that there is, and no other.  Deletions are not described, and are left out.
-/

namespace DictObject

open Operations Probing

section Model

variable {K V : Type*} [DecidableEq K]

/-- The keys object of a dictionary; the slots with `DKIX_EMPTY` are `none`. -/
structure PyDictKeysObject (K V : Type*) where
  dk_log2_size : ℕ
  dk_usable : ℕ
  dk_indices : List (Option ℕ)
  dk_entries : List (K × V)

def DK_SIZE (dk : PyDictKeysObject K V) : ℕ := 1 <<< dk.dk_log2_size

def USABLE_FRACTION (n : ℕ) : ℕ := 2 * n / 3

/-- The keys object of `{}`, which has no room for an entry. -/
def PyDictKeysObject.empty : PyDictKeysObject K V where
  dk_log2_size := 0
  dk_usable := 0
  dk_indices := [none]
  dk_entries := []

/-- The key of the entry that the slot `i` leads to, or `none` for `NULL`. -/
def keyAt (dk : PyDictKeysObject K V) (i : ℕ) : Option K :=
  match dk.dk_indices[i]? with
  | some (some ix) => (dk.dk_entries[ix]?).map Prod.fst
  | _ => none

/-- A pass of the loop of the lookup. -/
def lookupPass (dk : PyDictKeysObject K V) (key : K) (i : ℕ) : Except (Option ℕ) ℕ :=
  if keyAt dk i ≠ some key then
    if keyAt dk i = none then .error none
    else .ok ((i + 1) &&& (DK_SIZE dk - 1))
  else .error (some i)

/-- The slot of a key, or `none` for `DKIX_EMPTY`, when the loop is left after `DK_SIZE` passes at
most. -/
def dict_lookup (hash : K → ℕ) (dk : PyDictKeysObject K V) (key : K) : Option (Option ℕ) :=
  Loop.run (lookupPass dk key) (DK_SIZE dk) (hash key &&& (DK_SIZE dk - 1))

/-- A pass of the search of an empty slot. -/
def emptySlotPass (size : ℕ) (indices : List (Option ℕ)) (i : ℕ) : Except ℕ ℕ :=
  match indices[i]? with
  | some (some _) => .ok ((i + 1) &&& (size - 1))
  | _ => .error i

/-- The indices with `ix` in the first empty slot from the slot of the hash on. -/
def insertIndex (size : ℕ) (indices : List (Option ℕ)) (hash ix : ℕ) :
    Option (List (Option ℕ)) :=
  (Loop.run (emptySlotPass size indices) size (hash &&& (size - 1))).map
    (fun i => indices.set i (some ix))

/-- Put the entries into a table, from the position `ix` on. -/
def buildIndices (hash : K → ℕ) (size : ℕ) :
    List (K × V) → ℕ → List (Option ℕ) → Option (List (Option ℕ))
  | [], _, indices => some indices
  | entry :: entries, ix, indices =>
      (insertIndex size indices (hash entry.1) ix).bind
        (buildIndices hash size entries (ix + 1))

/-- Double the table, and find the slots of all the entries again; the table of the first entry
has 8 slots. -/
def dictresize (hash : K → ℕ) (dk : PyDictKeysObject K V) : Option (PyDictKeysObject K V) :=
  let log2_newsize := max 3 (dk.dk_log2_size + 1)
  let newsize := 1 <<< log2_newsize
  (buildIndices hash newsize dk.dk_entries 0 (List.replicate newsize none)).map
    (fun indices =>
      { dk with
        dk_log2_size := log2_newsize
        dk_usable := USABLE_FRACTION newsize - dk.dk_entries.length
        dk_indices := indices })

/-- Add an entry for a key that is not there. -/
def insertEntry (hash : K → ℕ) (dk : PyDictKeysObject K V) (key : K) (value : V) :
    Option (PyDictKeysObject K V) :=
  (if dk.dk_usable = 0 then dictresize hash dk else some dk).bind fun dk =>
    (insertIndex (DK_SIZE dk) dk.dk_indices (hash key) dk.dk_entries.length).map
      (fun indices =>
        { dk with
          dk_usable := dk.dk_usable - 1
          dk_indices := indices
          dk_entries := dk.dk_entries ++ [(key, value)] })

/-- `d[key] = value`. -/
def setItem (hash : K → ℕ) (dk : PyDictKeysObject K V) (key : K) (value : V) :
    Option (PyDictKeysObject K V) :=
  (dict_lookup hash dk key).bind fun slot =>
    match slot with
    | none => insertEntry hash dk key value
    | some i =>
        dk.dk_indices[i]?.join.map
          (fun ix => { dk with dk_entries := dk.dk_entries.set ix (key, value) })

/-- `d.get(key)`. -/
def getItem (hash : K → ℕ) (dk : PyDictKeysObject K V) (key : K) : Option (Option V) :=
  (dict_lookup hash dk key).bind fun slot =>
    match slot with
    | none => some none
    | some i =>
        dk.dk_indices[i]?.join.map (fun ix => (dk.dk_entries[ix]?).map Prod.snd)

/-- An operation on a dictionary. -/
inductive Op (K V : Type*) where
  | get (key : K)
  | set (key : K) (value : V)

/-- What an operation does to the object, and the value that it gives; `none` when it does not
come to an end. -/
def exec (hash : K → ℕ) (dk : PyDictKeysObject K V) :
    Op K V → Option (PyDictKeysObject K V × Option V)
  | .get key => (getItem hash dk key).map (fun v => (dk, v))
  | .set key value => (setItem hash dk key value).map (fun dk => (dk, none))

/-- What an operation does to a list of pairs in the order of insertion. -/
def spec (xs : List (K × V)) : Op K V → Option (List (K × V) × Option V)
  | .get key => some (xs, (xs.find? (fun x => x.1 = key)).map Prod.snd)
  | .set key value =>
      if key ∈ xs.map Prod.fst then
        some (xs.map (fun x => if x.1 = key then (key, value) else x), none)
      else some (xs ++ [(key, value)], none)

end Model

example :
    (run (exec (fun _ => 7)) (PyDictKeysObject.empty : PyDictKeysObject ℕ ℕ)
      [.set 1 10, .set 2 20, .set 1 11, .get 1, .get 3]).map Prod.snd
      = some [none, none, none, some 11, none] := by
  decide

/-! ### The searches -/

section Searches

variable {K V : Type*}

/-- The search of an empty slot ends, and the table has one more item then. -/
theorem insertIndex_table {log2 n : ℕ} {home : ℕ → ℕ} {indices : List (Option ℕ)}
    (h : Table log2 home n indices) (hn : n < 2 ^ log2) :
  ∃ indices', insertIndex (2 ^ log2) indices (home n) n = some indices'
    ∧ Table log2 home (n + 1) indices'
  := by
  have hpass : emptySlotPass (2 ^ log2) indices
      = body log2 (fun i => if indices[i]?.join.isSome then none else some i) := by
    funext i
    rw [emptySlotPass, body]
    cases indices[i]? with
    | none => rfl
    | some slot => cases slot <;> rfl
  obtain ⟨d, hempty, hbefore, hrun⟩ := h.run_none hn
    (fun i => if indices[i]?.join.isSome then none else some i) (r := fun i => i) (home n)
    (by
      intro i e hi
      rw [hi]
      rfl)
    (by
      intro i hi
      rw [hi]
      rfl)
  use indices.set (probe log2 (home n) d) (some n)
  use by
    rw [insertIndex, hpass, Nat.and_two_pow_sub_one_eq_mod]
    rw [probe, Nat.add_zero] at hrun
    rw [hrun]
    rfl
  exact h.set hempty hbefore

/-- The home position of an entry. -/
def home (hash : K → ℕ) (entries : List (K × V)) (ix : ℕ) : ℕ :=
  (entries[ix]?).elim 0 (fun entry => hash entry.1)

theorem home_append {hash : K → ℕ} {entries : List (K × V)} (rest : List (K × V)) :
  ∀ ix < entries.length, home hash entries ix = home hash (entries ++ rest) ix
  := by
  intro ix hix
  rw [home, home, List.getElem?_append_left hix]

theorem home_length (hash : K → ℕ) (entries : List (K × V)) (entry : K × V)
    (rest : List (K × V)) :
  home hash (entries ++ entry :: rest) entries.length = hash entry.1
  := by
  rw [home, List.getElem?_append_right (Nat.le_refl _), Nat.sub_self]
  rfl

/-- Putting the entries into a table ends, when the table has a slot for each. -/
theorem buildIndices_table {hash : K → ℕ} {log2 : ℕ} (entries rest : List (K × V))
    {indices : List (Option ℕ)}
    (h : Table log2 (home hash (entries ++ rest)) entries.length indices)
    (hlt : (entries ++ rest).length < 2 ^ log2) :
  ∃ indices', buildIndices hash (2 ^ log2) rest entries.length indices = some indices'
    ∧ Table log2 (home hash (entries ++ rest)) (entries ++ rest).length indices'
  := by
  induction rest generalizing entries indices with
  | nil =>
      use indices, rfl
      rwa [List.append_nil] at h ⊢
  | cons entry rest ih =>
      rw [List.length_append, List.length_cons] at hlt
      obtain ⟨indices', hinsert, htable⟩ := insertIndex_table h (by omega)
      rw [home_length] at hinsert
      have hsplit : entries ++ entry :: rest = entries ++ [entry] ++ rest := by simp
      have hlength : entries.length + 1 = (entries ++ [entry]).length := by simp
      rw [hsplit, hlength] at htable
      rw [hsplit, buildIndices, hinsert, Option.bind_some, hlength]
      apply ih _ htable
      simp only [List.length_append, List.length_cons, List.length_nil]
      omega

end Searches

/-! ### Refinement -/

section Refinement

variable {K V : Type*}

/-- The pairs `xs` lie in the keys object, and the table leads to each. -/
structure Layout (hash : K → ℕ) (dk : PyDictKeysObject K V) (xs : List (K × V)) : Prop where
  entries : dk.dk_entries = xs
  nodup : (xs.map Prod.fst).Nodup
  usable : dk.dk_usable + xs.length = USABLE_FRACTION (DK_SIZE dk)
  table : Table dk.dk_log2_size (home hash xs) xs.length dk.dk_indices

/-- The dictionary object has the pairs `xs`; its table has one slot as long as there are none. -/
structure Holds (hash : K → ℕ) (dk : PyDictKeysObject K V) (xs : List (K × V)) : Prop
    extends Layout hash dk xs where
  size_empty : xs = [] → dk.dk_log2_size = 0
  size : xs ≠ [] → 3 ≤ dk.dk_log2_size

theorem holds_empty (hash : K → ℕ) :
  Holds hash (PyDictKeysObject.empty : PyDictKeysObject K V) []
  where
  entries := rfl
  nodup := List.nodup_nil
  usable := by simp [PyDictKeysObject.empty, USABLE_FRACTION, DK_SIZE]
  table := Table.replicate 0 (home hash [])
  size_empty _ := rfl
  size h := absurd rfl h

/-- A pair is at the only position with its key. -/
theorem eq_of_key_eq {xs : List (K × V)} (hnodup : (xs.map Prod.fst).Nodup) {ix ix' : ℕ}
    {x x' : K × V} (hx : xs[ix]? = some x) (hx' : xs[ix']? = some x') (hkey : x.1 = x'.1) :
  ix = ix'
  := by
  have hmap {ix : ℕ} {x : K × V} (hx : xs[ix]? = some x) :
      (xs.map Prod.fst)[ix]? = some x.1 := by
    rw [List.getElem?_map, hx]
    rfl
  obtain ⟨hlt, hfst⟩ := List.getElem?_eq_some_iff.mp (hmap hx)
  obtain ⟨hlt', hfst'⟩ := List.getElem?_eq_some_iff.mp (hmap hx')
  have hsame : (xs.map Prod.fst)[ix] = (xs.map Prod.fst)[ix'] := by rw [hfst, hfst', hkey]
  exact hnodup.getElem_inj_iff.mp hsame

variable {hash : K → ℕ} {dk : PyDictKeysObject K V} {xs : List (K × V)}

theorem Layout.length_lt (h : Layout hash dk xs) :
  xs.length < 2 ^ dk.dk_log2_size
  := by
  have husable := h.usable
  have hpos := Nat.two_pow_pos dk.dk_log2_size
  rw [USABLE_FRACTION, DK_SIZE, Nat.one_shiftLeft] at husable
  omega

namespace Holds

theorem keyAt_of_slot (h : Holds hash dk xs) {i ix : ℕ} (hi : dk.dk_indices[i]? = some (some ix)) :
  ∃ x, xs[ix]? = some x ∧ keyAt dk i = some x.1
  := by
  have hlt := h.table.bound i ix hi
  use xs[ix], List.getElem?_eq_getElem hlt
  rw [keyAt, hi, h.entries]
  dsimp only
  rw [List.getElem?_eq_getElem hlt]
  rfl

theorem keyAt_of_empty {i : ℕ} (hi : dk.dk_indices[i]? = some none) :
  keyAt dk i = none
  := by
  rw [keyAt, hi]

variable [DecidableEq K]

/-- How the lookup leaves the loop at the slot `i`. -/
def lookupExit (dk : PyDictKeysObject K V) (key : K) (i : ℕ) : Option (Option ℕ) :=
  if keyAt dk i = some key then some (some i)
  else if keyAt dk i = none then some none
  else none

theorem lookupPass_eq (dk : PyDictKeysObject K V) (key : K) :
  lookupPass dk key = body dk.dk_log2_size (lookupExit dk key)
  := by
  funext i
  rw [lookupPass, body, lookupExit, DK_SIZE, Nat.one_shiftLeft]
  by_cases hkey : keyAt dk i = some key
  · simp [hkey]
  · by_cases hnull : keyAt dk i = none
    · simp [hnull]
    · simp [hkey, hnull]

theorem dict_lookup_eq (dk : PyDictKeysObject K V) (key : K) :
  dict_lookup hash dk key
    = Loop.run (body dk.dk_log2_size (lookupExit dk key)) (2 ^ dk.dk_log2_size)
      (probe dk.dk_log2_size (hash key) 0)
  := by
  rw [dict_lookup, lookupPass_eq, DK_SIZE, Nat.one_shiftLeft, Nat.and_two_pow_sub_one_eq_mod]
  rfl

/-- The lookup of a key that is there ends at a slot that leads to its entry. -/
theorem dict_lookup_found (h : Holds hash dk xs) {ix : ℕ} {x : K × V} (hx : xs[ix]? = some x) :
  ∃ i, dk.dk_indices[i]? = some (some ix) ∧ dict_lookup hash dk x.1 = some (some i)
  := by
  have hlt : ix < xs.length := (List.getElem?_eq_some_iff.mp hx).1
  obtain ⟨i, hi, hrun⟩ := h.table.run_find (lookupExit dk x.1) (r := some) hlt
    (by
      intro i ix' hi
      obtain ⟨x', hx', hkey⟩ := h.keyAt_of_slot hi
      rw [lookupExit, hkey]
      by_cases heq : ix' = ix
      · subst heq
        rw [hx] at hx'
        obtain rfl := Option.some.inj hx'
        simp
      · have hne : x'.1 ≠ x.1 := fun hfst => heq (eq_of_key_eq h.nodup hx' hx hfst)
        simp [heq, hne])
  use i, hi
  have hhome : home hash xs ix = hash x.1 := by
    rw [home, hx]
    rfl
  rw [dict_lookup_eq, ← hhome]
  exact hrun

/-- The lookup of a key that is not there ends at an empty slot. -/
theorem dict_lookup_missing (h : Holds hash dk xs) {key : K} (hkey : key ∉ xs.map Prod.fst) :
  dict_lookup hash dk key = some none
  := by
  obtain ⟨d, -, -, hrun⟩ := h.table.run_none h.length_lt (lookupExit dk key)
    (r := fun _ => none) (hash key)
    (by
      intro i ix hi
      obtain ⟨x, hx, hfst⟩ := h.keyAt_of_slot hi
      have hne : x.1 ≠ key := by
        rintro rfl
        exact hkey (List.mem_map_of_mem (List.mem_of_getElem? hx))
      simp [lookupExit, hfst, hne])
    (by
      intro i hi
      simp [lookupExit, keyAt_of_empty hi])
  rwa [dict_lookup_eq]

omit [DecidableEq K] in
/-- The empty dictionary has no room for an entry. -/
theorem ne_nil_of_usable (h : Holds hash dk xs) (husable : dk.dk_usable ≠ 0) :
  xs ≠ []
  := by
  intro hnil
  have hcount := h.usable
  rw [USABLE_FRACTION, DK_SIZE, h.size_empty hnil] at hcount
  simp at hcount
  omega

omit [DecidableEq K] in
/-- Doubling the table ends, and the table has room for one more entry then. -/
theorem dictresize (h : Holds hash dk xs) :
  ∃ dk', DictObject.dictresize hash dk = some dk' ∧ Layout hash dk' xs ∧ dk'.dk_usable ≠ 0
    ∧ 3 ≤ dk'.dk_log2_size
  := by
  have hlt := h.length_lt
  have husable := h.usable
  have hgrow : 2 * 2 ^ dk.dk_log2_size ≤ 2 ^ max 3 (dk.dk_log2_size + 1) := by
    rw [← Nat.pow_succ']
    exact Nat.pow_le_pow_right (by decide) (Nat.le_max_right _ _)
  have hsize : 2 ^ 3 ≤ 2 ^ max 3 (dk.dk_log2_size + 1) :=
    Nat.pow_le_pow_right (by decide) (Nat.le_max_left _ _)
  rw [USABLE_FRACTION, DK_SIZE, Nat.one_shiftLeft] at husable
  obtain ⟨indices, hbuild, htable⟩ := buildIndices_table [] xs
    (Table.replicate (max 3 (dk.dk_log2_size + 1)) (home hash xs))
    (by rw [List.nil_append]; omega)
  rw [List.length_nil] at hbuild
  simp only [DictObject.dictresize, h.entries, Nat.one_shiftLeft, hbuild, Option.map_some]
  refine ⟨_, rfl, ?_, ?_, Nat.le_max_left _ _⟩
  · exact
      { entries := rfl
        nodup := h.nodup
        usable := by
          simp only [USABLE_FRACTION, DK_SIZE, Nat.one_shiftLeft]
          omega
        table := htable }
  · simp only [USABLE_FRACTION]
    omega

omit [DecidableEq K] in
/-- An entry with a new key is added behind the others. -/
theorem insertEntry (h : Holds hash dk xs) {key : K} (hkey : key ∉ xs.map Prod.fst) (value : V) :
  ∃ dk', DictObject.insertEntry hash dk key value = some dk'
    ∧ Holds hash dk' (xs ++ [(key, value)])
  := by
  obtain ⟨dk', hroom, h', husable, hsize⟩ : ∃ dk',
      (if dk.dk_usable = 0 then DictObject.dictresize hash dk else some dk) = some dk'
        ∧ Layout hash dk' xs ∧ dk'.dk_usable ≠ 0 ∧ 3 ≤ dk'.dk_log2_size := by
    by_cases hfull : dk.dk_usable = 0
    · rw [if_pos hfull]
      exact h.dictresize
    · rw [if_neg hfull]
      exact ⟨dk, rfl, h.toLayout, hfull, h.size (h.ne_nil_of_usable hfull)⟩
  have hhome := home_length hash xs (key, value) []
  have htable := h'.table.congr (home_append [(key, value)])
  obtain ⟨indices, hinsert, hnew⟩ := insertIndex_table htable h'.length_lt
  rw [hhome] at hinsert
  rw [DictObject.insertEntry, hroom, Option.bind_some, DK_SIZE, Nat.one_shiftLeft, h'.entries,
    hinsert]
  refine ⟨_, rfl, ?_⟩
  have hcount := h'.usable
  exact
    { entries := rfl
      nodup := by
        rw [List.map_append]
        apply List.nodup_append.mpr
        use h'.nodup, List.nodup_singleton key
        intro k hk k' hk'
        obtain rfl := List.mem_singleton.mp hk'
        rintro rfl
        exact hkey hk
      usable := by
        rw [List.length_append, List.length_singleton]
        change dk'.dk_usable - 1 + (xs.length + 1) = USABLE_FRACTION (DK_SIZE dk')
        omega
      table := by
        rw [List.length_append, List.length_singleton]
        exact hnew
      size_empty := fun hnil => absurd hnil (by simp)
      size := fun _ => hsize }

omit [DecidableEq K] in
/-- The value of an entry is replaced. -/
theorem setEntry (h : Holds hash dk xs) {ix : ℕ} {x : K × V} (hx : xs[ix]? = some x) (value : V) :
  Holds hash { dk with dk_entries := dk.dk_entries.set ix (x.1, value) } (xs.set ix (x.1, value))
  := by
  obtain ⟨hlt, hentry⟩ := List.getElem?_eq_some_iff.mp hx
  have hkeys : (xs.set ix (x.1, value)).map Prod.fst = xs.map Prod.fst := by
    have hlt' : ix < (xs.map Prod.fst).length := by rwa [List.length_map]
    have hkey : (xs.map Prod.fst)[ix] = x.1 := by rw [List.getElem_map, hentry]
    rw [List.map_set, ← hkey]
    exact List.set_getElem_self _
  exact
    { entries := by rw [h.entries]
      nodup := by
        rw [hkeys]
        exact h.nodup
      usable := by
        rw [List.length_set]
        exact h.usable
      table := by
        rw [List.length_set]
        apply h.table.congr
        intro ix' _
        rw [home, home, List.getElem?_set]
        split
        · next heq =>
            subst heq
            rw [hx]
            rfl
        · rfl
      size_empty := fun hnil => h.size_empty (by simpa using hnil)
      size := fun hne => h.size (by simpa using hne) }

/-- On a list of pairs with different keys, an assignment replaces the pair with the key. -/
theorem map_eq_set (h : Holds hash dk xs) {ix : ℕ} {x : K × V} (hx : xs[ix]? = some x) (value : V) :
  xs.map (fun y => if y.1 = x.1 then (x.1, value) else y) = xs.set ix (x.1, value)
  := by
  apply List.ext_getElem?
  intro ix'
  rw [List.getElem?_map, List.getElem?_set]
  obtain ⟨hlt, -⟩ := List.getElem?_eq_some_iff.mp hx
  split
  · next heq =>
      subst heq
      rw [hx]
      simp
  · next hne =>
      cases hy : xs[ix']? with
      | none => rfl
      | some y =>
          have hkey : y.1 ≠ x.1 := fun hfst => hne (eq_of_key_eq h.nodup hx hy hfst.symm)
          simp [hkey]

theorem find?_eq (h : Holds hash dk xs) {ix : ℕ} {x : K × V} (hx : xs[ix]? = some x) :
  xs.find? (fun y => y.1 = x.1) = some x
  := by
  cases hfind : xs.find? (fun y => y.1 = x.1) with
  | none =>
      have hall := List.find?_eq_none.mp hfind x (List.mem_of_getElem? hx)
      simp at hall
  | some y =>
      have hkey : y.1 = x.1 := by simpa using List.find?_some hfind
      obtain ⟨ix', hy⟩ := List.getElem?_of_mem (List.mem_of_find?_eq_some hfind)
      obtain rfl := eq_of_key_eq h.nodup hy hx hkey
      rw [← hx, hy]

end Holds

variable [DecidableEq K]

/-- An operation does to a dictionary object what it does to the list of its pairs. -/
theorem exec_rel {hash : K → ℕ} {dk : PyDictKeysObject K V} {xs : List (K × V)} (op : Op K V)
    (h : Holds hash dk xs) :
  Option.Rel (Same (Holds hash)) (exec hash dk op) (spec xs op)
  := by
  cases op with
  | get key =>
      rw [exec, spec, getItem]
      by_cases hkey : key ∈ xs.map Prod.fst
      · obtain ⟨x, hmem, rfl⟩ := List.mem_map.mp hkey
        obtain ⟨ix, hx⟩ := List.getElem?_of_mem hmem
        obtain ⟨i, hi, hlookup⟩ := h.dict_lookup_found hx
        rw [hlookup, Option.bind_some, h.find?_eq hx]
        dsimp only
        rw [hi, h.entries, Option.join_some, Option.map_some, hx]
        exact Option.Rel.some ⟨h, rfl⟩
      · have hfind : xs.find? (fun x => x.1 = key) = none := by
          apply List.find?_eq_none.mpr
          intro x hx
          simp only [decide_eq_true_eq]
          rintro rfl
          exact hkey (List.mem_map_of_mem hx)
        rw [h.dict_lookup_missing hkey, hfind]
        exact Option.Rel.some ⟨h, rfl⟩
  | set key value =>
      rw [exec, spec, setItem]
      by_cases hkey : key ∈ xs.map Prod.fst
      · rw [if_pos hkey]
        obtain ⟨x, hmem, rfl⟩ := List.mem_map.mp hkey
        obtain ⟨ix, hx⟩ := List.getElem?_of_mem hmem
        obtain ⟨i, hi, hlookup⟩ := h.dict_lookup_found hx
        rw [hlookup, Option.bind_some, h.map_eq_set hx]
        dsimp only
        rw [hi]
        exact Option.Rel.some ⟨h.setEntry hx value, rfl⟩
      · rw [if_neg hkey, h.dict_lookup_missing hkey]
        obtain ⟨dk', hinsert, hnew⟩ := h.insertEntry hkey value
        rw [Option.bind_some, hinsert]
        exact Option.Rel.some ⟨hnew, rfl⟩

/-- Every sequence of lookups and assignments comes to an end, gives what it gives on a list of
pairs in the order of insertion, and leads to an object whose entries are the pairs of the list;
at least a third of the slots are empty then. -/
theorem dict_run (hash : K → ℕ) (ops : List (Op K V)) :
  Option.Rel
    (Same (fun dk xs => dk.dk_entries = xs ∧ dk.dk_indices.length = DK_SIZE dk
      ∧ dk.dk_indices.countP Option.isSome = xs.length ∧ 3 * xs.length ≤ 2 * DK_SIZE dk))
    (run (exec hash) PyDictKeysObject.empty ops) (run spec [] ops)
  := by
  have hrun := run_rel (fun _ _ op h => exec_rel op h) (holds_empty hash) ops
  generalize run (exec hash) PyDictKeysObject.empty ops = a at hrun
  generalize run spec [] ops = b at hrun
  cases hrun with
  | none => exact Option.Rel.none
  | some hsame =>
      obtain ⟨h, hout⟩ := hsame
      have husable := h.usable
      rw [USABLE_FRACTION] at husable
      apply Option.Rel.some
      refine ⟨⟨h.entries, ?_, h.table.count, by omega⟩, hout⟩
      rw [h.table.length, DK_SIZE, Nat.one_shiftLeft]

end Refinement

end DictObject
