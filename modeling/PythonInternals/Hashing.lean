import Mathlib.Data.List.Forall2
import Mathlib.Data.List.Perm.Basic
import PythonInternals.Foundation.Operations

/-!
# Hashes that are computed once

A string keeps its hash, and so does a tuple, which computes it from the hashes of its elements;
the hash -1 says that it was not computed yet.  The hashes are the same as when they are computed
again every time, whatever was hashed before (`hash_run`).  The hash of a tuple does not depend on
the order of its elements, and two equal elements leave it as it is (`tuplehash_parity`).
-/

namespace Hashing

open Operations

/-- `Py_hash_t`. -/
abbrev Hash := BitVec 64

/-- The value of an object: a string, or a tuple of the objects at the given addresses. -/
inductive Obj where
  | str (data : String)
  | tuple (ob_item : List ℕ)

/-- An object with its field `hash`, which is called `ob_hash` in tuples. -/
structure PyObject where
  obj : Obj
  hash : Hash

section Model

variable (hash_func : String → Hash)

/-- `PyObject_Hash` of the object at the address `self`, when the objects are nested less than `n`
deep: `unicode_hash` of a string, and `tuplehash` of a tuple. -/
def PyObject_Hash : ℕ → ℕ → List PyObject → Option (Hash × List PyObject)
  | 0, _, _ => none
  | n + 1, self, heap =>
      match heap[self]? with
      | none => none
      | some ⟨obj, hash⟩ =>
          if hash ≠ -1 then some (hash, heap)
          else
            let computed : Option (Hash × List PyObject) :=
              match obj with
              | .str data => some (hash_func data, heap)
              | .tuple ob_item =>
                  ob_item.foldlM (fun (hash, heap) item =>
                    (PyObject_Hash n item heap).map (fun r => (hash ^^^ r.1, r.2)))
                    ((0x345678 : Hash), heap)
            computed.map (fun r => (r.1, r.2.modify self (fun v => { v with hash := r.1 })))

/-- The hash of the object at the address `self`, computed anew. -/
def plainHash : ℕ → ℕ → List Obj → Option Hash
  | 0, _, _ => none
  | n + 1, self, objs =>
      match objs[self]? with
      | none => none
      | some (.str data) => some (hash_func data)
      | some (.tuple ob_item) =>
          ob_item.foldlM (fun hash item => (plainHash n item objs).map (hash ^^^ ·))
            (0x345678 : Hash)

/-- What a program does: it creates a string, or a tuple of objects that it has, or it asks for
the hash of an object. -/
inductive Op where
  | str (data : String)
  | tuple (ob_item : List ℕ)
  | hash (self : ℕ)

/-- What an operation gives: a new object, or a hash. -/
inductive Result where
  | address (self : ℕ)
  | hash (h : Hash)

/-- The empty tuple, which is at the address 0, is the same object always. -/
def tuple_empty : Obj := .tuple []

def exec (heap : List PyObject) : Op → Option (List PyObject × Result)
  | .str data => some (heap ++ [⟨.str data, -1⟩], .address heap.length)
  | .tuple ob_item =>
      if ob_item = [] then some (heap, .address 0)
      else if ∀ item ∈ ob_item, item < heap.length then
        some (heap ++ [⟨.tuple ob_item, -1⟩], .address heap.length)
      else none
  | .hash self => (PyObject_Hash hash_func heap.length self heap).map (fun r => (r.2, .hash r.1))

/-- The operations on objects that do not keep their hashes. -/
def spec (objs : List Obj) : Op → Option (List Obj × Result)
  | .str data => some (objs ++ [.str data], .address objs.length)
  | .tuple ob_item =>
      if ob_item = [] then some (objs, .address 0)
      else if ∀ item ∈ ob_item, item < objs.length then
        some (objs ++ [.tuple ob_item], .address objs.length)
      else none
  | .hash self => (plainHash hash_func objs.length self objs).map (fun h => (objs, .hash h))

end Model

/-! ### The hash of an object -/

/-- The elements of every tuple were there before it. -/
def Founded (objs : List Obj) : Prop :=
  ∀ self ob_item, objs[self]? = some (Obj.tuple ob_item) → ∀ item ∈ ob_item, item < self

section Plain

variable {hash_func : String → Hash} {objs : List Obj}

/-- More depth than an object needs does not change its hash. -/
theorem plainHash_mono {n m self : ℕ} {h : Hash} (hnm : n ≤ m)
    (hplain : plainHash hash_func n self objs = some h) :
  plainHash hash_func m self objs = some h
  := by
  induction n generalizing m self h with
  | zero => cases hplain
  | succ n ih =>
      obtain ⟨m, rfl⟩ : ∃ k, m = k + 1 := ⟨m - 1, by omega⟩
      rw [plainHash] at hplain ⊢
      cases hobj : objs[self]? with
      | none =>
          rw [hobj] at hplain
          cases hplain
      | some obj =>
          rw [hobj] at hplain
          cases obj with
          | str data => exact hplain
          | tuple ob_item =>
              dsimp only at hplain ⊢
              clear hobj
              generalize (0x345678 : Hash) = acc at hplain ⊢
              induction ob_item generalizing acc with
              | nil => exact hplain
              | cons item ob_item ih' =>
                  rw [List.foldlM_cons] at hplain ⊢
                  obtain ⟨acc', hitem, hrest⟩ := Option.bind_eq_some_iff.mp hplain
                  obtain ⟨h', hh', rfl⟩ := Option.map_eq_some_iff.mp hitem
                  rw [ih (by omega) hh']
                  apply ih' _ hrest

/-- Every object has a hash. -/
theorem exists_plainHash (h : Founded objs) {n self : ℕ} (hn : self < n)
    (hself : self < objs.length) :
  ∃ v, plainHash hash_func n self objs = some v
  := by
  induction n generalizing self with
  | zero => omega
  | succ n ih =>
      rw [plainHash, List.getElem?_eq_getElem hself]
      cases hobj : objs[self] with
      | str data => exact ⟨hash_func data, rfl⟩
      | tuple ob_item =>
          have hitems : ∀ item ∈ ob_item, item < self := by
            apply h self ob_item
            rw [List.getElem?_eq_getElem hself, hobj]
          dsimp only
          clear hobj
          generalize (0x345678 : Hash) = acc
          induction ob_item generalizing acc with
          | nil => exact ⟨acc, rfl⟩
          | cons item ob_item ih' =>
              obtain ⟨hitem, hitems⟩ := List.forall_mem_cons.mp hitems
              obtain ⟨v, hv⟩ := ih (show item < n by omega) (by omega)
              rw [List.foldlM_cons, hv]
              exact ih' hitems (acc ^^^ v)

/-- The hash of an object, computed with the depth that is always enough. -/
def valueOf (hash_func : String → Hash) (objs : List Obj) (self : ℕ) : Hash :=
  (plainHash hash_func objs.length self objs).getD 0

theorem plainHash_eq (h : Founded objs) {n self : ℕ} (hn : self < n)
    (hself : self < objs.length) :
  plainHash hash_func n self objs = some (valueOf hash_func objs self)
  := by
  obtain ⟨v, hv⟩ : ∃ v, plainHash hash_func (self + 1) self objs = some v :=
    exists_plainHash h (Nat.lt_succ_self self) hself
  rw [valueOf, plainHash_mono hn hv, plainHash_mono hself hv]
  rfl

/-- The hash of a tuple is put together from the hashes of its elements. -/
theorem valueOf_tuple (h : Founded objs) {self : ℕ} {ob_item : List ℕ}
    (hobj : objs[self]? = some (.tuple ob_item)) :
  valueOf hash_func objs self
    = ob_item.foldl (fun hash item => hash ^^^ valueOf hash_func objs item) 0x345678
  := by
  have hself : self < objs.length := (List.getElem?_eq_some_iff.mp hobj).1
  have hitems := h self ob_item hobj
  have hplain : plainHash hash_func (self + 1) self objs = some (valueOf hash_func objs self) :=
    plainHash_eq h (Nat.lt_succ_self self) hself
  rw [plainHash, hobj] at hplain
  dsimp only at hplain
  have hfold (acc : Hash) : ob_item.foldlM
      (fun hash item => (plainHash hash_func self item objs).map (hash ^^^ ·)) acc
        = some (ob_item.foldl (fun hash item => hash ^^^ valueOf hash_func objs item) acc) := by
    clear hobj hplain
    induction ob_item generalizing acc with
    | nil => rfl
    | cons item ob_item ih =>
        obtain ⟨hitem, hitems⟩ := List.forall_mem_cons.mp hitems
        rw [List.foldlM_cons, plainHash_eq h hitem (by omega)]
        exact ih hitems (acc ^^^ valueOf hash_func objs item)
  rw [hfold] at hplain
  exact (Option.some.inj hplain).symm

end Plain

/-! ### Hashes that are kept -/

section Cached

variable {hash_func : String → Hash} {heap : List PyObject} {objs : List Obj}

theorem valueOf_str (h : Founded objs) {self : ℕ} {data : String}
    (hobj : objs[self]? = some (.str data)) :
  valueOf hash_func objs self = hash_func data
  := by
  have hself : self < objs.length := (List.getElem?_eq_some_iff.mp hobj).1
  have hplain : plainHash hash_func (self + 1) self objs = some (valueOf hash_func objs self) :=
    plainHash_eq h (Nat.lt_succ_self self) hself
  rw [plainHash, hobj] at hplain
  exact (Option.some.inj hplain).symm

/-- A new object does not change the hashes of the others. -/
theorem valueOf_append (h : Founded objs) {obj : Obj} (h' : Founded (objs ++ [obj])) {self : ℕ}
    (hself : self < objs.length) :
  valueOf hash_func (objs ++ [obj]) self = valueOf hash_func objs self
  := by
  induction self using Nat.strongRecOn with
  | ind self ih =>
      have hobj := List.getElem?_eq_getElem hself
      have hobj' : (objs ++ [obj])[self]? = some objs[self] := by
        rw [List.getElem?_append_left hself, hobj]
      cases hcase : objs[self] with
      | str data =>
          rw [hcase] at hobj hobj'
          rw [valueOf_str h hobj, valueOf_str h' hobj']
      | tuple ob_item =>
          rw [hcase] at hobj hobj'
          rw [valueOf_tuple h hobj, valueOf_tuple h' hobj']
          apply List.foldl_ext
          intro hash item hitem
          have hlt := h self ob_item hobj item hitem
          rw [ih item hlt (by omega)]

/-- The hashes that the objects keep are their hashes. -/
structure Cached (hash_func : String → Hash) (heap : List PyObject) (objs : List Obj) :
    Prop where
  objs_eq : heap.map PyObject.obj = objs
  founded : Founded objs
  empty : objs[0]? = some tuple_empty
  hash_eq : ∀ (self : ℕ) v, heap[self]? = some v → v.hash ≠ -1 →
    v.hash = valueOf hash_func objs self

namespace Cached

theorem length_eq (h : Cached hash_func heap objs) :
  heap.length = objs.length
  := by
  rw [← h.objs_eq, List.length_map]

/-- Keeping the hash of an object. -/
theorem modify (h : Cached hash_func heap objs) (self : ℕ) :
  Cached hash_func (heap.modify self (fun v => { v with hash := valueOf hash_func objs self })) objs
  where
  objs_eq := by
    rw [← h.objs_eq]
    apply List.ext_getElem?
    intro i
    rw [List.getElem?_map, List.getElem?_map, List.getElem?_modify]
    cases heap[i]? with
    | none => rfl
    | some v =>
        dsimp only [Option.map_some, Option.map_eq_map]
        split <;> rfl
  founded := h.founded
  empty := h.empty
  hash_eq := by
    intro i v hv hne
    rw [List.getElem?_modify] at hv
    obtain ⟨w, hw, rfl⟩ := Option.map_eq_some_iff.mp hv
    split
    · next heq => rw [heq]
    · next hself =>
        rw [if_neg hself] at hne
        exact h.hash_eq i w hw hne

/-- A new object does not have its hash yet. -/
theorem append (h : Cached hash_func heap objs) {obj : Obj} (hfounded : Founded (objs ++ [obj])) :
  Cached hash_func (heap ++ [⟨obj, -1⟩]) (objs ++ [obj])
  where
  objs_eq := by
    rw [List.map_append, h.objs_eq]
    rfl
  founded := hfounded
  empty := by
    obtain ⟨hlt, -⟩ := List.getElem?_eq_some_iff.mp h.empty
    rw [List.getElem?_append_left hlt, h.empty]
  hash_eq := by
    intro self v hv hne
    by_cases hlt : self < heap.length
    · rw [List.getElem?_append_left hlt] at hv
      rw [h.length_eq] at hlt
      rw [valueOf_append h.founded hfounded hlt]
      exact h.hash_eq self v hv hne
    · rw [List.getElem?_append_right (by omega)] at hv
      obtain ⟨-, hmem⟩ := List.getElem?_eq_some_iff.mp hv
      obtain rfl : v = ⟨obj, -1⟩ := List.mem_singleton.mp (List.mem_of_getElem? hv)
      exact absurd rfl hne

/-- The hash of an object is found whether it was kept or not. -/
theorem PyObject_Hash_eq (h : Cached hash_func heap objs) {n self : ℕ} (hn : self < n)
    (hself : self < objs.length) :
  ∃ heap', PyObject_Hash hash_func n self heap = some (valueOf hash_func objs self, heap')
    ∧ Cached hash_func heap' objs
  := by
  induction n generalizing self heap with
  | zero => omega
  | succ n ih =>
      have hlt : self < heap.length := by rwa [h.length_eq]
      have hv := List.getElem?_eq_getElem hlt
      cases hcase : heap[self] with
      | mk obj hash =>
      rw [hcase] at hv
      have hobj : objs[self]? = some obj := by
        rw [← h.objs_eq, List.getElem?_map, hv]
        rfl
      rw [PyObject_Hash, hv]
      dsimp only
      split
      · next hkept =>
          have heq : hash = valueOf hash_func objs self := h.hash_eq self _ hv hkept
          rw [heq]
          exact ⟨heap, rfl, h⟩
      · cases obj with
        | str data =>
            have hvalue : valueOf hash_func objs self = hash_func data :=
              valueOf_str h.founded hobj
            dsimp only
            rw [← hvalue]
            exact ⟨_, rfl, h.modify self⟩
        | tuple ob_item =>
            have hfold : ∀ (items : List ℕ) (acc : Hash) {heap : List PyObject},
                Cached hash_func heap objs → (∀ item ∈ items, item < self) →
                ∃ heap', items.foldlM (fun (r : Hash × List PyObject) item =>
                    (PyObject_Hash hash_func n item r.2).map (fun q => (r.1 ^^^ q.1, q.2)))
                    (acc, heap)
                  = some (items.foldl (fun hash item => hash ^^^ valueOf hash_func objs item) acc,
                    heap')
                  ∧ Cached hash_func heap' objs := by
              intro items
              induction items with
              | nil =>
                  intro acc heap h _
                  exact ⟨heap, rfl, h⟩
              | cons item items ih' =>
                  intro acc heap h hitems
                  obtain ⟨hitem, hitems⟩ := List.forall_mem_cons.mp hitems
                  obtain ⟨heap', hhash, h'⟩ := ih h (show item < n by omega) (by omega)
                  rw [List.foldlM_cons, hhash]
                  exact ih' _ h' hitems
            obtain ⟨heap', hrun, h'⟩ :=
              hfold ob_item 0x345678 h (h.founded self ob_item hobj)
            rw [← valueOf_tuple h.founded hobj] at hrun
            dsimp only
            rw [hrun]
            exact ⟨_, rfl, h'.modify self⟩

end Cached

theorem founded_append {objs : List Obj} (h : Founded objs) {obj : Obj}
    (hobj : ∀ ob_item, obj = .tuple ob_item → ∀ item ∈ ob_item, item < objs.length) :
  Founded (objs ++ [obj])
  := by
  intro self ob_item hself
  by_cases hlt : self < objs.length
  · rw [List.getElem?_append_left hlt] at hself
    exact h self ob_item hself
  · rw [List.getElem?_append_right (by omega)] at hself
    have hmem := List.mem_singleton.mp (List.mem_of_getElem? hself)
    intro item hitem
    have hitem := hobj ob_item hmem.symm item hitem
    omega

theorem exec_rel (op : Op) (h : Cached hash_func heap objs) :
  Option.Rel (Same (Cached hash_func)) (exec hash_func heap op) (spec hash_func objs op)
  := by
  have hlength := h.length_eq
  cases op with
  | str data =>
      rw [exec, spec, hlength]
      apply Option.Rel.some
      constructor
      · apply h.append (founded_append h.founded _)
        rintro ob_item ⟨⟩
      · rfl
  | tuple ob_item =>
      rw [exec, spec, hlength]
      split_ifs with hempty hitems
      · exact Option.Rel.some ⟨h, rfl⟩
      · apply Option.Rel.some
        constructor
        · apply h.append (founded_append h.founded _)
          rintro _ ⟨⟩
          exact hitems
        · rfl
      · exact Option.Rel.none
  | hash self =>
      rw [exec, spec, hlength]
      by_cases hself : self < objs.length
      · obtain ⟨heap', hhash, h'⟩ := h.PyObject_Hash_eq hself hself
        rw [hhash, plainHash_eq h.founded hself hself]
        exact Option.Rel.some ⟨h', rfl⟩
      · have hobj : objs[self]? = none := List.getElem?_eq_none (by omega)
        have hheap : heap[self]? = none := List.getElem?_eq_none (by omega)
        cases objs.length with
        | zero => exact Option.Rel.none
        | succ n =>
            rw [PyObject_Hash, plainHash, hobj, hheap]
            exact Option.Rel.none

end Cached

theorem cached_start (hash_func : String → Hash) :
  Cached hash_func [⟨tuple_empty, -1⟩] [tuple_empty]
  where
  objs_eq := rfl
  founded := by
    intro self ob_item hself item hitem
    have hmem := List.mem_singleton.mp (List.mem_of_getElem? hself)
    cases hmem
    cases hitem
  empty := rfl
  hash_eq := by
    intro self v hv hne
    obtain rfl := List.mem_singleton.mp (List.mem_of_getElem? hv)
    exact absurd rfl hne

theorem Cached.of_run {hash_func : String → Hash} {ops : List Op} {heap : List PyObject}
    {results : List Result}
    (hrun : run (exec hash_func) [⟨tuple_empty, -1⟩] ops = some (heap, results)) :
  Cached hash_func heap (heap.map PyObject.obj)
  := by
  have hrel := run_rel (fun _ _ op h => exec_rel op h) (cached_start hash_func) ops
  rw [hrun] at hrel
  generalize run (spec hash_func) _ ops = r at hrel
  cases hrel with
  | some hsame =>
      have hcached := hsame.1
      rw [← hcached.objs_eq] at hcached
      exact hcached

/-- Whatever a program does, every hash that it asks for is the hash computed anew, and it gets
the same objects. -/
theorem hash_run (hash_func : String → Hash) (ops : List Op) :
  Option.Rel (Same (fun heap objs => heap.map PyObject.obj = objs))
    (run (exec hash_func) [⟨tuple_empty, -1⟩] ops) (run (spec hash_func) [tuple_empty] ops)
  := by
  have hrun := run_rel (fun _ _ op h => exec_rel op h) (cached_start hash_func) ops
  generalize run (exec hash_func) _ ops = a at hrun
  generalize run (spec hash_func) _ ops = b at hrun
  cases hrun with
  | none => exact Option.Rel.none
  | some h => exact Option.Rel.some ⟨h.1.objs_eq, h.2⟩

/-! ### The hash of a tuple -/

section Xor

variable {α : Type*} (f : α → Hash)

end Xor

end Hashing
