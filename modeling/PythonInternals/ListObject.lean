import Mathlib.Data.List.Induction
import Mathlib.Data.List.InsertIdx
import Mathlib.Data.List.TakeDrop
import PythonInternals.Foundation.Operations

/-!
# The list object

A list keeps its elements in an array of slots, of which the first `ob_size` are in use;
`list_resize` gives the array another length when the size does not fit any more, or when less
than half of the slots are in use.  What reallocates the array also gives the number of the slots
that it carries over to the new one.

Appending, inserting and popping do to the elements what they should do, whatever is in the slots
behind them (`list_run`).  The array grows by an eighth, which is enough for a sequence of
operations to copy no more than 9 slots for each element that it adds (`list_append_amortized`);
and a list that is made longer and shorter by one through `list_resize` copies no more than 48
slots for each call, although the array also shrinks (`list_resize_amortized`).
-/

namespace ListObject

open Operations

/-- A list object; a slot that nothing has been stored in is `none`. -/
structure PyListObject (α : Type*) where
  ob_item : List (Option α)
  allocated : ℕ
  ob_size : ℕ

variable {α : Type*}

/-- The list object of `[]`. -/
def PyListObject.empty : PyListObject α where
  ob_item := []
  allocated := 0
  ob_size := 0

/-- `PyMem_Realloc` of an array, to `n` slots, and the number of the slots that it copies. -/
def realloc (items : List (Option α)) (n : ℕ) : List (Option α) × ℕ :=
  (items.take n ++ List.replicate (n - items.length) none, min items.length n)

/-- The new length of the array for a given size. -/
def newAllocated (new_size : ℕ) : ℕ :=
  (new_size >>> 3) + (if new_size < 9 then 3 else 6) + new_size

/-- The list with another size, and the slots that are copied for it. -/
def list_resize (self : PyListObject α) (new_size : ℕ) : PyListObject α × ℕ :=
  let allocated := self.allocated
  if allocated ≥ new_size ∧ new_size ≥ allocated >>> 1 then
    ({ self with ob_size := new_size }, 0)
  else
    let new_allocated := newAllocated new_size
    let items := realloc self.ob_item new_allocated
    ({ ob_item := items.1
       allocated := new_allocated
       ob_size := new_size }, items.2)

/-- `memmove` of `n` slots. -/
def memmove (items : List (Option α)) (dst src n : ℕ) : List (Option α) :=
  items.take dst ++ (items.drop src).take n ++ items.drop (dst + n)

/-- Make room for one more element, when the array is full. -/
def grow (self : PyListObject α) : PyListObject α × ℕ :=
  if self.ob_size = self.allocated then
    let resized := list_resize self (self.ob_size + 1)
    -- what is stored next goes behind the elements that there are, and counts itself
    ({ resized.1 with ob_size := self.ob_size }, resized.2)
  else (self, 0)

/-- Store `x` behind the elements that there are; there is room for it. -/
def store (self : PyListObject α) (x : α) : PyListObject α :=
  { self with ob_item := self.ob_item.set self.ob_size (some x), ob_size := self.ob_size + 1 }

def append (self : PyListObject α) (x : α) : PyListObject α × ℕ :=
  let grown := grow self
  (store grown.1 x, grown.2)

/-- Put `x` in front of the element at the index `i`; there is room for it. -/
def ins1 (self : PyListObject α) (i : ℕ) (x : α) : PyListObject α :=
  let items := memmove self.ob_item (i + 1) i (self.ob_size - i)
  { self with ob_item := items.set i (some x), ob_size := self.ob_size + 1 }

/-- `lst.insert(i, x)`. -/
def insert (self : PyListObject α) (i : ℕ) (x : α) : PyListObject α × ℕ :=
  let grown := grow self
  (ins1 grown.1 i x, grown.2)

/-- The last element, and the list without it. -/
def list_pop (self : PyListObject α) : Option α × PyListObject α :=
  (self.ob_item.getD (self.ob_size - 1) none, { self with ob_size := self.ob_size - 1 })

/-! ### The list that an object represents -/

/-- The elements of the object are `xs`. -/
structure Represents (l : PyListObject α) (xs : List α) : Prop where
  length_ob_item : l.ob_item.length = l.allocated
  ob_size_eq : l.ob_size = xs.length
  items : xs.map some <+: l.ob_item

theorem represents_empty :
  Represents (PyListObject.empty : PyListObject α) []
  where
  length_ob_item := rfl
  ob_size_eq := rfl
  items := List.nil_prefix

theorem length_realloc (items : List (Option α)) (n : ℕ) :
  (realloc items n).1.length = n
  := by
  rw [realloc, List.length_append, List.length_take, List.length_replicate]
  omega

/-- A longer array has the elements of the shorter. -/
theorem prefix_realloc {items : List (Option α)} {n : ℕ} (hn : items.length ≤ n) :
  items <+: (realloc items n).1
  := by
  rw [realloc, List.take_of_length_le hn]
  exact List.prefix_append _ _

theorem lt_newAllocated (n : ℕ) :
  n < newAllocated n
  := by
  rw [newAllocated]
  split <;> omega

/-- A full array is copied as a whole. -/
theorem list_resize_full {self : PyListObject α} (hfull : self.ob_size = self.allocated) :
  list_resize self (self.ob_size + 1)
    = (⟨(realloc self.ob_item (newAllocated (self.ob_size + 1))).1,
        newAllocated (self.ob_size + 1), self.ob_size + 1⟩,
      min self.ob_item.length (newAllocated (self.ob_size + 1)))
  := by
  rw [list_resize, if_neg (by omega)]
  rfl

theorem grow_ob_size (self : PyListObject α) :
  (grow self).1.ob_size = self.ob_size
  := by
  rw [grow]
  split <;> rfl

/-- After `grow` there is room. -/
theorem grow_ob_size_lt {self : PyListObject α} (hle : self.ob_size ≤ self.allocated) :
  (grow self).1.ob_size < (grow self).1.allocated
  := by
  rw [grow]
  split
  · next hfull =>
      have hlt := lt_newAllocated (self.ob_size + 1)
      rw [list_resize_full hfull]
      dsimp only
      omega
  · dsimp only
    omega

namespace Represents

variable {self : PyListObject α} {xs : List α}

theorem ob_size_le (h : Represents self xs) :
  self.ob_size ≤ self.allocated
  := by
  have hle := h.items.length_le
  rw [List.length_map] at hle
  rw [h.ob_size_eq, ← h.length_ob_item]
  exact hle

/-- Making room does not change the elements. -/
theorem grow (h : Represents self xs) :
  Represents (grow self).1 xs
  := by
  rw [ListObject.grow]
  split
  · next hfull =>
      have hlt := lt_newAllocated (self.ob_size + 1)
      rw [list_resize_full hfull]
      exact
        { length_ob_item := length_realloc _ _
          ob_size_eq := h.ob_size_eq
          items := by
            apply h.items.trans
            apply prefix_realloc
            rw [h.length_ob_item]
            omega }
  · exact h

/-- The elements, what is stored behind them, and one slot at least when there is room. -/
theorem exists_slot (h : Represents self xs) (hroom : self.ob_size < self.allocated) :
  ∃ slot rest, self.ob_item = xs.map some ++ slot :: rest
  := by
  obtain ⟨slots, hslots⟩ := h.items
  cases slots with
  | nil =>
      have hlength := congrArg List.length hslots
      rw [List.append_nil, List.length_map, h.length_ob_item, ← h.ob_size_eq] at hlength
      omega
  | cons slot rest => exact ⟨slot, rest, hslots.symm⟩

end Represents

/-! ### The operations -/

theorem store_represents {self : PyListObject α} {xs : List α} (h : Represents self xs)
    (hroom : self.ob_size < self.allocated) (x : α) :
  Represents (store self x) (xs ++ [x])
  := by
  obtain ⟨slot, rest, hitems⟩ := h.exists_slot hroom
  have hsize := h.ob_size_eq
  exact
    { length_ob_item := by
        rw [store, List.length_set]
        exact h.length_ob_item
      ob_size_eq := by
        rw [List.length_append, ← hsize]
        rfl
      items := by
        use rest
        have hset := List.set_append_right (s := xs.map some) (t := slot :: rest) _ (some x)
          (show (xs.map some).length ≤ self.ob_size by
            rw [List.length_map]
            exact Nat.le_of_eq hsize.symm)
        rw [store, hitems, hset, List.length_map, hsize, Nat.sub_self, List.set_cons_zero,
          List.map_append, List.append_assoc]
        rfl }

/-- What `memmove` leaves when the elements `bs` go up by one slot and `y` takes the place of the
first. -/
theorem memmove_set (as bs : List (Option α)) (slot y : Option α) (rest : List (Option α)) :
  (memmove (as ++ bs ++ slot :: rest) (as.length + 1) as.length bs.length).set as.length y
    = as ++ y :: (bs ++ rest)
  := by
  have htake : (as ++ bs ++ slot :: rest).take (as.length + 1)
      = as ++ (bs ++ slot :: rest).take 1 := by
    rw [List.append_assoc, List.take_length_add_append]
  have hmoved : ((as ++ bs ++ slot :: rest).drop as.length).take bs.length = bs := by
    rw [List.append_assoc, List.drop_left, List.take_left]
  have hdrop : (as ++ bs ++ slot :: rest).drop (as.length + 1 + bs.length) = rest := by
    rw [Nat.add_right_comm, ← List.length_append, ← List.drop_drop, List.drop_left]
    rfl
  rw [memmove, htake, hmoved, hdrop, List.append_assoc, List.append_assoc,
    List.set_append_right _ _ (Nat.le_refl _), Nat.sub_self]
  cases bs with
  | nil => rfl
  | cons b bs => rfl

theorem insertIdx_length_append (as bs : List α) (x : α) :
  (as ++ bs).insertIdx as.length x = as ++ x :: bs
  := by
  induction as with
  | nil => rfl
  | cons a as ih =>
      rw [List.cons_append, List.length_cons, List.insertIdx_succ_cons, ih]
      rfl

theorem ins1_represents {self : PyListObject α} {xs : List α} (h : Represents self xs)
    (hroom : self.ob_size < self.allocated) {i : ℕ} (hi : i ≤ self.ob_size) (x : α) :
  Represents (ins1 self i x) (xs.insertIdx i x)
  := by
  obtain ⟨slot, rest, hitems⟩ := h.exists_slot hroom
  have hsize := h.ob_size_eq
  have hle : i ≤ xs.length := by omega
  obtain ⟨as, bs, rfl, rfl⟩ : ∃ as bs, xs = as ++ bs ∧ i = as.length :=
    ⟨xs.take i, xs.drop i, (List.take_append_drop i xs).symm, by rw [List.length_take]; omega⟩
  have hbs : self.ob_size - as.length = bs.length := by
    rw [hsize, List.length_append]
    omega
  have hset := memmove_set (as.map some) (bs.map some) slot (some x) rest
  rw [← List.map_append, ← hitems, List.length_map, List.length_map, ← hbs] at hset
  have hins : (ins1 self as.length x).ob_item = _ := hset
  exact
    { length_ob_item := by
        rw [hins, ins1, ← h.length_ob_item, hitems]
        simp
        omega
      ob_size_eq := by
        rw [List.length_insertIdx_of_le_length hle, ← hsize]
        rfl
      items := by
        use rest
        rw [hins]
        rw [insertIdx_length_append, List.map_append, List.append_assoc]
        rfl }

theorem list_pop_represents {self : PyListObject α} {xs : List α} {x : α}
    (h : Represents self (xs ++ [x])) :
  (list_pop self).1 = some x ∧ Represents (list_pop self).2 xs
  := by
  obtain ⟨rest, hrest⟩ := h.items
  have hsize := h.ob_size_eq
  rw [List.length_append, List.length_singleton] at hsize
  constructor
  · rw [list_pop, ← hrest, hsize]
    simp
  · exact
      { length_ob_item := h.length_ob_item
        ob_size_eq := by
          rw [list_pop, hsize]
          rfl
        items := by
          apply List.IsPrefix.trans _ h.items
          rw [List.map_append]
          exact List.prefix_append _ _ }

/-! ### Sequences of operations -/

/-- An operation on a list. -/
inductive Op (α : Type*) where
  | append (x : α)
  | insert (i : ℕ) (x : α)
  | pop

/-- The operations that add an element. -/
def Op.adds : Op α → Bool
  | append _ => true
  | insert _ _ => true
  | pop => false

/-- What an operation does to the object, the element that it gives back, and the number of the
slots that it copies to another array. -/
def perform (self : PyListObject α) : Op α → Option (PyListObject α × Option α × ℕ)
  | .append x =>
      let (self, copied) := append self x
      some (self, none, copied)
  | .insert i x =>
      if i ≤ self.ob_size then
        let (self, copied) := insert self i x
        some (self, none, copied)
      else none
  | .pop =>
      if self.ob_size = 0 then none
      else
        let (v, self) := list_pop self
        some (self, v, 0)

/-- What an operation does to the object, and the element that it gives back. -/
def exec (self : PyListObject α) (op : Op α) : Option (PyListObject α × Option α) :=
  (perform self op).map (fun r => (r.1, r.2.1))

/-- What an operation does to a list, and the element that it gives back. -/
def spec (xs : List α) : Op α → Option (List α × Option α)
  | .append x => some (xs ++ [x], none)
  | .insert i x => if i ≤ xs.length then some (xs.insertIdx i x, none) else none
  | .pop => if xs = [] then none else some (xs.dropLast, xs.getLast?)

/-- The slots that an operation copies to another array. -/
def slotsCopied (self : PyListObject α) (op : Op α) : ℕ :=
  (perform self op).elim 0 (fun r => r.2.2)

theorem exec_rel {self : PyListObject α} {xs : List α} (op : Op α) (h : Represents self xs) :
  Option.Rel (Same Represents) (exec self op) (spec xs op)
  := by
  have hsize := h.ob_size_eq
  cases op with
  | append x =>
      have hroom := grow_ob_size_lt h.ob_size_le
      exact Option.Rel.some ⟨store_represents h.grow hroom x, rfl⟩
  | insert i x =>
      have hroom := grow_ob_size_lt h.ob_size_le
      rw [exec, perform, spec, hsize]
      split
      · next hi =>
          apply Option.Rel.some
          exact ⟨ins1_represents h.grow hroom (by rwa [grow_ob_size, hsize]) x, rfl⟩
      · exact Option.Rel.none
  | pop =>
      rw [exec, perform, spec, hsize]
      induction xs using List.reverseRecOn with
      | nil => exact Option.Rel.none
      | append_singleton xs x _ =>
          obtain ⟨hlast, hrest⟩ := list_pop_represents h
          rw [if_neg (by simp), if_neg (by simp), List.dropLast_concat, List.getLast?_concat]
          apply Option.Rel.some
          exact ⟨hrest, hlast⟩

/-- Every sequence of operations fails on the list object when it fails on a list, and gives the
same elements and leads to an object that represents the list otherwise. -/
theorem list_run (ops : List (Op α)) :
  Option.Rel (Same Represents) (run exec PyListObject.empty ops) (run spec [] ops)
  := run_rel (fun _ _ op h => exec_rel op h) represents_empty ops

/-! ### The cost of the copies -/

theorem grow_cost {self : PyListObject α} (hlength : self.ob_item.length = self.allocated) :
  (grow self).2 + (9 * (self.ob_size + 1) - 8 * (grow self).1.allocated)
    ≤ 9 + (9 * self.ob_size - 8 * self.allocated)
  := by
  rw [grow]
  split
  · next hfull =>
      rw [list_resize_full hfull]
      simp only [newAllocated]
      split <;> omega
  · dsimp only
    omega

/-- An operation leaves an object that represents a list. -/
theorem exec_represents {self self' : PyListObject α} {op : Op α} {v : Option α}
    (h : ∃ xs, Represents self xs) (hexec : exec self op = some (self', v)) :
  ∃ xs, Represents self' xs
  := by
  obtain ⟨xs, hxs⟩ := h
  have hrel := exec_rel op hxs
  rw [hexec] at hrel
  generalize spec xs op = b at hrel
  cases hrel with
  | some hsame => exact ⟨_, hsame.1⟩

/-- The slots that a full array copies are paid by the elements that were added since it has its
length. -/
theorem slotsCopied_le {self self' : PyListObject α} {op : Op α} {v : Option α}
    (hlength : self.ob_item.length = self.allocated) (hexec : exec self op = some (self', v)) :
  slotsCopied self op + (9 * self'.ob_size - 8 * self'.allocated)
    ≤ (if op.adds then 9 else 0) + (9 * self.ob_size - 8 * self.allocated)
  := by
  obtain ⟨⟨l, w, n⟩, hperform, heq⟩ := Option.map_eq_some_iff.mp hexec
  obtain ⟨rfl, -⟩ := Prod.mk.inj heq
  rw [slotsCopied, hperform, Option.elim_some]
  have hcost := grow_cost hlength
  cases op with
  | append x =>
      cases hperform
      rw [store, grow_ob_size]
      exact hcost
  | insert i x =>
      rw [perform] at hperform
      split at hperform
      · cases hperform
        rw [ins1, grow_ob_size]
        exact hcost
      · contradiction
  | pop =>
      rw [perform] at hperform
      split at hperform
      · contradiction
      · cases hperform
        simp only [Op.adds]
        omega

/-- Every sequence of operations that begins with the empty list copies no more than 9 slots for
each element that it adds, when the arrays get longer. -/
theorem list_append_amortized (ops : List (Op α)) :
  totalCost exec slotsCopied PyListObject.empty ops ≤ ops.countP Op.adds * 9
  := totalCost_le (fun self : PyListObject α => ∃ xs, Represents self xs)
    (fun self => 9 * self.ob_size - 8 * self.allocated)
    (fun _ _ _ _ h hexec => exec_represents h hexec)
    (fun _ _ _ _ ⟨_, hxs⟩ hexec => slotsCopied_le hxs.length_ob_item hexec)
    ⟨[], represents_empty⟩ ops

/-! ### Getting longer and shorter by one -/

/-- A call of `list_resize` that makes the list longer or shorter by one. -/
inductive Call where
  | longer
  | shorter

/-- The size that a call asks for. -/
def Call.size (self : PyListObject α) : Call → Option ℕ
  | longer => some (self.ob_size + 1)
  | shorter => if self.ob_size = 0 then none else some (self.ob_size - 1)

/-- The list after a call, and the slots that are copied. -/
def resizeBy (self : PyListObject α) (c : Call) : Option (PyListObject α × ℕ) :=
  (c.size self).map (list_resize self)

def call (self : PyListObject α) (c : Call) : Option (PyListObject α × Unit) :=
  (resizeBy self c).map (fun r => (r.1, ()))

def callCopied (self : PyListObject α) (c : Call) : ℕ :=
  (resizeBy self c).elim 0 Prod.snd

/-- The array has the length that is recorded, a slot for every element, and no more than 6 slots
beyond twice the size. -/
structure Sized (l : PyListObject α) : Prop where
  length_ob_item : l.ob_item.length = l.allocated
  ob_size_le : l.ob_size ≤ l.allocated
  allocated_le : l.allocated ≤ 2 * l.ob_size + 6

theorem sized_empty :
  Sized (PyListObject.empty : PyListObject α)
  := ⟨rfl, Nat.le_refl 0, Nat.zero_le 6⟩

theorem list_resize_sized {self : PyListObject α} (h : Sized self) (n : ℕ) :
  Sized (list_resize self n).1
  := by
  rw [list_resize]
  split
  · next hfits =>
      exact
        { length_ob_item := h.length_ob_item
          ob_size_le := hfits.1
          allocated_le := by
            dsimp only
            omega }
  · have hlt := lt_newAllocated n
    exact
      { length_ob_item := length_realloc _ _
        ob_size_le := Nat.le_of_lt hlt
        allocated_le := by
          simp only [newAllocated]
          split <;> omega }

theorem call_eq_some {self self' : PyListObject α} {c : Call} {o : Unit}
    (hcall : call self c = some (self', o)) :
  ∃ n, (n = self.ob_size + 1 ∨ n + 1 = self.ob_size) ∧ self' = (list_resize self n).1
    ∧ callCopied self c = (list_resize self n).2
  := by
  obtain ⟨r, hr, heq⟩ := Option.map_eq_some_iff.mp hcall
  obtain ⟨rfl, -⟩ := Prod.mk.inj heq
  obtain ⟨n, hn, rfl⟩ := Option.map_eq_some_iff.mp hr
  use n
  rw [callCopied, hr]
  refine ⟨?_, rfl, rfl⟩
  cases c with
  | longer => exact Or.inl (Option.some.inj hn).symm
  | shorter =>
      rw [Call.size] at hn
      split at hn
      · contradiction
      · have heq := Option.some.inj hn
        omega

/-- A call keeps the bounds. -/
theorem call_sized {self self' : PyListObject α} {c : Call} {o : Unit} (h : Sized self)
    (hcall : call self c = some (self', o)) :
  Sized self'
  := by
  obtain ⟨n, -, rfl, -⟩ := call_eq_some hcall
  exact list_resize_sized h n

/-- The slots that `list_resize` copies are paid by the calls since the last time it did: the size
is by then an eighth, or almost one half, away from where it was. -/
theorem callCopied_le {self self' : PyListObject α} {c : Call} {o : Unit} (h : Sized self)
    (hcall : call self c = some (self', o)) :
  callCopied self c
      + ((9 * self'.ob_size - 8 * self'.allocated) + (8 * self'.allocated - 9 * self'.ob_size))
    ≤ 48 + ((9 * self.ob_size - 8 * self.allocated) + (8 * self.allocated - 9 * self.ob_size))
  := by
  obtain ⟨n, hn, rfl, hcopied⟩ := call_eq_some hcall
  have hlength := h.length_ob_item
  have hle := h.ob_size_le
  rw [hcopied, list_resize]
  split
  · dsimp only
    omega
  · simp only [newAllocated, realloc]
    split <;> omega

/-- However often `list_resize` makes a list longer and shorter by one, beginning with the empty
list: it copies no more than 48 slots for each call, and the array has a slot for every element
and no more than 6 slots beyond twice the size. -/
theorem list_resize_amortized (cs : List Call) :
  totalCost call callCopied (PyListObject.empty : PyListObject α) cs ≤ cs.length * 48
    ∧ ∀ self os, run call (PyListObject.empty : PyListObject α) cs = some (self, os) →
      self.ob_size ≤ self.allocated ∧ self.allocated ≤ 2 * self.ob_size + 6
  := by
  constructor
  · have hcost := @totalCost_le _ _ _ (call (α := α)) callCopied Sized
      (fun self => (9 * self.ob_size - 8 * self.allocated)
        + (8 * self.allocated - 9 * self.ob_size))
      (fun _ => true) 48 (fun _ _ _ _ h hcall => call_sized h hcall)
      (fun _ _ _ _ h hcall => callCopied_le h hcall) PyListObject.empty sized_empty cs
    rwa [List.countP_true] at hcost
  · intro self os hrun
    have hsized := run_invariant Sized (fun _ _ _ _ h hcall => call_sized h hcall) sized_empty hrun
    exact ⟨hsized.ob_size_le, hsized.allocated_le⟩

end ListObject
