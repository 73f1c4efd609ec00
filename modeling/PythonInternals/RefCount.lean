import Mathlib.Data.List.Basic
import PythonInternals.Foundation.Acyclic
import PythonInternals.Foundation.Operations

/-!
# Reference counting

Every object counts the references to it.  `Py_INCREF` and `Py_DECREF` leave the counts of
immortal objects alone, and `Py_DECREF` frees an object whose count comes to 0, after it has
released the elements of a list, which may free them in turn.

A program never touches an object that was freed: it goes as if nothing were ever freed
(`refcount_run`).  The counts are the numbers of the references (`refcount_exact`), and the
objects that are left are those that a variable or a cycle of lists leads to
(`exists_iff_sustained`).
-/

namespace RefCount

open Operations

/-- The value of an object: a list of references, or something without references, such as a
large integer. -/
inductive Obj where
  | atom
  | list (ob_item : List ℕ)

/-- The references that an object holds. -/
def Obj.refs : Obj → List ℕ
  | atom => []
  | list ob_item => ob_item

/-- An object with its header. -/
structure PyObject where
  ob_refcnt : ℕ
  obj : Obj

/-- The memory.  A block that was freed is `none`. -/
abbrev Heap := List (Option PyObject)

/-- The object at the address `op`, if it was not freed. -/
def get (heap : Heap) (op : ℕ) : Option PyObject := heap[op]?.join

/-- The elements of the list at the address `self`. -/
def ob_item (heap : Heap) (self : ℕ) : Option (List ℕ) :=
  match get heap self with
  | some ⟨_, .list items⟩ => some items
  | _ => none

/-- Write the elements of the list at the address `self`. -/
def set_items (self : ℕ) (items : List ℕ) (heap : Heap) : Option Heap :=
  (get heap self).map (fun v => heap.set self (some { v with obj := .list items }))

section Counts

variable (immortal : ℕ)

/-- `Py_INCREF`; counts from `immortal` on stay as they are. -/
def Py_INCREF (op : ℕ) (heap : Heap) : Option Heap :=
  (get heap op).map (fun v =>
    if immortal ≤ v.ob_refcnt then heap
    else heap.set op (some { v with ob_refcnt := v.ob_refcnt + 1 }))

/-- `_Py_Dealloc`: a list releases its elements, and then the object is freed. -/
def _Py_Dealloc (decref : ℕ → Heap → Option Heap) (op : ℕ) (heap : Heap) : Option Heap :=
  match get heap op with
  | none => none
  | some v =>
      (v.obj.refs.foldlM (fun heap item => decref item heap) heap).map
        (fun heap => heap.set op none)

/-- `Py_DECREF`, when it is nested less than `n` deep.  There is nothing to take off a count
that is 0. -/
def Py_DECREF : ℕ → ℕ → Heap → Option Heap
  | 0, _, _ => none
  | n + 1, op, heap =>
      match get heap op with
      | none => none
      | some v =>
          if immortal ≤ v.ob_refcnt then some heap
          else
            match v.ob_refcnt with
            | 0 => none
            | 1 => _Py_Dealloc (Py_DECREF n) op (heap.set op (some { v with ob_refcnt := 0 }))
            | c + 2 => some (heap.set op (some { v with ob_refcnt := c + 1 }))

/-- `Py_DECREF` of each of the objects.  It is nested no deeper than there are objects. -/
def decref_all (ops : List ℕ) (heap : Heap) : Option Heap :=
  ops.foldlM (fun heap op => Py_DECREF immortal heap.length op heap) heap

/-- `list_append`: `Py_INCREF(obj)`, then it is stored. -/
def list_append (self obj : ℕ) (heap : Heap) : Option Heap :=
  (ob_item heap self).bind (fun items =>
    (Py_INCREF immortal obj heap).bind (set_items self (items ++ [obj])))

/-- `lst.pop()`: the last element is taken out and released, when nobody takes it. -/
def list_pop (self : ℕ) (heap : Heap) : Option Heap :=
  (ob_item heap self).bind (fun items =>
    items.getLast?.bind (fun obj =>
      (set_items self items.dropLast heap).bind (decref_all immortal [obj])))

/-- `lst.clear()`: the list is empty before its elements are released. -/
def list_clear (self : ℕ) (heap : Heap) : Option Heap :=
  (ob_item heap self).bind (fun items =>
    (set_items self [] heap).bind (decref_all immortal items))

/-- `lst[i] = obj`: the new element is stored before the old one is released. -/
def list_ass_item (self i obj : ℕ) (heap : Heap) : Option Heap :=
  (ob_item heap self).bind (fun items =>
    items[i]?.bind (fun old =>
      (Py_INCREF immortal obj heap).bind (fun heap =>
        (set_items self (items.set i obj) heap).bind (decref_all immortal [old]))))

/-- `sys.getrefcount(obj)`, which holds a reference of its own meanwhile. -/
def getrefcount (obj : ℕ) (heap : Heap) : Option ℕ :=
  (Py_INCREF immortal obj heap).bind (fun heap => (get heap obj).map PyObject.ob_refcnt)

end Counts

/-- What a program does with its variables, which are the numbers of their slots. -/
inductive Op where
  /-- `x = []` -/
  | list (x : ℕ)
  /-- `x` is a new large integer -/
  | int (x : ℕ)
  /-- `x` is `None`, `True`, `False` or a small integer -/
  | const (x i : ℕ)
  /-- `x = y` -/
  | copy (x y : ℕ)
  /-- `del x` -/
  | del (x : ℕ)
  /-- `x.append(y)` -/
  | append (x y : ℕ)
  /-- `x.pop()` -/
  | pop (x : ℕ)
  /-- `x.clear()` -/
  | clear (x : ℕ)
  /-- `x[i] = y` -/
  | setItem (x i y : ℕ)
  /-- `x = y[i]` -/
  | getItem (x y i : ℕ)
  /-- `x is y` -/
  | is (x y : ℕ)
  /-- `len(x)` -/
  | len (x : ℕ)

/-- What an operation gives. -/
inductive Result where
  | none
  | bool (b : Bool)
  | int (n : ℕ)

/-- The memory, and the variables, which may be unbound. -/
structure State where
  heap : Heap
  locals : List (Option ℕ)

section Programs

variable (immortal consts : ℕ)

/-- `STORE_FAST` and `DELETE_FAST`: what the variable referred to is released. -/
def set_local (x : ℕ) (value : Option ℕ) (locals : List (Option ℕ)) (heap : Heap) :
    Option (State × Result) :=
  locals[x]?.bind (fun old =>
    (decref_all immortal old.toList heap).map (fun heap => (⟨heap, locals.set x value⟩, .none)))

/-- The operations; the first `consts` objects are the immortal ones. -/
def exec (s : State) : Op → Option (State × Result)
  | .list x => set_local immortal x s.heap.length s.locals (s.heap ++ [some ⟨1, .list []⟩])
  | .int x => set_local immortal x s.heap.length s.locals (s.heap ++ [some ⟨1, .atom⟩])
  | .const x i =>
      if i < consts then (Py_INCREF immortal i s.heap).bind (set_local immortal x i s.locals)
      else none
  | .copy x y =>
      s.locals[y]?.join.bind (fun obj =>
        (Py_INCREF immortal obj s.heap).bind (set_local immortal x obj s.locals))
  | .del x => s.locals[x]?.join.bind (fun _ => set_local immortal x none s.locals s.heap)
  | .append x y =>
      s.locals[x]?.join.bind (fun self => s.locals[y]?.join.bind (fun obj =>
        (list_append immortal self obj s.heap).map (fun heap => (⟨heap, s.locals⟩, .none))))
  | .pop x =>
      s.locals[x]?.join.bind (fun self =>
        (list_pop immortal self s.heap).map (fun heap => (⟨heap, s.locals⟩, .none)))
  | .clear x =>
      s.locals[x]?.join.bind (fun self =>
        (list_clear immortal self s.heap).map (fun heap => (⟨heap, s.locals⟩, .none)))
  | .setItem x i y =>
      s.locals[x]?.join.bind (fun self => s.locals[y]?.join.bind (fun obj =>
        (list_ass_item immortal self i obj s.heap).map (fun heap => (⟨heap, s.locals⟩, .none))))
  | .getItem x y i =>
      s.locals[y]?.join.bind (fun self => (ob_item s.heap self).bind (fun items =>
        items[i]?.bind (fun obj =>
          (Py_INCREF immortal obj s.heap).bind (set_local immortal x obj s.locals))))
  | .is x y =>
      s.locals[x]?.join.bind (fun a => s.locals[y]?.join.map (fun b => (s, .bool (a = b))))
  | .len x =>
      s.locals[x]?.join.bind (fun self =>
        (ob_item s.heap self).map (fun items => (s, .int items.length)))

/-- The immortal objects, and variables that are all unbound. -/
def start (slots : ℕ) : State :=
  ⟨List.replicate consts (some ⟨0xFFFFFFFF, .atom⟩), List.replicate slots none⟩

end Programs

/-! ### Programs that free nothing -/

/-- Objects without counts, and the variables. -/
structure Plain where
  objs : List Obj
  locals : List (Option ℕ)

namespace Plain

def ob_item (objs : List Obj) (self : ℕ) : Option (List ℕ) :=
  match objs[self]? with
  | some (.list items) => some items
  | _ => none

def set_local (x : ℕ) (value : Option ℕ) (t : Plain) : Option (Plain × Result) :=
  if x < t.locals.length then some ({ t with locals := t.locals.set x value }, .none) else none

def set_items (self : ℕ) (items : List ℕ) (t : Plain) : Plain × Result :=
  ({ t with objs := t.objs.set self (.list items) }, .none)

/-- The operations when nothing is counted and nothing is freed. -/
def exec (consts : ℕ) (t : Plain) : Op → Option (Plain × Result)
  | .list x => set_local x t.objs.length { t with objs := t.objs ++ [.list []] }
  | .int x => set_local x t.objs.length { t with objs := t.objs ++ [.atom] }
  | .const x i => if i < consts then set_local x i t else none
  | .copy x y => t.locals[y]?.join.bind (fun obj => set_local x obj t)
  | .del x => t.locals[x]?.join.bind (fun _ => set_local x none t)
  | .append x y =>
      t.locals[x]?.join.bind (fun self => t.locals[y]?.join.bind (fun obj =>
        (ob_item t.objs self).map (fun items => set_items self (items ++ [obj]) t)))
  | .pop x =>
      t.locals[x]?.join.bind (fun self => (ob_item t.objs self).bind (fun items =>
        items.getLast?.map (fun _ => set_items self items.dropLast t)))
  | .clear x =>
      t.locals[x]?.join.bind (fun self =>
        (ob_item t.objs self).map (fun _ => set_items self [] t))
  | .setItem x i y =>
      t.locals[x]?.join.bind (fun self => t.locals[y]?.join.bind (fun obj =>
        (ob_item t.objs self).bind (fun items =>
          items[i]?.map (fun _ => set_items self (items.set i obj) t))))
  | .getItem x y i =>
      t.locals[y]?.join.bind (fun self => (ob_item t.objs self).bind (fun items =>
        items[i]?.bind (fun obj => set_local x obj t)))
  | .is x y =>
      t.locals[x]?.join.bind (fun a => t.locals[y]?.join.map (fun b => (t, .bool (a = b))))
  | .len x =>
      t.locals[x]?.join.bind (fun self =>
        (ob_item t.objs self).map (fun items => (t, .int items.length)))

def start (consts slots : ℕ) : Plain :=
  ⟨List.replicate consts .atom, List.replicate slots none⟩

end Plain

/-! ### The references -/

/-- The elements of a list of lists after one of the lists was exchanged. -/
theorem count_flatMap_set {α : Type*} (f : α → List ℕ) {l : List α} {i : ℕ} {y : α}
    (h : l[i]? = some y) (x : α) (b : ℕ) :
  ((l.set i x).flatMap f).count b + (f y).count b = (l.flatMap f).count b + (f x).count b
  := by
  induction l generalizing i with
  | nil => cases h
  | cons z l ih =>
      cases i with
      | zero =>
          obtain rfl : z = y := Option.some.inj h
          rw [List.set_cons_zero, List.flatMap_cons, List.flatMap_cons, List.count_append,
            List.count_append]
          omega
      | succ i =>
          have hrest := ih h
          rw [List.set_cons_succ, List.flatMap_cons, List.flatMap_cons, List.count_append,
            List.count_append]
          omega

/-- The references that an entry of the memory holds.  An object whose count is 0 is about to be
freed, and its references are in the hands of `_Py_Dealloc`. -/
def held : Option PyObject → List ℕ
  | none => []
  | some v => if v.ob_refcnt = 0 then [] else v.obj.refs

/-- The references that the objects hold. -/
def internal (heap : Heap) : List ℕ := heap.flatMap held

/-- The references that the variables hold. -/
def roots (locals : List (Option ℕ)) : List ℕ := locals.flatMap Option.toList

/-- The object was not freed, and it is not about to be freed. -/
def Alive (heap : Heap) (a : ℕ) : Prop := ∃ v, get heap a = some v ∧ v.ob_refcnt ≠ 0

/-- A list refers to its elements. -/
def Edge (objs : List Obj) (b a : ℕ) : Prop := ∃ obj, objs[b]? = some obj ∧ a ∈ obj.refs

section Memory

variable {heap : Heap} {op a : ℕ} {v : PyObject} {o : Option PyObject}

theorem getElem?_of_get (h : get heap op = some v) :
  heap[op]? = some (some v)
  := Option.join_eq_some_iff.mp h

theorem lt_of_get (h : get heap op = some v) :
  op < heap.length
  := (List.getElem?_eq_some_iff.mp (getElem?_of_get h)).1

theorem get_set_self (h : get heap op = some v) :
  get (heap.set op o) op = o
  := by
  rw [get, List.getElem?_set_self (lt_of_get h)]
  rfl

theorem get_set_ne (h : a ≠ op) :
  get (heap.set op o) a = get heap a
  := by
  rw [get, get, List.getElem?_set_ne h.symm]

theorem set_get (h : get heap op = some v) :
  heap.set op (some v) = heap
  := by
  apply List.ext_getElem?
  intro i
  by_cases hi : op = i
  · rw [← hi, List.getElem?_set_self (lt_of_get h), getElem?_of_get h]
  · rw [List.getElem?_set_ne hi]

/-- What has elements is a list. -/
theorem get_of_ob_item {items : List ℕ} (h : ob_item heap op = some items) :
  ∃ c, get heap op = some ⟨c, .list items⟩
  := by
  rw [ob_item] at h
  split at h
  · next c items' hget =>
    obtain rfl := Option.some.inj h
    exact ⟨c, hget⟩
  · cases h

/-- The elements of a list do not depend on its count. -/
theorem ob_item_recount (h : get heap op = some v) (c : ℕ) :
  ob_item (heap.set op (some { v with ob_refcnt := c })) a = ob_item heap a
  := by
  rw [ob_item, ob_item]
  by_cases ha : a = op
  · rw [ha, get_set_self h, h]
    obtain ⟨c, obj⟩ := v
    cases obj <;> rfl
  · rw [get_set_ne ha]

theorem Alive.lt (h : Alive heap a) :
  a < heap.length
  := lt_of_get h.choose_spec.1

/-- Only what is written changes whether an object is alive. -/
theorem alive_set_iff (h : get heap op = some v) :
  Alive (heap.set op o) a ↔ (a = op ∧ ∃ w, o = some w ∧ w.ob_refcnt ≠ 0) ∨ (a ≠ op ∧ Alive heap a)
  := by
  by_cases ha : a = op
  · simp only [Alive, ha, get_set_self h, true_and, not_true, ne_eq, false_and, or_false]
  · simp only [Alive, ha, get_set_ne ha, false_and, false_or, ne_eq, not_false_eq_true, true_and]

/-- A live object stays alive with another count and another value. -/
theorem alive_set_live_iff {w : PyObject} (h : get heap op = some v) (hv : v.ob_refcnt ≠ 0)
    (hw : w.ob_refcnt ≠ 0) :
  Alive (heap.set op (some w)) a ↔ Alive heap a
  := by
  rw [alive_set_iff h]
  by_cases ha : a = op
  · simp only [ha, true_and, ne_eq, not_true, false_and, or_false]
    exact iff_of_true ⟨w, rfl, hw⟩ ⟨v, h, hv⟩
  · simp only [ha, false_and, false_or, ne_eq, not_false_eq_true, true_and]

/-- The references after an entry was written. -/
theorem count_internal_set (h : get heap op = some v) (b : ℕ) :
  (internal (heap.set op o)).count b + (held (some v)).count b
    = (internal heap).count b + (held o).count b
  := count_flatMap_set held (getElem?_of_get h) o b

/-- What a live object holds is held. -/
theorem mem_internal (h : get heap op = some v) (hv : v.ob_refcnt ≠ 0) (ha : a ∈ v.obj.refs) :
  a ∈ internal heap
  := by
  apply List.mem_flatMap.mpr
  use some v, List.mem_of_getElem? (getElem?_of_get h)
  rwa [held, if_neg hv]

end Memory

/-! ### The invariant -/

/-- The memory `heap` of a program whose objects have the values `objs`, while it has the
references `refs` beside those that the objects hold: all of them lead to live objects, the
counts that are not immortal are the numbers of the references, and no cycle leads to an object
that is dead. -/
structure Inv (immortal consts : ℕ) (heap : Heap) (objs : List Obj) (refs : List ℕ) : Prop where
  immortal_le : immortal ≤ 0xFFFFFFFF
  length_eq : heap.length = objs.length
  obj_eq : ∀ a v, get heap a = some v → objs[a]? = some v.obj
  const : ∀ a < consts, get heap a = some ⟨0xFFFFFFFF, .atom⟩
  alive : ∀ a ∈ refs ++ internal heap, Alive heap a
  count : ∀ a v, get heap a = some v → v.ob_refcnt ≠ 0 →
    immortal ≤ v.ob_refcnt ∨ v.ob_refcnt = (refs ++ internal heap).count a
  dead : ∀ a, ¬ Alive heap a → Acc (Edge objs) a

namespace Inv

variable {immortal consts : ℕ} {heap : Heap} {objs : List Obj} {refs refs' : List ℕ} {op : ℕ}
  {v : PyObject}

/-- Only a dead list refers to an object that no live object holds. -/
theorem dead_of_not_held (h : Inv immortal consts heap objs refs) {a b : ℕ} (hedge : Edge objs b a)
    (ha : a ∉ internal heap) :
  ¬ Alive heap b
  := by
  rintro ⟨w, hget, hw⟩
  obtain ⟨obj, hobj, hmem⟩ := hedge
  obtain rfl : w.obj = obj := Option.some.inj ((h.obj_eq b w hget).symm.trans hobj)
  exact ha (mem_internal hget hw hmem)

/-- Only a dead list refers to a dead object. -/
theorem dead_of_edge (h : Inv immortal consts heap objs refs) {a b : ℕ} (hedge : Edge objs b a)
    (ha : ¬ Alive heap a) :
  ¬ Alive heap b
  := by
  apply h.dead_of_not_held hedge
  intro hmem
  exact ha (h.alive a (List.mem_append_right _ hmem))

/-- A new count leaves the values as they are. -/
theorem obj_eq_recount (h : Inv immortal consts heap objs refs) (hget : get heap op = some v)
    (c : ℕ) (a : ℕ) (w : PyObject)
    (hw : get (heap.set op (some { v with ob_refcnt := c })) a = some w) :
  objs[a]? = some w.obj
  := by
  by_cases ha : a = op
  · rw [ha, get_set_self hget] at hw
    rw [ha, h.obj_eq op v hget, ← Option.some.inj hw]
  · rw [get_set_ne ha] at hw
    exact h.obj_eq a w hw

/-- Writing to an object that is no constant leaves the constants as they are. -/
theorem const_set (h : Inv immortal consts heap objs refs) (hget : get heap op = some v)
    (hv : v ≠ ⟨0xFFFFFFFF, .atom⟩) (o : Option PyObject) (a : ℕ) (ha : a < consts) :
  get (heap.set op o) a = some ⟨0xFFFFFFFF, .atom⟩
  := by
  have hconst := h.const a ha
  rw [get_set_ne, hconst]
  rintro rfl
  rw [hget] at hconst
  exact hv (Option.some.inj hconst)

/-- A new count for a live object, when the references to it change. -/
theorem recount (h : Inv immortal consts heap objs refs) (hget : get heap op = some v)
    (hv : v.ob_refcnt ≠ 0) {c : ℕ} (hc : c ≠ 0)
    (hothers : ∀ a, a ≠ op → refs'.count a = refs.count a)
    (hcount : (immortal ≤ v.ob_refcnt ∧ c = v.ob_refcnt) ∨
      (v.ob_refcnt < immortal ∧ c + refs.count op = v.ob_refcnt + refs'.count op)) :
  Inv immortal consts (heap.set op (some { v with ob_refcnt := c })) objs refs'
  := by
  have hinternal (b : ℕ) : (internal (heap.set op (some { v with ob_refcnt := c }))).count b
      = (internal heap).count b := by
    have hset := count_internal_set (o := some { v with ob_refcnt := c }) hget b
    rw [held, held, if_neg hv, if_neg hc] at hset
    exact Nat.add_right_cancel hset
  have halive (a : ℕ) : Alive (heap.set op (some { v with ob_refcnt := c })) a ↔ Alive heap a :=
    alive_set_live_iff hget hv hc
  constructor
  · exact h.immortal_le
  · rw [List.length_set, h.length_eq]
  · exact h.obj_eq_recount hget _
  · intro a ha
    by_cases hop : a = op
    · have hconst := h.const a ha
      rw [hop, hget] at hconst
      obtain rfl := Option.some.inj hconst
      rw [hop, get_set_self hget]
      rcases hcount with ⟨-, rfl⟩ | ⟨hlt, -⟩
      · rfl
      · exact absurd h.immortal_le (Nat.not_le.mpr hlt)
    · rw [get_set_ne hop, h.const a ha]
  · intro a ha
    rw [halive]
    by_cases hop : a = op
    · rw [hop]
      exact ⟨v, hget, hv⟩
    · apply h.alive
      rw [← List.count_pos_iff, List.count_append] at ha ⊢
      rwa [hinternal, hothers a hop] at ha
  · intro a w hw hne
    rw [List.count_append, hinternal]
    by_cases hop : a = op
    · rw [hop, get_set_self hget] at hw
      obtain rfl := Option.some.inj hw
      rw [hop]
      rcases hcount with ⟨hle, rfl⟩ | ⟨hlt, hsum⟩
      · left
        exact hle
      · have hold := h.count op v hget hv
        rw [List.count_append] at hold
        right
        dsimp only
        omega
    · rw [get_set_ne hop] at hw
      rw [hothers a hop, ← List.count_append]
      exact h.count a w hw hne
  · intro a ha
    apply h.dead
    rwa [halive] at ha

/-- The references matter only by their numbers. -/
theorem perm (h : Inv immortal consts heap objs refs) (hperm : refs.Perm refs') :
  Inv immortal consts heap objs refs'
  where
  immortal_le := h.immortal_le
  length_eq := h.length_eq
  obj_eq := h.obj_eq
  const := h.const
  alive a ha := h.alive a ((hperm.append_right _).mem_iff.mpr ha)
  count a w hw hne := by
    rw [← (hperm.append_right _).count_eq]
    exact h.count a w hw hne
  dead := h.dead

/-- The last reference to an object is given up: now its own references are in flight. -/
theorem retire (h : Inv immortal consts heap objs (op :: refs)) (hget : get heap op = some v)
    (hv : v.ob_refcnt = 1) (hlt : v.ob_refcnt < immortal) :
  Inv immortal consts (heap.set op (some { v with ob_refcnt := 0 })) objs (v.obj.refs ++ refs)
  := by
  have hv₀ : v.ob_refcnt ≠ 0 := by omega
  have htotal (b : ℕ) : (v.obj.refs ++ refs
        ++ internal (heap.set op (some { v with ob_refcnt := 0 }))).count b
      = (refs ++ internal heap).count b := by
    have hset := count_internal_set (o := some { v with ob_refcnt := 0 }) hget b
    rw [held, held, if_neg hv₀, if_pos rfl, List.count_nil] at hset
    rw [List.count_append, List.count_append, List.count_append]
    omega
  have hunreferenced : op ∉ refs ++ internal heap := by
    rw [← List.count_eq_zero]
    rcases h.count op v hget hv₀ with hle | heq
    · omega
    · rw [List.cons_append, List.count_cons_self] at heq
      omega
  constructor
  · exact h.immortal_le
  · rw [List.length_set, h.length_eq]
  · exact h.obj_eq_recount hget _
  · apply h.const_set hget
    rintro rfl
    exact absurd hv (by decide)
  · intro a ha
    rw [← List.count_pos_iff, htotal, List.count_pos_iff] at ha
    have hne : a ≠ op := by
      rintro rfl
      exact hunreferenced ha
    rw [alive_set_iff hget]
    right
    exact ⟨hne, h.alive a (List.mem_cons_of_mem op ha)⟩
  · intro a w hw hne
    rw [htotal]
    by_cases hop : a = op
    · rw [hop, get_set_self hget] at hw
      obtain rfl := Option.some.inj hw
      exact absurd rfl hne
    · rw [get_set_ne hop] at hw
      have hold := h.count a w hw hne
      rwa [List.cons_append, List.count_cons_of_ne (Ne.symm hop)] at hold
  · intro a ha
    rw [alive_set_iff hget] at ha
    by_cases hop : a = op
    · -- whatever refers to the object is dead already
      subst hop
      constructor
      intro b hedge
      apply h.dead
      apply h.dead_of_not_held hedge
      intro hmem
      exact hunreferenced (List.mem_append_right _ hmem)
    · apply h.dead
      intro halive
      exact ha (Or.inr ⟨hop, halive⟩)

/-- An object whose count is 0 can be freed. -/
theorem free (h : Inv immortal consts heap objs refs) (hget : get heap op = some v)
    (hv : v.ob_refcnt = 0) :
  Inv immortal consts (heap.set op none) objs refs
  := by
  have hinternal (b : ℕ) : (internal (heap.set op none)).count b = (internal heap).count b := by
    have hset := count_internal_set (o := none) hget b
    rw [held, held, if_pos hv] at hset
    exact hset
  have hdead : ¬ Alive heap op := by
    rintro ⟨w, hw, hne⟩
    rw [hget] at hw
    obtain rfl := Option.some.inj hw
    exact hne hv
  have halive (a : ℕ) : Alive (heap.set op none) a ↔ Alive heap a := by
    rw [alive_set_iff hget]
    constructor
    · rintro (⟨-, w, hw, -⟩ | ⟨-, ha⟩)
      · cases hw
      · exact ha
    · intro ha
      right
      refine ⟨?_, ha⟩
      rintro rfl
      exact hdead ha
  have hsome : ∀ a w, get (heap.set op none) a = some w → get heap a = some w := by
    intro a w hw
    by_cases hop : a = op
    · rw [hop, get_set_self hget] at hw
      cases hw
    · rwa [get_set_ne hop] at hw
  constructor
  · exact h.immortal_le
  · rw [List.length_set, h.length_eq]
  · intro a w hw
    exact h.obj_eq a w (hsome a w hw)
  · apply h.const_set hget
    rintro rfl
    exact absurd hv (by decide)
  · intro a ha
    rw [halive]
    apply h.alive
    rwa [← List.count_pos_iff, List.count_append, hinternal, ← List.count_append,
      List.count_pos_iff] at ha
  · intro a w hw hne
    rw [List.count_append, hinternal, ← List.count_append]
    exact h.count a w (hsome a w hw) hne
  · intro a ha
    rw [halive] at ha
    exact h.dead a ha

/-- Writing the elements of a list, with references that are in flight; those that are replaced
are in flight then. -/
theorem set_items (h : Inv immortal consts heap objs refs) {items items' : List ℕ}
    (hget : get heap op = some v) (hv : v.ob_refcnt ≠ 0) (hitems : v.obj = .list items)
    (hcount : ∀ a, refs'.count a + items'.count a = refs.count a + items.count a) :
  Inv immortal consts (heap.set op (some { v with obj := .list items' }))
    (objs.set op (.list items')) refs'
  := by
  have htotal (b : ℕ) : (refs' ++ internal (heap.set op (some { v with obj := .list items' }))
      ).count b = (refs ++ internal heap).count b := by
    have hset := count_internal_set (o := some { v with obj := .list items' }) hget b
    have hb := hcount b
    rw [held, held, if_neg hv, if_neg hv, hitems] at hset
    dsimp only [Obj.refs] at hset
    rw [List.count_append, List.count_append]
    omega
  have halive (a : ℕ) :
      Alive (heap.set op (some { v with obj := .list items' })) a ↔ Alive heap a :=
    alive_set_live_iff hget hv hv
  have hlt : op < objs.length := by
    rw [← h.length_eq]
    exact lt_of_get hget
  constructor
  · exact h.immortal_le
  · rw [List.length_set, List.length_set, h.length_eq]
  · intro a w hw
    by_cases ha : a = op
    · rw [ha, get_set_self hget] at hw
      rw [ha, List.getElem?_set_self hlt, ← Option.some.inj hw]
    · rw [get_set_ne ha] at hw
      rw [List.getElem?_set_ne (Ne.symm ha), h.obj_eq a w hw]
  · apply h.const_set hget
    rintro rfl
    cases hitems
  · intro a ha
    rw [halive]
    apply h.alive
    rwa [← List.count_pos_iff, htotal, List.count_pos_iff] at ha
  · intro a w hw hne
    rw [htotal]
    by_cases hop : a = op
    · rw [hop, get_set_self hget] at hw
      obtain rfl := Option.some.inj hw
      rw [hop]
      exact h.count op v hget hne
    · rw [get_set_ne hop] at hw
      exact h.count a w hw hne
  · -- the new elements are alive, so nothing new refers to a dead object
    intro a ha
    rw [halive] at ha
    have hacc := h.dead a ha
    induction hacc with
    | intro a _ ih =>
        constructor
        rintro b ⟨obj, hobj, hmem⟩
        by_cases hb : op = b
        · subst hb
          rw [List.getElem?_set_self hlt] at hobj
          obtain rfl := Option.some.inj hobj
          have hpos : 0 < items'.count a := List.count_pos_iff.mpr hmem
          have ha' := hcount a
          by_cases hrefs : 0 < refs.count a
          · exact absurd (h.alive a (List.mem_append_left _ (List.count_pos_iff.mp hrefs))) ha
          · have hold : a ∈ v.obj.refs := by
              rw [hitems]
              apply List.count_pos_iff.mp
              dsimp only [Obj.refs]
              omega
            exact absurd (h.alive a (List.mem_append_right _ (mem_internal hget hv hold))) ha
        · rw [List.getElem?_set_ne hb] at hobj
          have hedge : Edge objs b a := ⟨obj, hobj, hmem⟩
          exact ih b hedge (h.dead_of_edge hedge ha)

/-- A new object, with one reference to it. -/
theorem alloc (h : Inv immortal consts heap objs refs) {obj : Obj} (hobj : obj.refs = []) :
  Inv immortal consts (heap ++ [some ⟨1, obj⟩]) (objs ++ [obj]) (heap.length :: refs)
  := by
  have hinternal : internal (heap ++ [some ⟨1, obj⟩]) = internal heap := by
    rw [internal, List.flatMap_append, List.flatMap_singleton, held, if_neg Nat.one_ne_zero, hobj,
      List.append_nil]
    rfl
  have hget (a : ℕ) : get (heap ++ [some ⟨1, obj⟩]) a
      = if a = heap.length then some ⟨1, obj⟩ else get heap a := by
    rw [get, get]
    split
    · next ha =>
      rw [ha, List.getElem?_concat_length]
      rfl
    · next ha =>
      by_cases hlt : a < heap.length
      · rw [List.getElem?_append_left hlt]
      · rw [List.getElem?_append_right (by omega), List.getElem?_eq_none (by simp; omega),
          List.getElem?_eq_none (by omega)]
  have hnew : heap.length ∉ refs ++ internal heap := by
    intro hmem
    exact absurd (h.alive _ hmem).lt (Nat.lt_irrefl _)
  have halive : ∀ a, Alive heap a → Alive (heap ++ [some ⟨1, obj⟩]) a := by
    rintro a ⟨w, hw, hne⟩
    refine ⟨w, ?_, hne⟩
    rw [hget, if_neg (Nat.ne_of_lt (lt_of_get hw)), hw]
  constructor
  · exact h.immortal_le
  · rw [List.length_append, List.length_append, h.length_eq]
    rfl
  · intro a w hw
    rw [hget] at hw
    split at hw
    · next ha =>
      obtain rfl := Option.some.inj hw
      rw [ha, h.length_eq, List.getElem?_concat_length]
    · rw [List.getElem?_append_left, h.obj_eq a w hw]
      rw [← h.length_eq]
      exact lt_of_get hw
  · intro a ha
    have hconst := h.const a ha
    rw [hget, if_neg (Nat.ne_of_lt (lt_of_get hconst)), hconst]
  · intro a ha
    rw [hinternal, List.cons_append] at ha
    rcases List.mem_cons.mp ha with rfl | ha
    · refine ⟨⟨1, obj⟩, ?_, Nat.one_ne_zero⟩
      rw [hget, if_pos rfl]
    · exact halive a (h.alive a ha)
  · intro a w hw hne
    rw [hget] at hw
    rw [hinternal, List.cons_append]
    split at hw
    · next ha =>
      obtain rfl := Option.some.inj hw
      right
      rw [ha, List.count_cons_self, List.count_eq_zero.mpr hnew]
    · next ha =>
      rw [List.count_cons_of_ne (Ne.symm ha)]
      exact h.count a w hw hne
  · intro a ha
    have hacc : Acc (Edge objs) a := h.dead a (fun halive' => ha (halive a halive'))
    have hsub : Subrelation (Edge (objs ++ [obj])) (Edge objs) := by
      rintro b c ⟨obj', hobj', hmem⟩
      refine ⟨obj', ?_, hmem⟩
      by_cases hb : b < objs.length
      · rwa [List.getElem?_append_left hb] at hobj'
      · rw [List.getElem?_append_right (by omega)] at hobj'
        obtain rfl := List.mem_singleton.mp (List.mem_of_getElem? hobj')
        rw [hobj] at hmem
        cases hmem
    exact hsub.accessible hacc

end Inv

/-! ### Releasing references -/

/-- Whether an entry of the memory is an object that is alive. -/
def positive : Option PyObject → Bool
  | none => false
  | some v => v.ob_refcnt ≠ 0

/-- The number of the live objects. -/
def positives (heap : Heap) : ℕ := heap.countP positive

theorem positives_set {heap : Heap} {op : ℕ} {v : PyObject} (h : get heap op = some v)
    (o : Option PyObject) :
  positives (heap.set op o) + (if positive (some v) then 1 else 0)
    = positives heap + (if positive o then 1 else 0)
  := by
  have hlt := lt_of_get h
  have hv : heap[op] = some v := (List.getElem?_eq_some_iff.mp (getElem?_of_get h)).2
  have hpos : (if positive (some v) then 1 else 0) ≤ positives heap := by
    split
    · next hp =>
      apply List.countP_pos_iff.mpr
      use some v, List.mem_of_getElem? (getElem?_of_get h)
    · exact Nat.zero_le _
  rw [positives, List.countP_set hlt, hv]
  rw [positives] at hpos ⊢
  omega

/-- One live object less, when a live object is overwritten by something that is not alive. -/
theorem positives_retire {heap : Heap} {op : ℕ} {v : PyObject} (h : get heap op = some v)
    (hv : v.ob_refcnt ≠ 0) {o : Option PyObject} (ho : positive o = false) :
  positives (heap.set op o) + 1 = positives heap
  := by
  have hset := positives_set h o
  have hpos : positive (some v) = true := decide_eq_true hv
  rw [hpos, ho, if_pos rfl, if_neg Bool.false_ne_true] at hset
  exact hset

/-- Releasing references does not touch the objects whose count is 0: they are in the hands of
`_Py_Dealloc`. -/
structure Frame (heap heap' : Heap) : Prop where
  zero_iff : ∀ a v, v.ob_refcnt = 0 → (get heap' a = some v ↔ get heap a = some v)
  positives_le : positives heap' ≤ positives heap

namespace Frame

theorem refl (heap : Heap) :
  Frame heap heap
  := ⟨fun _ _ _ => Iff.rfl, Nat.le_refl _⟩

theorem trans {heap heap' heap'' : Heap} (h : Frame heap heap') (h' : Frame heap' heap'') :
  Frame heap heap''
  where
  zero_iff a v hv := (h'.zero_iff a v hv).trans (h.zero_iff a v hv)
  positives_le := Nat.le_trans h'.positives_le h.positives_le

/-- A live object gets another count that is not 0. -/
theorem recount {heap : Heap} {op : ℕ} {v : PyObject} (hget : get heap op = some v)
    (hv : v.ob_refcnt ≠ 0) {c : ℕ} (hc : c ≠ 0) :
  Frame heap (heap.set op (some { v with ob_refcnt := c }))
  := by
  constructor
  · intro a w hw
    by_cases ha : a = op
    · rw [ha, get_set_self hget, hget]
      constructor
      · intro heq
        rw [← Option.some.inj heq] at hw
        exact absurd hw hc
      · intro heq
        rw [← Option.some.inj heq] at hw
        exact absurd hw hv
    · rw [get_set_ne ha]
  · have hset := positives_set hget (some { v with ob_refcnt := c })
    simp only [positive, hv, hc, ne_eq, not_false_eq_true, decide_true, if_true] at hset
    omega

/-- An object is freed after its elements were released. -/
theorem dealloc {heap heap' : Heap} {op : ℕ} {v : PyObject} (hget : get heap op = some v)
    (hv : v.ob_refcnt ≠ 0) (h : Frame (heap.set op (some { v with ob_refcnt := 0 })) heap') :
  Frame heap (heap'.set op none)
  := by
  have hzero : get heap' op = some { v with ob_refcnt := 0 } := by
    apply (h.zero_iff op _ rfl).mpr
    exact get_set_self hget
  constructor
  · intro a w hw
    by_cases ha : a = op
    · rw [ha, get_set_self hzero, hget]
      constructor
      · intro heq
        cases heq
      · intro heq
        rw [← Option.some.inj heq] at hw
        exact absurd hw hv
    · rw [get_set_ne ha, h.zero_iff a w hw, get_set_ne ha]
  · have hbefore := positives_retire hget hv (o := some { v with ob_refcnt := 0 }) rfl
    have hafter : positives (heap'.set op none) = positives heap' := positives_set hzero none
    have hle := h.positives_le
    omega

end Frame

section Decref

variable {immortal consts : ℕ} {heap : Heap} {objs : List Obj} {refs : List ℕ}

/-- What `Py_DECREF` does for a reference that is in flight, it does for several. -/
theorem exists_foldlM (decref : ℕ → Heap → Option Heap) {m : ℕ}
    (hdecref : ∀ heap op refs, Inv immortal consts heap objs (op :: refs) → positives heap ≤ m →
      ∃ heap', decref op heap = some heap' ∧ Inv immortal consts heap' objs refs
        ∧ Frame heap heap')
    {ops : List ℕ} (h : Inv immortal consts heap objs (ops ++ refs)) (hm : positives heap ≤ m) :
  ∃ heap', ops.foldlM (fun heap op => decref op heap) heap = some heap'
    ∧ Inv immortal consts heap' objs refs ∧ Frame heap heap'
  := by
  induction ops generalizing heap with
  | nil => exact ⟨heap, rfl, h, Frame.refl heap⟩
  | cons op ops ih =>
      obtain ⟨heap₁, hfirst, hinv₁, hframe₁⟩ := hdecref heap op (ops ++ refs) h hm
      obtain ⟨heap₂, hrest, hinv₂, hframe₂⟩ :=
        ih hinv₁ (Nat.le_trans hframe₁.positives_le hm)
      refine ⟨heap₂, ?_, hinv₂, hframe₁.trans hframe₂⟩
      rw [List.foldlM_cons, hfirst]
      exact hrest

/-- `Py_DECREF` of a reference that is in flight, nested no deeper than there are live objects:
every object that it frees was alive before. -/
theorem exists_decref {n op : ℕ} (h : Inv immortal consts heap objs (op :: refs))
    (hn : positives heap ≤ n) :
  ∃ heap', Py_DECREF immortal n op heap = some heap' ∧ Inv immortal consts heap' objs refs
    ∧ Frame heap heap'
  := by
  induction n generalizing heap op refs with
  | zero =>
      obtain ⟨v, hget, hv⟩ := h.alive op List.mem_cons_self
      have hpos := positives_retire hget hv (o := none) rfl
      omega
  | succ n ih =>
      obtain ⟨v, hget, hv⟩ := h.alive op List.mem_cons_self
      have hothers : ∀ a, a ≠ op → refs.count a = (op :: refs).count a := by
        intro a ha
        rw [List.count_cons_of_ne ha.symm]
      rw [Py_DECREF, hget]
      dsimp only
      split
      · next hle =>
        refine ⟨heap, rfl, ?_, Frame.refl heap⟩
        rw [← set_get hget]
        apply h.recount hget hv hv hothers
        left
        exact ⟨hle, rfl⟩
      · next hlt =>
        split
        · next hzero => exact absurd hzero hv
        · next hone =>
          have hretired := h.retire hget hone (Nat.not_le.mp hlt)
          have hset := positives_retire hget hv (o := some { v with ob_refcnt := 0 }) rfl
          obtain ⟨heap', hfold, hinv, hframe⟩ := exists_foldlM (Py_DECREF immortal n)
            (fun heap op refs => ih) hretired (show positives _ ≤ n by omega)
          rw [_Py_Dealloc, get_set_self hget]
          dsimp only
          rw [hfold]
          refine ⟨_, rfl, ?_, Frame.dealloc hget hv hframe⟩
          have hzero := (hframe.zero_iff op { v with ob_refcnt := 0 } rfl).mpr (get_set_self hget)
          exact hinv.free hzero rfl
        · next c hc =>
          refine ⟨_, rfl, ?_, Frame.recount hget hv (Nat.succ_ne_zero c)⟩
          apply h.recount hget hv (Nat.succ_ne_zero c) hothers
          right
          rw [List.count_cons_self]
          omega

end Decref

/-! ### Between the operations -/

/-- Between the operations no object waits to be freed. -/
structure Settled (immortal consts : ℕ) (heap : Heap) (objs : List Obj) (refs : List ℕ) :
    Prop extends Inv immortal consts heap objs refs where
  settled : ∀ a v, get heap a = some v → v.ob_refcnt ≠ 0

namespace Settled

variable {immortal consts : ℕ} {heap : Heap} {objs : List Obj} {refs refs' : List ℕ} {op : ℕ}

/-- Nothing waits to be freed after references were released. -/
theorem of_frame (h : Settled immortal consts heap objs refs) {heap' : Heap}
    (hinv : Inv immortal consts heap' objs refs') (hframe : Frame heap heap') :
  Settled immortal consts heap' objs refs'
  := by
  refine ⟨hinv, ?_⟩
  intro a v hget hv
  exact h.settled a v ((hframe.zero_iff a v hv).mp hget) hv

theorem perm (h : Settled immortal consts heap objs refs) (hperm : refs.Perm refs') :
  Settled immortal consts heap objs refs'
  := ⟨h.toInv.perm hperm, h.settled⟩

/-- An object is alive as long as it is there. -/
theorem alive_iff (h : Settled immortal consts heap objs refs) :
  Alive heap op ↔ ∃ v, get heap op = some v
  := by
  constructor
  · rintro ⟨v, hget, -⟩
    exact ⟨v, hget⟩
  · rintro ⟨v, hget⟩
    exact ⟨v, hget, h.settled op v hget⟩

/-- `Py_INCREF` of a live object gives a reference to it. -/
theorem incref (h : Settled immortal consts heap objs refs) (halive : Alive heap op) :
  ∃ heap', Py_INCREF immortal op heap = some heap'
    ∧ Settled immortal consts heap' objs (op :: refs) ∧ ∀ a, ob_item heap' a = ob_item heap a
  := by
  obtain ⟨v, hget, hv⟩ := halive
  rw [Py_INCREF, hget]
  refine ⟨_, rfl, ?_⟩
  have hothers : ∀ a, a ≠ op → (op :: refs).count a = refs.count a := by
    intro a ha
    rw [List.count_cons_of_ne ha.symm]
  dsimp only
  split
  · next hle =>
    have hinv := h.recount hget hv hv hothers (Or.inl ⟨hle, rfl⟩)
    rw [set_get hget] at hinv
    exact ⟨h.of_frame hinv (Frame.refl heap), fun _ => rfl⟩
  · next hlt =>
    refine ⟨?_, fun a => ob_item_recount hget _⟩
    apply h.of_frame _ (Frame.recount hget hv (Nat.succ_ne_zero _))
    apply h.recount hget hv (Nat.succ_ne_zero _) hothers
    right
    rw [List.count_cons_self]
    omega

/-- `Py_DECREF` of references that are in flight. -/
theorem decref_all {ops : List ℕ} (h : Settled immortal consts heap objs (ops ++ refs)) :
  ∃ heap', decref_all immortal ops heap = some heap' ∧ Settled immortal consts heap' objs refs
  := by
  obtain ⟨heap', hfold, hinv, hframe⟩ := exists_foldlM (m := objs.length)
    (fun op heap => Py_DECREF immortal heap.length op heap)
    (by
      intro heap op refs hinv _
      apply exists_decref hinv
      exact List.countP_le_length)
    h.toInv (by rw [← h.length_eq]; exact List.countP_le_length)
  exact ⟨heap', hfold, h.of_frame hinv hframe⟩

/-- A new object, with one reference to it. -/
theorem alloc (h : Settled immortal consts heap objs refs) {obj : Obj} (hobj : obj.refs = []) :
  Settled immortal consts (heap ++ [some ⟨1, obj⟩]) (objs ++ [obj]) (heap.length :: refs)
  := by
  refine ⟨h.toInv.alloc hobj, ?_⟩
  intro a v hget
  have hmem := List.mem_of_getElem? (getElem?_of_get hget)
  rcases List.mem_append.mp hmem with hold | hnew
  · obtain ⟨i, hi, hv⟩ := List.mem_iff_getElem.mp hold
    apply h.settled i v
    rw [get, List.getElem?_eq_getElem hi, hv]
    rfl
  · obtain rfl := Option.some.inj (List.mem_singleton.mp hnew)
    exact Nat.one_ne_zero

/-- The elements of a live list. -/
theorem ob_item_eq (h : Settled immortal consts heap objs refs) (halive : Alive heap op) :
  Plain.ob_item objs op = ob_item heap op
  := by
  obtain ⟨⟨c, obj⟩, hget, -⟩ := halive
  rw [Plain.ob_item, ob_item, hget, h.obj_eq op _ hget]
  cases obj <;> rfl

/-- Writing the elements of a list. -/
theorem set_items (h : Settled immortal consts heap objs refs) (items' refs' : List ℕ)
    {items : List ℕ} (hitems : ob_item heap op = some items)
    (hcount : ∀ a, refs'.count a + items'.count a = refs.count a + items.count a) :
  ∃ heap', set_items op items' heap = some heap'
    ∧ Settled immortal consts heap' (objs.set op (.list items')) refs'
  := by
  obtain ⟨c, hget⟩ := get_of_ob_item hitems
  have hc : c ≠ 0 := h.settled op _ hget
  rw [RefCount.set_items, hget]
  refine ⟨_, rfl, h.toInv.set_items hget hc rfl hcount, ?_⟩
  intro a v hv
  by_cases ha : a = op
  · rw [ha, get_set_self hget] at hv
    rw [← Option.some.inj hv]
    exact hc
  · rw [get_set_ne ha] at hv
    exact h.settled a v hv

/-- `list_append` stores the reference that `Py_INCREF` gave. -/
theorem list_append (h : Settled immortal consts heap objs refs) {obj : ℕ} {items : List ℕ}
    (hobj : Alive heap obj) (hitems : ob_item heap op = some items) :
  ∃ heap', list_append immortal op obj heap = some heap'
    ∧ Settled immortal consts heap' (objs.set op (.list (items ++ [obj]))) refs
  := by
  obtain ⟨heap₁, hincref, h₁, hsame⟩ := h.incref hobj
  obtain ⟨heap₂, hset, h₂⟩ := h₁.set_items (items ++ [obj]) refs
    (by rw [hsame, hitems]) (by
    intro a
    rw [List.count_append, List.count_singleton, List.count_cons]
    omega)
  refine ⟨heap₂, ?_, h₂⟩
  rw [RefCount.list_append, hitems, Option.bind_some, hincref, Option.bind_some, hset]

/-- `lst.pop()` releases the last element. -/
theorem list_pop (h : Settled immortal consts heap objs refs) {obj : ℕ} {items : List ℕ}
    (hitems : ob_item heap op = some items) (hlast : items.getLast? = some obj) :
  ∃ heap', list_pop immortal op heap = some heap'
    ∧ Settled immortal consts heap' (objs.set op (.list items.dropLast)) refs
  := by
  have hsplit : items = items.dropLast ++ [obj] := by
    rw [List.getLast?_eq_some_iff] at hlast
    obtain ⟨init, rfl⟩ := hlast
    rw [List.dropLast_concat]
  obtain ⟨heap₁, hset, h₁⟩ := h.set_items items.dropLast ([obj] ++ refs)
    hitems (by
      intro a
      rw [hsplit, List.dropLast_concat, List.count_append, List.count_append]
      omega)
  obtain ⟨heap₂, hdecref, h₂⟩ := h₁.decref_all
  refine ⟨heap₂, ?_, h₂⟩
  rw [RefCount.list_pop, hitems, Option.bind_some, hlast, Option.bind_some, hset,
    Option.bind_some, hdecref]

/-- `lst.clear()` releases all the elements. -/
theorem list_clear (h : Settled immortal consts heap objs refs) {items : List ℕ}
    (hitems : ob_item heap op = some items) :
  ∃ heap', list_clear immortal op heap = some heap'
    ∧ Settled immortal consts heap' (objs.set op (.list [])) refs
  := by
  obtain ⟨heap₁, hset, h₁⟩ := h.set_items [] (items ++ refs) hitems (by
    intro a
    rw [List.count_append, List.count_nil]
    omega)
  obtain ⟨heap₂, hdecref, h₂⟩ := h₁.decref_all
  refine ⟨heap₂, ?_, h₂⟩
  rw [RefCount.list_clear, hitems, Option.bind_some, hset, Option.bind_some, hdecref]

/-- `lst[i] = obj` releases the old element. -/
theorem list_ass_item (h : Settled immortal consts heap objs refs) {i obj old : ℕ}
    {items : List ℕ} (hobj : Alive heap obj) (hitems : ob_item heap op = some items)
    (hold : items[i]? = some old) :
  ∃ heap', list_ass_item immortal op i obj heap = some heap'
    ∧ Settled immortal consts heap' (objs.set op (.list (items.set i obj))) refs
  := by
  obtain ⟨heap₁, hincref, h₁, hsame⟩ := h.incref hobj
  obtain ⟨heap₂, hset, h₂⟩ := h₁.set_items (items.set i obj) ([old] ++ refs)
    (by rw [hsame, hitems]) (by
      intro a
      have hcount := count_flatMap_set (fun b => [b]) hold obj a
      rw [List.flatMap_singleton', List.flatMap_singleton'] at hcount
      have hcons : (obj :: refs).count a = [obj].count a + refs.count a := by
        rw [← List.count_append]
        rfl
      rw [List.count_append]
      omega)
  obtain ⟨heap₃, hdecref, h₃⟩ := h₂.decref_all
  refine ⟨heap₃, ?_, h₃⟩
  rw [RefCount.list_ass_item, hitems, Option.bind_some, hold, Option.bind_some, hincref,
    Option.bind_some, hset, Option.bind_some, hdecref]

end Settled

/-! ### The operations -/

section Refinement

variable {immortal consts : ℕ} {heap : Heap} {objs : List Obj} {locals : List (Option ℕ)}

/-- The program with counts and the program without them have the same variables; the objects
that are there have the same values, and they are all that the variables lead to. -/
structure Represents (immortal consts : ℕ) (s : State) (t : Plain) : Prop where
  settled : Settled immortal consts s.heap t.objs (roots s.locals)
  locals_eq : s.locals = t.locals

/-- What a variable refers to is alive. -/
theorem alive_of_local (h : Settled immortal consts heap objs (roots locals)) {x op : ℕ}
    (hx : locals[x]?.join = some op) :
  Alive heap op
  := by
  apply h.alive
  apply List.mem_append_left
  apply List.mem_flatMap.mpr
  use some op
  rw [Option.join_eq_some_iff] at hx
  exact ⟨List.mem_of_getElem? hx, Option.mem_toList.mpr rfl⟩

/-- A variable takes the reference that is in flight, and releases the one that it had. -/
theorem set_local_rel {value : Option ℕ} (x : ℕ)
    (h : Settled immortal consts heap objs (value.toList ++ roots locals)) :
  Option.Rel (Same (Represents immortal consts)) (set_local immortal x value locals heap)
    (Plain.set_local x value ⟨objs, locals⟩)
  := by
  rw [set_local, Plain.set_local]
  cases hx : locals[x]? with
  | none =>
      rw [if_neg (Nat.not_lt.mpr (List.getElem?_eq_none_iff.mp hx))]
      exact Option.Rel.none
  | some old =>
      have hperm : (value.toList ++ roots locals).Perm
          (old.toList ++ roots (locals.set x value)) := by
        apply List.perm_iff_count.mpr
        intro a
        have hcount := count_flatMap_set Option.toList hx value a
        rw [List.count_append, List.count_append, roots, roots]
        omega
      obtain ⟨heap', hdecref, hsettled⟩ := (h.perm hperm).decref_all
      rw [if_pos (List.getElem?_eq_some_iff.mp hx).1, Option.bind_some, hdecref]
      apply Option.Rel.some
      exact ⟨⟨hsettled, rfl⟩, rfl⟩

/-- A variable takes a new reference to a live object. -/
theorem incref_rel (h : Settled immortal consts heap objs (roots locals)) {obj : ℕ}
    (halive : Alive heap obj) (x : ℕ) :
  Option.Rel (Same (Represents immortal consts))
    ((Py_INCREF immortal obj heap).bind (set_local immortal x obj locals))
    (Plain.set_local x obj ⟨objs, locals⟩)
  := by
  obtain ⟨heap', hincref, hsettled, -⟩ := h.incref halive
  rw [hincref, Option.bind_some]
  apply set_local_rel x hsettled

/-- A list is written. -/
theorem rel_of_settled {heap' : Heap} {objs' : List Obj}
    (h : Settled immortal consts heap' objs' (roots locals)) (result : Result) :
  Option.Rel (Same (Represents immortal consts)) (some (⟨heap', locals⟩, result))
    (some (⟨objs', locals⟩, result))
  := by
  apply Option.Rel.some
  exact ⟨⟨h, rfl⟩, rfl⟩

/-- When the first steps have the same outcome, and the next ones are related, so are all. -/
theorem rel_bind {σ τ α : Type*} {R : σ → τ → Prop} {o : Option α} {f : α → Option σ}
    {g : α → Option τ} (h : ∀ a, o = some a → Option.Rel R (f a) (g a)) :
  Option.Rel R (o.bind f) (o.bind g)
  := by
  cases o with
  | none => exact Option.Rel.none
  | some a => exact h a rfl

/-- An operation does the same with and without counts. -/
theorem exec_rel (s : State) (t : Plain) (op : Op) (h : Represents immortal consts s t) :
  Option.Rel (Same (Represents immortal consts)) (exec immortal consts s op)
    (Plain.exec consts t op)
  := by
  obtain ⟨heap, locals⟩ := s
  obtain ⟨objs, locals'⟩ := t
  obtain ⟨h, rfl⟩ := h
  have hlength : heap.length = objs.length := h.length_eq
  cases op with
  | list x =>
      rw [exec, Plain.exec, ← hlength]
      apply set_local_rel x (h.alloc rfl)
  | int x =>
      rw [exec, Plain.exec, ← hlength]
      apply set_local_rel x (h.alloc rfl)
  | const x i =>
      rw [exec, Plain.exec]
      split
      · next hi =>
        apply incref_rel h
        exact ⟨_, h.const i hi, by decide⟩
      · exact Option.Rel.none
  | copy x y =>
      apply rel_bind
      intro obj hobj
      apply incref_rel h (alive_of_local h hobj)
  | del x =>
      apply rel_bind
      intro obj hobj
      apply set_local_rel x h
  | append x y =>
      apply rel_bind
      intro self hself
      apply rel_bind
      intro obj hobj
      have hself' := alive_of_local h hself
      rw [h.ob_item_eq hself']
      cases hitems : ob_item heap self with
      | none =>
          rw [list_append, hitems]
          exact Option.Rel.none
      | some items =>
          obtain ⟨heap', heq, hsettled⟩ := h.list_append (alive_of_local h hobj) hitems
          rw [heq]
          exact rel_of_settled hsettled _
  | pop x =>
      apply rel_bind
      intro self hself
      rw [h.ob_item_eq (alive_of_local h hself)]
      cases hitems : ob_item heap self with
      | none =>
          rw [list_pop, hitems]
          exact Option.Rel.none
      | some items =>
          rw [Option.bind_some]
          cases hlast : items.getLast? with
          | none =>
              rw [list_pop, hitems, Option.bind_some, hlast]
              exact Option.Rel.none
          | some obj =>
              obtain ⟨heap', heq, hsettled⟩ := h.list_pop hitems hlast
              rw [heq]
              exact rel_of_settled hsettled _
  | clear x =>
      apply rel_bind
      intro self hself
      rw [h.ob_item_eq (alive_of_local h hself)]
      cases hitems : ob_item heap self with
      | none =>
          rw [list_clear, hitems]
          exact Option.Rel.none
      | some items =>
          obtain ⟨heap', heq, hsettled⟩ := h.list_clear hitems
          rw [heq]
          exact rel_of_settled hsettled _
  | setItem x i y =>
      apply rel_bind
      intro self hself
      apply rel_bind
      intro obj hobj
      rw [h.ob_item_eq (alive_of_local h hself)]
      cases hitems : ob_item heap self with
      | none =>
          rw [list_ass_item, hitems]
          exact Option.Rel.none
      | some items =>
          rw [Option.bind_some]
          cases hold : items[i]? with
          | none =>
              rw [list_ass_item, hitems, Option.bind_some, hold]
              exact Option.Rel.none
          | some old =>
              obtain ⟨heap', heq, hsettled⟩ :=
                h.list_ass_item (alive_of_local h hobj) hitems hold
              rw [heq]
              exact rel_of_settled hsettled _
  | getItem x y i =>
      apply rel_bind
      intro self hself
      rw [h.ob_item_eq (alive_of_local h hself)]
      apply rel_bind
      intro items hitems
      apply rel_bind
      intro obj hobj
      apply incref_rel h
      obtain ⟨c, hget⟩ := get_of_ob_item hitems
      apply h.alive
      apply List.mem_append_right
      apply mem_internal hget (h.settled self _ hget)
      exact List.mem_of_getElem? hobj
  | is x y =>
      apply rel_bind
      intro a _
      dsimp only
      cases locals[y]?.join with
      | none => exact Option.Rel.none
      | some b => exact rel_of_settled h _
  | len x =>
      apply rel_bind
      intro self hself
      rw [h.ob_item_eq (alive_of_local h hself)]
      cases ob_item heap self with
      | none => exact Option.Rel.none
      | some items => exact rel_of_settled h _

/-- The variables are unbound at first, and the immortal objects hold no references. -/
theorem represents_start (himmortal : immortal ≤ 0xFFFFFFFF) (consts slots : ℕ) :
  Represents immortal consts (start consts slots) (Plain.start consts slots)
  := by
  have hget : ∀ a v, get (start consts slots).heap a = some v →
      a < consts ∧ v = ⟨0xFFFFFFFF, .atom⟩ := by
    intro a v hv
    obtain ⟨hlt, heq⟩ := List.getElem?_eq_some_iff.mp (getElem?_of_get hv)
    rw [start, List.length_replicate] at hlt
    use hlt
    simpa [start] using heq.symm
  have hinternal : internal (start consts slots).heap = [] := by
    apply List.flatMap_eq_nil_iff.mpr
    intro o ho
    rw [List.eq_of_mem_replicate ho]
    rfl
  have hroots : roots (start consts slots).locals = [] := by
    apply List.flatMap_eq_nil_iff.mpr
    intro o ho
    rw [List.eq_of_mem_replicate ho]
    rfl
  refine ⟨⟨⟨himmortal, ?_, ?_, ?_, ?_, ?_, ?_⟩, ?_⟩, rfl⟩
  · rw [start, Plain.start, List.length_replicate, List.length_replicate]
  · intro a v hv
    obtain ⟨hlt, rfl⟩ := hget a v hv
    rw [Plain.start, List.getElem?_replicate_of_lt hlt]
  · intro a ha
    rw [get, start, List.getElem?_replicate_of_lt ha]
    rfl
  · intro a ha
    rw [hinternal, hroots] at ha
    cases ha
  · intro a v hv _
    obtain ⟨-, rfl⟩ := hget a v hv
    left
    exact himmortal
  · intro a _
    constructor
    rintro b ⟨obj, hobj, hmem⟩
    rw [List.eq_of_mem_replicate (List.mem_of_getElem? hobj)] at hmem
    cases hmem
  · intro a v hv
    obtain ⟨-, rfl⟩ := hget a v hv
    decide

end Refinement

/-! ### Whole programs -/

section Runs

variable {immortal consts slots : ℕ}

/-- After a run the objects are counted, and the program without counts has run as well. -/
theorem represents_of_run (himmortal : immortal ≤ 0xFFFFFFFF) {ops : List Op} {s : State}
    {results : List Result}
    (hrun : run (exec immortal consts) (start consts slots) ops = some (s, results)) :
  ∃ t, run (Plain.exec consts) (Plain.start consts slots) ops = some (t, results)
    ∧ Represents immortal consts s t
  := by
  have hrel := run_rel exec_rel (represents_start himmortal consts slots) ops
  rw [hrun] at hrel
  generalize run (Plain.exec consts) (Plain.start consts slots) ops = r at hrel
  cases hrel with
  | @some _ b hab =>
      obtain ⟨t, results'⟩ := b
      obtain ⟨hrep, rfl⟩ : Represents immortal consts s t ∧ results = results' := hab
      exact ⟨t, rfl, hrep⟩

/-- A variable leads to the object. -/
def Reached (t : Plain) (a : ℕ) : Prop :=
  ∃ x b : ℕ, t.locals[x]? = some (some b) ∧ Relation.ReflTransGen (Edge t.objs) b a

/-- What the variables lead to is there, with its value. -/
theorem Represents.obj_of_reached {s : State} {t : Plain} (h : Represents immortal consts s t)
    {a : ℕ} (ha : Reached t a) :
  Alive s.heap a
  := by
  obtain ⟨x, b, hx, hpath⟩ := ha
  rw [← h.locals_eq] at hx
  induction hpath with
  | refl => exact alive_of_local h.settled (Option.join_eq_some_iff.mpr hx)
  | tail _ hedge ih =>
      by_contra hdead
      exact h.settled.dead_of_edge hedge hdead ih

/-- A program that counts its references gives what it gives when nothing is ever freed, and
fails only if it fails then: everything that its variables lead to is there. -/
theorem refcount_run (himmortal : immortal ≤ 0xFFFFFFFF) (ops : List Op) :
  Option.Rel (fun r r' => r.2 = r'.2 ∧ r.1.locals = r'.1.locals
      ∧ ∀ a, Reached r'.1 a → (get r.1.heap a).map PyObject.obj = r'.1.objs[a]?)
    (run (exec immortal consts) (start consts slots) ops)
    (run (Plain.exec consts) (Plain.start consts slots) ops)
  := by
  have hrel := run_rel exec_rel (represents_start himmortal consts slots) ops
  generalize run (exec immortal consts) (start consts slots) ops = r at hrel
  generalize run (Plain.exec consts) (Plain.start consts slots) ops = r' at hrel
  cases hrel with
  | none => exact Option.Rel.none
  | @some a b hab =>
      obtain ⟨hrep, hresults⟩ := hab
      apply Option.Rel.some
      refine ⟨hresults, hrep.locals_eq, ?_⟩
      intro op hop
      obtain ⟨v, hget, -⟩ := hrep.obj_of_reached hop
      rw [hget, hrep.settled.obj_eq op v hget]
      rfl

/-- The first immortal count as it is documented. -/
def _Py_IMMORTAL_MINIMUM_REFCNT : ℕ := 1 <<< 31

/-- `a = []; b = a; lst = []; lst.append(a); del b; lst.clear(); len(a)`. -/
theorem refcount_run_demo :
  Option.Rel (fun r r' => r.2 = r'.2 ∧ r.1.locals = r'.1.locals
      ∧ ∀ a, Reached r'.1 a → (get r.1.heap a).map PyObject.obj = r'.1.objs[a]?)
    (run (exec _Py_IMMORTAL_MINIMUM_REFCNT 1) (start 1 3)
      [.list 0, .copy 1 0, .list 2, .append 2 0, .del 1, .clear 2, .len 0])
    (run (Plain.exec 1) (Plain.start 1 3)
      [.list 0, .copy 1 0, .list 2, .append 2 0, .del 1, .clear 2, .len 0])
  := refcount_run (by decide) _

/-- The references that the objects of the memory hold. -/
def elements : Option PyObject → List ℕ
  | none => []
  | some v => v.obj.refs

/-- The number of the references to an object: those of the variables, and those of the lists. -/
def references (s : State) (a : ℕ) : ℕ :=
  s.locals.count (some a) + (s.heap.flatMap elements).count a

theorem count_roots (locals : List (Option ℕ)) (a : ℕ) :
  (roots locals).count a = locals.count (some a)
  := by
  induction locals with
  | nil => rfl
  | cons o locals ih =>
      rw [roots, List.flatMap_cons, List.count_append, List.count_cons]
      rw [roots] at ih
      rw [ih]
      cases o with
      | none => simp
      | some b =>
          rw [Option.toList_some, List.count_singleton, Nat.add_comm]
          simp

theorem Represents.references_eq {s : State} {t : Plain} (h : Represents immortal consts s t)
    (a : ℕ) :
  references s a = (roots s.locals ++ internal s.heap).count a
  := by
  have hinternal : internal s.heap = s.heap.flatMap elements := by
    apply List.flatMap_congr
    intro o ho
    cases o with
    | none => rfl
    | some v =>
        obtain ⟨i, hi, hv⟩ := List.mem_iff_getElem.mp ho
        have hget : get s.heap i = some v := by
          rw [get, List.getElem?_eq_getElem hi, hv]
          rfl
        rw [held, if_neg (h.settled.settled i v hget)]
        rfl
  rw [List.count_append, count_roots, hinternal, references]

/-- After any run, every count that did not become immortal is the number of the references to
the object, of which there is at least one, and `sys.getrefcount` gives one more. -/
theorem refcount_exact (himmortal : immortal ≤ 0xFFFFFFFF) {ops : List Op} {s : State}
    {results : List Result}
    (hrun : run (exec immortal consts) (start consts slots) ops = some (s, results)) {a : ℕ}
    {v : PyObject} (hget : get s.heap a = some v) :
  (v.ob_refcnt < immortal → v.ob_refcnt = references s a ∧ 0 < references s a)
    ∧ ∃ c, getrefcount immortal a s.heap = some c
      ∧ (c < immortal → c = references s a + 1)
  := by
  obtain ⟨t, -, hrep⟩ := represents_of_run himmortal hrun
  have hne := hrep.settled.settled a v hget
  have hcount := hrep.settled.count a v hget hne
  rw [← hrep.references_eq] at hcount
  constructor
  · omega
  · rw [getrefcount, Py_INCREF, hget, Option.map_some, Option.bind_some]
    split
    · next hle =>
      rw [hget]
      refine ⟨_, rfl, ?_⟩
      omega
    · next hlt =>
      rw [get_set_self hget]
      refine ⟨_, rfl, ?_⟩
      dsimp only
      omega

/-- `a = []; b = a; lst = []; lst.append(a)`: three references to the list `a`. -/
theorem refcount_exact_demo :
  ∃ s results v, run (exec _Py_IMMORTAL_MINIMUM_REFCNT 1) (start 1 3)
      [.list 0, .copy 1 0, .list 2, .append 2 0] = some (s, results)
    ∧ get s.heap 1 = some v ∧ v.ob_refcnt = 3
    ∧ (v.ob_refcnt < _Py_IMMORTAL_MINIMUM_REFCNT →
      v.ob_refcnt = references s 1 ∧ 0 < references s 1)
  := by
  have hrun : run (exec _Py_IMMORTAL_MINIMUM_REFCNT 1) (start 1 3)
      [.list 0, .copy 1 0, .list 2, .append 2 0] = some _ := rfl
  exact ⟨_, _, _, hrun, rfl, rfl, (refcount_exact (by decide) hrun rfl).1⟩

/-- A variable or a cycle of lists leads to the object. -/
def Sustained (t : Plain) (a : ℕ) : Prop :=
  ∃ b, Relation.ReflTransGen (Edge t.objs) b a
    ∧ ((∃ x : ℕ, t.locals[x]? = some (some b)) ∨ Relation.TransGen (Edge t.objs) b b)

/-- An object that is sustained is there. -/
theorem Represents.alive_of_sustained {s : State} {t : Plain}
    (h : Represents immortal consts s t) {a : ℕ} (ha : Sustained t a) :
  Alive s.heap a
  := by
  obtain ⟨b, hpath, ⟨x, hx⟩ | hcycle⟩ := ha
  · exact h.obj_of_reached ⟨x, b, hx, hpath⟩
  · by_contra hdead
    have hdead_b : ¬ Alive s.heap b := by
      induction hpath with
      | refl => exact hdead
      | tail _ hedge ih => exact ih (h.settled.dead_of_edge hedge hdead)
    have hacc := (h.settled.dead b hdead_b).transGen
    clear hpath hdead_b
    induction hacc with
    | intro b _ ih => exact ih b hcycle hcycle

/-- After any run in which no count became immortal, the objects that are left, beside the
immortal ones, are those that a variable or a cycle of lists leads to. -/
theorem exists_iff_sustained (himmortal : immortal ≤ 0xFFFFFFFF) {ops : List Op} {s : State}
    {t : Plain} {results results' : List Result}
    (hrun : run (exec immortal consts) (start consts slots) ops = some (s, results))
    (hplain : run (Plain.exec consts) (Plain.start consts slots) ops = some (t, results'))
    (hmortal : ∀ a v, consts ≤ a → get s.heap a = some v → v.ob_refcnt < immortal) {a : ℕ}
    (ha : consts ≤ a) :
  (∃ v, get s.heap a = some v) ↔ Sustained t a
  := by
  obtain ⟨t', hrun', hrep⟩ := represents_of_run himmortal hrun
  rw [hplain] at hrun'
  obtain ⟨rfl, -⟩ := Prod.mk.inj (Option.some.inj hrun')
  rw [← hrep.settled.alive_iff]
  constructor
  · intro halive
    -- every object that is left has a reference, from a variable or from a list that is left
    apply Graph.exists_root_or_cycle (S := {a | consts ≤ a ∧ Alive s.heap a}) _ _ ⟨ha, halive⟩
    · apply (Set.finite_lt_nat s.heap.length).subset
      rintro b ⟨-, hb⟩
      exact hb.lt
    · rintro b ⟨hb, v, hget, hv⟩
      have hcount := hrep.settled.count b v hget hv
      have hlt := hmortal b v hb hget
      have hmem : b ∈ roots s.locals ++ internal s.heap := by
        apply List.count_pos_iff.mp
        omega
      rcases List.mem_append.mp hmem with hroot | hheld
      · left
        obtain ⟨o, ho, hbo⟩ := List.mem_flatMap.mp hroot
        obtain ⟨x, hx⟩ := List.mem_iff_getElem?.mp ho
        use x
        rw [← hrep.locals_eq, hx, Option.mem_toList.mp hbo]
      · right
        obtain ⟨o, ho, hbo⟩ := List.mem_flatMap.mp hheld
        obtain ⟨c, hc⟩ := List.mem_iff_getElem?.mp ho
        cases o with
        | none => cases hbo
        | some w =>
            have hgetc : get s.heap c = some w := by
              rw [get, hc]
              rfl
            have hw := hrep.settled.settled c w hgetc
            rw [held, if_neg hw] at hbo
            refine ⟨c, ⟨?_, w, hgetc, hw⟩, w.obj, hrep.settled.obj_eq c w hgetc, hbo⟩
            -- the immortal objects hold no references
            by_contra hlt'
            have hconst := hrep.settled.const c (Nat.not_le.mp hlt')
            rw [hgetc] at hconst
            rw [Option.some.inj hconst] at hbo
            cases hbo
  · exact hrep.alive_of_sustained

/-- `a = []; b = []; a.append(b); b.append(a); del a; del b`: the two lists stay, and a third
that `c` refers to is freed when `c` is deleted. -/
theorem exists_iff_sustained_demo :
  ∃ s t results, run (exec _Py_IMMORTAL_MINIMUM_REFCNT 1) (start 1 3)
      [.list 0, .list 1, .append 0 1, .append 1 0, .list 2, .del 0, .del 1, .del 2]
        = some (s, results)
    ∧ (∃ v, get s.heap 1 = some v) ∧ Sustained t 1 ∧ get s.heap 3 = none ∧ ¬ Sustained t 3
  := by
  have hrun : run (exec _Py_IMMORTAL_MINIMUM_REFCNT 1) (start 1 3)
      [.list 0, .list 1, .append 0 1, .append 1 0, .list 2, .del 0, .del 1, .del 2]
        = some (⟨[some ⟨0xFFFFFFFF, .atom⟩, some ⟨1, .list [2]⟩, some ⟨1, .list [1]⟩, none],
          [none, none, none]⟩, _) := rfl
  have hplain : run (Plain.exec 1) (Plain.start 1 3)
      [.list 0, .list 1, .append 0 1, .append 1 0, .list 2, .del 0, .del 1, .del 2] = some _ := rfl
  have hiff (a : ℕ) (ha : 1 ≤ a) := exists_iff_sustained (by decide) hrun hplain
    (by
      intro a v ha hget
      have hlt : a < 4 := lt_of_get hget
      obtain rfl | rfl | rfl : a = 1 ∨ a = 2 ∨ a = 3 := by omega
      · rw [← Option.some.inj hget]
        decide
      · rw [← Option.some.inj hget]
        decide
      · cases hget) ha
  refine ⟨_, _, _, hrun, ⟨_, rfl⟩, (hiff 1 (by decide)).mp ⟨_, rfl⟩, rfl, ?_⟩
  intro hsustained
  obtain ⟨v, hv⟩ := (hiff 3 (by decide)).mpr hsustained
  cases hv

end Runs

end RefCount
