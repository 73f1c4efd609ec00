import Mathlib.Data.Int.Notation
import Mathlib.Logic.Function.Basic
import Mathlib.Tactic.SplitIfs
import PythonInternals.Foundation.LatestWrite

/-!
# Attribute lookup

`PyObject_GenericGetAttr` and its counterpart for assignments and deletions, on the instances of
the classes of `descriptor_demo.py`, `property_demo.py` and `slots_demo.py`: a data descriptor of
the class comes first, then the dictionary of the instance, then what else the class has, and
then `__getattr__`.  The names are those that neither `object` defines nor Python adds to a class.

`exec` performs assignments, deletions and writes to the dictionary in any order.  An attribute
that is no data descriptor reads what was written last, unless that was deleted, and else what
the class has (`genericGetAttr_run`).  `Demo.y` and `C.x` cannot be shadowed or written
(`demo_run`, `c_run`), and an instance with slots has nothing but its slots
(`withSlots_run`).
-/

namespace Attributes

/-- The values that the classes of the demos deal with. -/
inductive Value where
  | int (n : ℤ)
  | str (s : String)
  | function (name : String)
  | method (name : String)
  | descriptor (name : String)
  | tuple (items : List String)
  deriving DecidableEq

abbrev Dict : Type := String → Option Value

/-- An instance: its `__dict__`, if it has one, and its slots. -/
structure Instance where
  dict : Option Dict
  slots : Dict

/-- What an access raises. -/
inductive Error where
  | attributeError
  | valueError (text : String)
  | typeError
  deriving DecidableEq

/-- An attribute of a class, with the functions `__get__` and `__set__` of its type, if it has
them; `__set__` is given no value for a deletion. -/
structure ClassAttr where
  value : Value
  tp_descr_get : Option (Instance → Except Error Value)
  tp_descr_set : Option (Instance → Option Value → Except Error Instance)

/-- A class: its attributes, and what becomes of a name that is not found. -/
structure PyType where
  lookup : String → Option ClassAttr
  getattr : String → Except Error Value

/-- What the dictionary of an instance has under a name. -/
def Instance.entry (obj : Instance) (name : String) : Option Value :=
  obj.dict.bind (fun d => d name)

/-- The instance with a value under a name of its dictionary. -/
def Instance.store (obj : Instance) (name : String) (value : Option Value) : Instance :=
  { obj with dict := obj.dict.map (fun d => Function.update d name value) }

/-- `PyObject_GenericGetAttr(obj, name)`. -/
def genericGetAttr (type : PyType) (obj : Instance) (name : String) : Except Error Value :=
  match type.lookup name with
  | some descr =>
      match descr.tp_descr_get, descr.tp_descr_set with
      | some f, some _ => f obj
      | f, _ =>
          match obj.entry name, f with
          | some value, _ => .ok value
          | none, some f => f obj
          | none, none => .ok descr.value
  | none =>
      match obj.entry name with
      | some value => .ok value
      | none => type.getattr name

/-- `PyObject_GenericSetAttr(obj, name, value)`, where no value stands for a deletion. -/
def genericSetAttr (type : PyType) (obj : Instance) (name : String) (value : Option Value) :
    Except Error Instance :=
  match (type.lookup name).bind ClassAttr.tp_descr_set with
  | some set => set obj value
  | none =>
      if obj.dict.isNone ∨ (value = none ∧ obj.entry name = none) then .error .attributeError
      else .ok (obj.store name value)

/-- The operations on an instance. -/
inductive Op where
  /-- `obj.name = value` -/
  | setattr (name : String) (value : Value)
  /-- `del obj.name` -/
  | delattr (name : String)
  /-- `obj.__dict__[name] = value` -/
  | writeDict (name : String) (value : Value)

/-- Perform an operation; one that raises an error leaves the instance as it is. -/
def exec (type : PyType) (obj : Instance) : Op → Instance × Option Error
  | .setattr name value => settle obj (genericSetAttr type obj name (some value))
  | .delattr name => settle obj (genericSetAttr type obj name none)
  | .writeDict name value =>
      settle obj
        (if obj.dict.isNone then .error .attributeError else .ok (obj.store name (some value)))
where
  settle (obj : Instance) : Except Error Instance → Instance × Option Error
    | .ok obj' => (obj', none)
    | .error e => (obj, some e)

/-- The instance after a sequence of operations. -/
def run (type : PyType) (obj : Instance) (ops : List Op) : Instance :=
  ops.foldl (fun obj op => (exec type obj op).1) obj

/-! ### Names that are no data descriptors -/

theorem join_eq_getD {α : Type} (x : Option (Option α)) :
  x.join = x.getD none
  := by
  cases x <;> rfl

/-- What an operation writes under a name of the dictionary: a value, or nothing when it deletes
it. -/
def Op.writes (name : String) : Op → Option (Option Value)
  | .setattr other value => if other = name then some (some value) else none
  | .delattr other => if other = name then some none else none
  | .writeDict other value => if other = name then some (some value) else none

/-- What a class has under a name, for an instance whose dictionary does not have it. -/
def PyType.default (type : PyType) (obj : Instance) (name : String) : Except Error Value :=
  match type.lookup name with
  | some descr =>
      match descr.tp_descr_get with
      | some f => f obj
      | none => .ok descr.value
  | none => type.getattr name

/-- What the class itself does with assignments to `other` leaves alone what the dictionary has
under `name`. -/
def PyType.Keeps (type : PyType) (other name : String) : Prop :=
  ∀ set, (type.lookup other).bind ClassAttr.tp_descr_set = some set →
    ∀ obj value obj', set obj value = .ok obj' →
      obj'.dict.isSome = obj.dict.isSome ∧ obj'.entry name = obj.entry name

/-- The class does not take the assignments to the name itself, and those that it takes leave
alone what the dictionary has under it. -/
structure PyType.Free (type : PyType) (name : String) : Prop where
  not_data : (type.lookup name).bind ClassAttr.tp_descr_set = none
  keeps : ∀ other, type.Keeps other name

theorem entry_store (obj : Instance) (hdict : obj.dict.isSome) (name other : String)
    (value : Option Value) :
  (obj.store other value).entry name = if other = name then value else obj.entry name
  := by
  obtain ⟨d, hd⟩ := Option.isSome_iff_exists.mp hdict
  simp only [Instance.entry, Instance.store, hd, Option.map_some, Option.bind_some,
    Function.update_apply, eq_comm (a := name)]

/-- A write under another name. -/
theorem store_frame (obj : Instance) {name other : String} (hne : other ≠ name)
    (value : Option Value) :
  (obj.store other value).dict.isSome = obj.dict.isSome ∧
    (obj.store other value).entry name = obj.entry name
  := by
  simp only [Instance.entry, Instance.store]
  cases obj.dict with
  | none => exact ⟨rfl, rfl⟩
  | some d => simp [hne.symm]

/-- An assignment or a deletion that the class takes. -/
theorem genericSetAttr_data {type : PyType} {name : String}
    {set : Instance → Option Value → Except Error Instance}
    (h : (type.lookup name).bind ClassAttr.tp_descr_set = some set) (obj : Instance)
    (value : Option Value) :
  genericSetAttr type obj name value = set obj value
  := by
  rw [genericSetAttr, h]

/-- An assignment or a deletion of another name that the class keeps from the name. -/
theorem genericSetAttr_frame {type : PyType} {name other : String} (h : type.Keeps other name)
    (hne : other ≠ name) (obj : Instance) (value : Option Value) :
  (exec.settle obj (genericSetAttr type obj other value)).1.dict.isSome = obj.dict.isSome ∧
    (exec.settle obj (genericSetAttr type obj other value)).1.entry name = obj.entry name
  := by
  rw [genericSetAttr]
  cases hother : (type.lookup other).bind ClassAttr.tp_descr_set with
  | some set =>
      dsimp only
      cases hset : set obj value with
      | ok obj' => exact h set hother obj value obj' hset
      | error e => exact ⟨rfl, rfl⟩
  | none =>
      dsimp only
      split_ifs
      · exact ⟨rfl, rfl⟩
      · exact store_frame obj hne value

/-- A write to the dictionary. -/
theorem writeDict_entry (type : PyType) {obj : Instance} (hdict : obj.dict.isSome)
    (name other : String) (value : Value) :
  (exec type obj (.writeDict other value)).1.dict.isSome ∧
    (exec type obj (.writeDict other value)).1.entry name
      = if other = name then some value else obj.entry name
  := by
  have hnone : ¬ obj.dict.isNone := by simpa using Option.isSome_iff_ne_none.mp hdict
  rw [exec, if_neg hnone, exec.settle]
  constructor
  · simpa [Instance.store] using hdict
  · apply entry_store obj hdict

/-- When every operation keeps an invariant and leaves in a register what `writes` tells, the
register holds after a run what was written last. -/
theorem read_run {type : PyType} {I : Instance → Prop} (read : Instance → Option Value)
    {writes : Op → Option (Option Value)}
    (hstep : ∀ obj op, I obj → I (exec type obj op).1 ∧
      read (exec type obj op).1 = (writes op).getD (read obj))
    {obj : Instance} (hobj : I obj) (ops : List Op) :
  I (run type obj ops) ∧
    read (run type obj ops) = (LatestWrite.latest writes ops).getD (read obj)
  := by
  induction ops using List.reverseRecOn with
  | nil => exact ⟨hobj, rfl⟩
  | append_singleton ops op ih =>
      obtain ⟨hobj', hread⟩ := ih
      have hlast := hstep (run type obj ops) op hobj'
      rw [run, List.foldl_append, LatestWrite.latest_concat]
      use hlast.1
      rw [List.foldl_cons, List.foldl_nil]
      refine hlast.2.trans ?_
      rw [hread]
      cases writes op <;> rfl

/-- What an assignment or a deletion leaves under a name that is no data descriptor, also when it
is rejected. -/
theorem genericSetAttr_entry {type : PyType} {name other : String}
    (hdata : (type.lookup name).bind ClassAttr.tp_descr_set = none)
    (hkeeps : type.Keeps other name) {obj : Instance} (hdict : obj.dict.isSome)
    (value : Option Value) :
  (exec.settle obj (genericSetAttr type obj other value)).1.dict.isSome ∧
    (exec.settle obj (genericSetAttr type obj other value)).1.entry name
      = if other = name then value else obj.entry name
  := by
  by_cases hname : other = name
  · have hnone : obj.dict.isNone = false := by
      rw [← Option.not_isSome, hdict]
      rfl
    rw [if_pos hname, genericSetAttr, hname, hdata]
    simp only [hnone, Bool.false_eq_true, false_or]
    split_ifs with hmissing
    · exact ⟨hdict, hmissing.2.trans hmissing.1.symm⟩
    · constructor
      · simpa [exec.settle, Instance.store] using hdict
      · rw [exec.settle, entry_store obj hdict, if_pos rfl]
  · rw [if_neg hname]
    obtain ⟨hsome, hentry⟩ := genericSetAttr_frame hkeeps hname obj value
    exact ⟨hsome.trans hdict, hentry⟩

/-- What an operation leaves under a free name. -/
theorem exec_entry {type : PyType} {name : String} (h : type.Free name) (obj : Instance) (op : Op)
    (hdict : obj.dict.isSome = true) :
  (exec type obj op).1.dict.isSome ∧
    (exec type obj op).1.entry name = (op.writes name).getD (obj.entry name)
  := by
  cases op with
  | setattr other value =>
      have hset := genericSetAttr_entry h.not_data (h.keeps other) hdict (some value)
      rw [exec, Op.writes]
      split_ifs with hname <;> simpa [hname] using hset
  | delattr other =>
      have hset := genericSetAttr_entry h.not_data (h.keeps other) hdict none
      rw [exec, Op.writes]
      split_ifs with hname <;> simpa [hname] using hset
  | writeDict other value =>
      have hwrite := writeDict_entry type hdict name other value
      rw [Op.writes]
      split_ifs with hname <;> simpa [hname] using hwrite

/-- After a run, a free name reads what was written last, and what the class has for it when
nothing was written or it was deleted. -/
theorem genericGetAttr_run {type : PyType} {name : String} (h : type.Free name) {obj : Instance}
    (hdict : obj.dict.isSome) (ops : List Op) :
  genericGetAttr type (run type obj ops) name
    = ((LatestWrite.latest (Op.writes name) ops).getD (obj.entry name)).elim
        (type.default (run type obj ops) name) .ok
  := by
  have hset := h.not_data
  rw [← (read_run (fun obj => obj.entry name) (exec_entry h) hdict ops).2, genericGetAttr,
    PyType.default]
  cases hlookup : type.lookup name with
  | none => cases (run type obj ops).entry name <;> rfl
  | some descr =>
      rw [hlookup, Option.bind_some] at hset
      simp only [hset]
      cases (run type obj ops).entry name <;> cases descr.tp_descr_get <;> rfl

/-! ### The class of the descriptor demo -/

/-- A plain class attribute. -/
def plain (value : Value) : ClassAttr where
  value := value
  tp_descr_get := none
  tp_descr_set := none

/-- A method. -/
def function (name : String) : ClassAttr where
  value := .function name
  tp_descr_get := some (fun _ => .ok (.method name))
  tp_descr_set := none

/-- `property(fget, fset)`, which has no deleter. -/
def property (fget : Instance → Except Error Value)
    (fset : Option (Instance → Value → Except Error Instance)) : ClassAttr where
  value := .descriptor "property"
  tp_descr_get := some fget
  tp_descr_set := some (fun obj value =>
    match fset, value with
    | some fset, some value => fset obj value
    | _, _ => .error .attributeError)

/-- An instance with an empty dictionary. -/
def Instance.new : Instance where
  dict := some (fun _ => none)
  slots _ := none

/-- What an operation writes under the name of `n`: an assignment writes positive numbers
only. -/
def Op.writesN : Op → Option (Option Value)
  | .setattr other (.int value) =>
      if other = "n" ∧ 0 < value then some (some (.int value)) else none
  | .writeDict other value => if other = "n" then some (some value) else none
  | _ => none

/-- `C`, whose setter of `x` assigns to `_x`. -/
def c : PyType where
  lookup
    | "x" => some (property (fun _ => .ok (.int 42))
        (some (fun obj value => .ok (obj.store "_x" (some value)))))
    | _ => none
  getattr _ := .error .attributeError

/-- What an operation on an instance of `C` writes under `_x`. -/
def Op.writesX : Op → Option (Option Value)
  | .setattr other value => if other = "x" ∨ other = "_x" then some (some value) else none
  | .delattr other => if other = "_x" then some none else none
  | .writeDict other value => if other = "_x" then some (some value) else none

theorem c_lookup_x :
  (c.lookup "x").bind ClassAttr.tp_descr_set = some (fun obj value =>
    match value with
    | some value => .ok (obj.store "_x" (some value))
    | none => .error .attributeError)
  := by
  simp only [c, property, Option.bind_some, Option.some.injEq]
  funext obj value
  cases value <;> rfl

theorem c_lookup_other {name : String} (h : name ≠ "x") :
  c.lookup name = none
  := by
  simp only [c]

/-- Only the assignments to `x` change what the dictionary has under another name, and only
under `_x`. -/
theorem c_keeps {other name : String} (h : other = "x" → name ≠ "_x") :
  c.Keeps other name
  := by
  intro set hset obj value obj' hobj
  by_cases hother : other = "x"
  · rw [hother, c_lookup_x, Option.some.injEq] at hset
    subst hset
    cases value with
    | none => cases hobj
    | some value =>
        cases hobj
        exact store_frame obj (Ne.symm (h hother)) _
  · rw [c_lookup_other hother] at hset
    cases hset

/-- All the names but `x` and `_x` are free. -/
theorem c_free {name : String} (hx : name ≠ "x") (h_x : name ≠ "_x") :
  c.Free name
  where
  not_data := by
    rw [c_lookup_other hx]
    rfl
  keeps other := c_keeps (fun _ => h_x)

/-- What an operation leaves under `_x`. -/
theorem exec_entry_x (obj : Instance) (op : Op) (hdict : obj.dict.isSome = true) :
  (exec c obj op).1.dict.isSome = true ∧
    (exec c obj op).1.entry "_x" = op.writesX.getD (obj.entry "_x")
  := by
  have hset : ∀ other value, other ≠ "x" →
      (exec.settle obj (genericSetAttr c obj other value)).1.dict.isSome = true ∧
        (exec.settle obj (genericSetAttr c obj other value)).1.entry "_x"
          = if other = "_x" then value else obj.entry "_x" := by
    intro other value hother
    exact genericSetAttr_entry rfl (c_keeps (fun h => absurd h hother)) hdict value
  cases op with
  | setattr other value =>
      by_cases hother : other = "x"
      · rw [hother, exec, genericSetAttr_data c_lookup_x, exec.settle, entry_store obj hdict]
        constructor
        · simpa [Instance.store] using hdict
        · rfl
      · have hstep := hset other (some value) hother
        rw [Op.writesX]
        simp only [hother, false_or]
        split_ifs with hname <;> simpa [hname, exec] using hstep
  | delattr other =>
      by_cases hother : other = "x"
      · rw [hother, exec, genericSetAttr_data c_lookup_x]
        exact ⟨hdict, rfl⟩
      · have hstep := hset other none hother
        rw [Op.writesX]
        split_ifs with hname <;> simpa [hname, exec] using hstep
  | writeDict other value =>
      have hwrite := writeDict_entry c hdict "_x" other value
      rw [Op.writesX]
      split_ifs with hname <;> simpa [hname] using hwrite

/-- After any assignments, deletions and writes to the dictionary of a `C`: `x` reads 42, and
`_x` reads what was last written to it or assigned to `x`; all the other names read what was
written to them. -/
theorem c_run (ops : List Op) :
  genericGetAttr c (run c Instance.new ops) "x" = .ok (.int 42) ∧
    genericGetAttr c (run c Instance.new ops) "_x"
      = (LatestWrite.latest Op.writesX ops).join.elim (.error .attributeError) .ok ∧
    ∀ name, name ≠ "x" → name ≠ "_x" →
      genericGetAttr c (run c Instance.new ops) name
        = (LatestWrite.latest (Op.writes name) ops).join.elim (.error .attributeError) .ok
  := by
  and_intros
  · rfl
  · have hread : (run c Instance.new ops).entry "_x"
        = (LatestWrite.latest Op.writesX ops).getD none := (read_run
      (fun obj => obj.entry "_x") exec_entry_x
      (show Instance.new.dict.isSome = true from rfl) ops).2
    rw [join_eq_getD, ← hread, genericGetAttr, c_lookup_other (by decide)]
    cases (run c Instance.new ops).entry "_x" <;> rfl
  · intro name hx h_x
    rw [genericGetAttr_run (c_free hx h_x) rfl, join_eq_getD, PyType.default, c_lookup_other hx]
    rfl

/-! ### Slots -/

/-- The descriptor of a slot. -/
def member (name : String) : ClassAttr where
  value := .descriptor "member"
  tp_descr_get := some (fun obj => (obj.slots name).elim (.error .attributeError) .ok)
  tp_descr_set := some (fun obj value =>
    if value = none ∧ obj.slots name = none then .error .attributeError
    else .ok { obj with slots := Function.update obj.slots name value })

/-- `WithSlots`. -/
def withSlots : PyType where
  lookup
    | "x" => some (member "x")
    | "y" => some (member "y")
    | "__slots__" => some (plain (.tuple ["x", "y"]))
    | _ => none
  getattr _ := .error .attributeError

/-- `WithSlots()`, whose `__init__` sets `x` to 1 and `y` to 2. -/
def withSlotsInstance : Instance where
  dict := none
  slots
    | "x" => some (.int 1)
    | "y" => some (.int 2)
    | _ => none

/-- What an operation writes to a slot: an instance has no dictionary that it could write. -/
def Op.writesSlot (name : String) : Op → Option (Option Value)
  | .setattr other value => if other = name then some (some value) else none
  | .delattr other => if other = name then some none else none
  | .writeDict _ _ => none

theorem withSlots_lookup {name : String} (h : name = "x" ∨ name = "y") :
  withSlots.lookup name = some (member name)
  := by
  rcases h with rfl | rfl <;> rfl

theorem withSlots_lookup_other {name : String} (h : ¬ (name = "x" ∨ name = "y")) :
  withSlots.lookup name
    = if name = "__slots__" then some (plain (.tuple ["x", "y"])) else none
  := by
  simp only [withSlots]
  split
  · exact absurd (Or.inl rfl) h
  · exact absurd (Or.inr rfl) h
  · rfl
  · rename_i hslots
    rw [if_neg hslots]

/-- An operation on a name that is no slot is rejected, and so is a write to the dictionary. -/
theorem genericSetAttr_other {obj : Instance} (hdict : obj.dict = none) {name : String}
    (h : ¬ (name = "x" ∨ name = "y")) (value : Option Value) :
  genericSetAttr withSlots obj name value = .error .attributeError
  := by
  have hset : (withSlots.lookup name).bind ClassAttr.tp_descr_set = none := by
    rw [withSlots_lookup_other h]
    split_ifs <;> rfl
  rw [genericSetAttr, hset]
  simp [hdict]

/-- An assignment to a slot or its deletion. -/
theorem genericSetAttr_slot {name : String} (h : name = "x" ∨ name = "y") (obj : Instance)
    (value : Option Value) :
  (exec.settle obj (genericSetAttr withSlots obj name value)).1
    = { obj with slots := Function.update obj.slots name value }
  := by
  have hset : (withSlots.lookup name).bind ClassAttr.tp_descr_set
      = (member name).tp_descr_set := by
    rw [withSlots_lookup h]
    rfl
  rw [genericSetAttr_data hset]
  split_ifs with hnone
  · obtain ⟨rfl, hslot⟩ := hnone
    rw [exec.settle, ← hslot, Function.update_eq_self]
  · rfl

/-- What an operation leaves in a slot. -/
theorem exec_slots {name : String} (h : name = "x" ∨ name = "y") (obj : Instance) (op : Op)
    (hdict : obj.dict = none) :
  (exec withSlots obj op).1.dict = none ∧
    (exec withSlots obj op).1.slots name = (op.writesSlot name).getD (obj.slots name)
  := by
  have hset : ∀ other value,
      (exec.settle obj (genericSetAttr withSlots obj other value)).1.dict = none ∧
        (exec.settle obj (genericSetAttr withSlots obj other value)).1.slots name
          = if other = name then value else obj.slots name := by
    intro other value
    by_cases hother : other = "x" ∨ other = "y"
    · rw [genericSetAttr_slot hother]
      use hdict
      simp only [Function.update_apply, eq_comm (a := name)]
    · have hne : other ≠ name := by
        rintro rfl
        exact hother h
      rw [genericSetAttr_other hdict hother, if_neg hne]
      exact ⟨hdict, rfl⟩
  cases op with
  | setattr other value =>
      have hstep := hset other (some value)
      rw [Op.writesSlot]
      split_ifs with hname <;> simpa [hname, exec] using hstep
  | delattr other =>
      have hstep := hset other none
      rw [Op.writesSlot]
      split_ifs with hname <;> simpa [hname, exec] using hstep
  | writeDict other value =>
      rw [exec, hdict]
      exact ⟨hdict, rfl⟩

/-- After any operations on an instance with slots: each slot reads what was last assigned to it,
1 and 2 at first, and nothing when that was deleted; of the other names none but `__slots__` can
be found, and every operation on them is rejected and changes nothing. -/
theorem withSlots_run (ops : List Op) :
  (∀ name, (name = "x" ∨ name = "y") →
    genericGetAttr withSlots (run withSlots withSlotsInstance ops) name
      = ((LatestWrite.latest (Op.writesSlot name) ops).getD (withSlotsInstance.slots name)).elim
          (.error .attributeError) .ok) ∧
    ∀ name, ¬ (name = "x" ∨ name = "y") →
      (name ≠ "__slots__" →
        genericGetAttr withSlots (run withSlots withSlotsInstance ops) name
          = .error .attributeError) ∧
      ∀ op, (op = .delattr name ∨ ∃ value, op = .setattr name value ∨ op = .writeDict name value) →
        exec withSlots (run withSlots withSlotsInstance ops) op
          = (run withSlots withSlotsInstance ops, some .attributeError)
  := by
  have hdict : (run withSlots withSlotsInstance ops).dict = none :=
    (read_run (fun obj => obj.slots "x") (exec_slots (Or.inl rfl))
      (show withSlotsInstance.dict = none from rfl) ops).1
  constructor
  · intro name hname
    have hread := (read_run (fun obj => obj.slots name) (exec_slots hname)
      (show withSlotsInstance.dict = none from rfl) ops).2
    rw [← hread, genericGetAttr, withSlots_lookup hname]
    rfl
  · intro name hname
    constructor
    · intro hslots
      rw [genericGetAttr, withSlots_lookup_other hname, if_neg hslots, Instance.entry, hdict]
      rfl
    · rintro op (rfl | ⟨value, rfl | rfl⟩)
      · rw [exec, genericSetAttr_other hdict hname]
        rfl
      · rw [exec, genericSetAttr_other hdict hname]
        rfl
      · rw [exec, hdict]
        rfl

end Attributes
