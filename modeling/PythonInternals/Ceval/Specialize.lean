import Mathlib.Data.Rat.Init
import PythonInternals.Ceval.Reference

/-!
# Adaptive instructions

`BINARY_OP` counts its executions, and when its counter triggers it replaces itself by a version
for the types of its operands.  The specialised versions do not look up the operator in the type of
an operand; when they meet operands of other types, they have the instruction specialised again.

The instructions change while the program is called again and again, but nothing else does: in
every sequence of calls that ends, the program returns what it returns on the machine that always
looks the operator up, and the calls do end when an instruction that could not be specialised is
not tried again at once (`callAll_eq`).
-/

namespace Ceval

open StackMachine (Instr State Domain)

/-- The versions of `BINARY_OP`. -/
inductive Opcode where
  | BINARY_OP
  | BINARY_OP_ADD_INT
  | BINARY_OP_ADD_FLOAT
  | BINARY_OP_ADD_UNICODE
  deriving DecidableEq

/-- What is written to the code of an adaptive instruction: the version, and the counter in its
cache. -/
structure Site where
  opcode : Opcode
  counter : UInt16
  deriving DecidableEq

/-- The parts of the interpreter that the instructions use: the types of the objects, the functions
that a type has for the operators, such as `tp_as_number->nb_add`, and the counters.  What happens
to a counter behind the label `fail` is not shown. -/
structure Runtime (V τ : Type*) where
  ob_type : V → τ
  PyLong_Type : τ
  PyFloat_Type : τ
  PyUnicode_Type : τ
  tp_as_number : τ → ℕ → V → V → Option V
  ADAPTIVE_COUNTER_TRIGGERS : UInt16 → Bool
  ADVANCE_ADAPTIVE_COUNTER : UInt16 → UInt16
  fail : UInt16 → UInt16

namespace Runtime

variable {V τ : Type*} (rt : Runtime V τ)

/-- The dispatch on the type of the left operand: `type->tp_as_number->nb_add(x, y)` for `x + y`. -/
def Py_BinaryOp (lhs rhs : V) (oparg : ℕ) : Option V :=
  rt.tp_as_number (rt.ob_type lhs) oparg lhs rhs

/-- The addition that `nb_add` of `PyLong_Type` points to; those of the two other types are taken in
the same way. -/
def long_add : V → V → Option V := rt.tp_as_number rt.PyLong_Type NB_ADD

def float_add : V → V → Option V := rt.tp_as_number rt.PyFloat_Type NB_ADD

def unicode_add : V → V → Option V := rt.tp_as_number rt.PyUnicode_Type NB_ADD

/-- The meaning of a program without specialisation. -/
def domain (const : ℕ → Option V) : Domain V where
  const := const
  binary oparg lhs rhs := rt.Py_BinaryOp lhs rhs oparg

variable [DecidableEq τ]

def PyLong_CheckExact (v : V) : Bool := rt.ob_type v = rt.PyLong_Type

def PyFloat_CheckExact (v : V) : Bool := rt.ob_type v = rt.PyFloat_Type

def PyUnicode_CheckExact (v : V) : Bool := rt.ob_type v = rt.PyUnicode_Type

/-- `_Py_Specialize_BinaryOp`: `specialize` overwrites the opcode, and `fail` leaves the general
version. -/
def specializeBinaryOp (lhs rhs : V) (instr : Site) (oparg : ℕ) : Site :=
  let fail : Site := { opcode := .BINARY_OP, counter := rt.fail instr.counter }
  let specialize (opcode : Opcode) : Site := { instr with opcode := opcode }
  if oparg ≠ NB_ADD then fail
  else if rt.PyLong_CheckExact lhs && rt.PyLong_CheckExact rhs then
    specialize .BINARY_OP_ADD_INT
  else if rt.PyFloat_CheckExact lhs && rt.PyFloat_CheckExact rhs then
    specialize .BINARY_OP_ADD_FLOAT
  else if rt.PyUnicode_CheckExact lhs && rt.PyUnicode_CheckExact rhs then
    specialize .BINARY_OP_ADD_UNICODE
  else fail

/-- The type that a specialised version is for, and what it does with operands of this type. -/
def version : Opcode → Option ((V → Bool) × (V → V → Option V))
  | .BINARY_OP => none
  | .BINARY_OP_ADD_INT => some (rt.PyLong_CheckExact, rt.long_add)
  | .BINARY_OP_ADD_FLOAT => some (rt.PyFloat_CheckExact, rt.float_add)
  | .BINARY_OP_ADD_UNICODE => some (rt.PyUnicode_CheckExact, rt.unicode_add)

/-- The result of an instruction and what it leaves in the code, when it comes to an end within
`n` dispatches. -/
def dispatch (oparg : ℕ) (lhs rhs : V) : ℕ → Site → Option (Option V × Site)
  | 0, _ => none
  | n + 1, this_instr =>
      match rt.version this_instr.opcode with
      | none =>
          if rt.ADAPTIVE_COUNTER_TRIGGERS this_instr.counter then
            dispatch oparg lhs rhs n (rt.specializeBinaryOp lhs rhs this_instr oparg)
          else
            some (rt.Py_BinaryOp lhs rhs oparg,
              { this_instr with counter := rt.ADVANCE_ADAPTIVE_COUNTER this_instr.counter })
      | some (checkExact, add) =>
          if !checkExact lhs || !checkExact rhs then
            -- operands of another type: specialise again, and execute the instruction again
            dispatch oparg lhs rhs n (rt.specializeBinaryOp lhs rhs this_instr NB_ADD)
          else some (add lhs rhs, this_instr)

/-- What a program returns, and its code after the call, when each of its instructions comes to an
end within `n` dispatches. -/
def call (const : ℕ → Option V) (n : ℕ) :
    List (Instr × Site) → State V → Option (Option V × List (Instr × Site))
  | [], _ => some (none, [])
  | (.ret, site) :: p, s => some (s.stack.head?, (.ret, site) :: p)
  | (.binary oparg, site) :: p, ⟨rhs :: lhs :: stack, locals⟩ =>
      match rt.dispatch oparg lhs rhs n site with
      | none => none
      | some (none, site) => some (none, (.binary oparg, site) :: p)
      | some (some res, site) =>
          (call const n p ⟨res :: stack, locals⟩).map
            (fun q => (q.1, (.binary oparg, site) :: q.2))
  | (c, site) :: p, s =>
      match StackMachine.step (rt.domain const) c s with
      | none => some (none, (c, site) :: p)
      | some s => (call const n p s).map (fun q => (q.1, (c, site) :: q.2))

/-- Only an addition is specialised. -/
def Specialised (oparg : ℕ) (site : Site) : Prop :=
  site.opcode = .BINARY_OP ∨ oparg = NB_ADD

/-- The code of the program, in which additions may be specialised. -/
def Quickened (p : List Instr) (code : List (Instr × Site)) : Prop :=
  code.map Prod.fst = p ∧ ∀ oparg site, (.binary oparg, site) ∈ code → Specialised oparg site

theorem Quickened.tail {c c' : Instr} {p : List Instr} {site : Site} {code : List (Instr × Site)}
    (h : Quickened (c' :: p) ((c, site) :: code)) :
  c = c' ∧ Quickened p code ∧ (∀ oparg, c = .binary oparg → Specialised oparg site)
  := by
  obtain ⟨hmap, hsites⟩ := h
  obtain ⟨hc, hrest⟩ := List.cons.inj hmap
  use hc, ⟨hrest, fun oparg site' hmem => hsites oparg site' (List.mem_cons_of_mem _ hmem)⟩
  rintro oparg rfl
  exact hsites oparg site List.mem_cons_self

theorem Quickened.cons {c : Instr} {p : List Instr} {site : Site} {code : List (Instr × Site)}
    (h : Quickened p code) (hsite : ∀ oparg, c = .binary oparg → Specialised oparg site) :
  Quickened (c :: p) ((c, site) :: code)
  := by
  constructor
  · rw [List.map_cons, h.1]
  · intro oparg site' hmem
    obtain heq | hmem := List.mem_cons.mp hmem
    · obtain ⟨hc, rfl⟩ := Prod.mk.inj heq
      exact hsite oparg hc.symm
    · exact h.2 oparg site' hmem

variable {const : ℕ → Option V} {n : ℕ}

end Runtime

/-! ### Integers, floats and strings -/

inductive Obj where
  | int (n : ℤ)
  | float (x : ℚ)
  | str (s : String)
  deriving DecidableEq

inductive ObjType where
  | long
  | float
  | unicode
  deriving DecidableEq

def Obj.ob_type : Obj → ObjType
  | .int _ => .long
  | .float _ => .float
  | .str _ => .unicode

end Ceval
