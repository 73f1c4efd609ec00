import Mathlib.Data.Int.Bitwise
import Mathlib.Data.Int.Notation

/-!
# Code objects

The values that the programs of `ceval_loop_demo.py` compute with, the operators that
`BINARY_OP` selects, and what the script reads of a code object: `co_varnames`,
`co_consts` and the instructions that `dis` lists.
-/

namespace Ceval

/-- `None`, the integers, and the other objects. -/
inductive Value (α : Type*) where
  | none
  | int (n : ℤ)
  | obj (a : α)
  deriving DecidableEq

/-- What the operators do where integers are not enough: their meaning on the other
objects, and the results that are no integers.  The outcome `none` is an exception. -/
abbrev Operators (α : Type*) : Type _ := ℕ → Value α → Value α → Option (Value α)

/-- Operators that raise wherever integers are not enough. -/
def noOperators : Operators Empty := fun _ _ _ => none

/-- The operators of `BINARY_OP` on integers. -/
inductive NbOp where
  | add
  | and
  | floorDivide
  | lshift
  | matrixMultiply
  | multiply
  | remainder
  | or
  | power
  | rshift
  | subtract
  | trueDivide
  | xor
  deriving DecidableEq

/-- The operator with a given number. -/
def NbOp.ofNumber : ℕ → Option NbOp
  | 0 => some .add
  | 1 => some .and
  | 2 => some .floorDivide
  | 3 => some .lshift
  | 4 => some .matrixMultiply
  | 5 => some .multiply
  | 6 => some .remainder
  | 7 => some .or
  | 8 => some .power
  | 9 => some .rshift
  | 10 => some .subtract
  | 11 => some .trueDivide
  | 12 => some .xor
  | _ => none

/-- The operator that the argument of `BINARY_OP` selects.  From 13 to 25 are the operators
in place, which agree with the others on integers. -/
def NbOp.ofOparg (oparg : ℕ) : Option NbOp :=
  if oparg < 13 then NbOp.ofNumber oparg else NbOp.ofNumber (oparg - 13)

variable {α : Type*}

/-- `BINARY_OP` on two integers. -/
def intOp (objOp : Operators α) (oparg : ℕ) (m n : ℤ) : Option (Value α) :=
  match NbOp.ofOparg oparg with
  | some .add => some (.int (m + n))
  | some .and => some (.int (Int.land m n))
  | some .floorDivide => if n = 0 then none else some (.int (m.fdiv n))
  | some .lshift => if n < 0 then none else some (.int (m * 2 ^ n.toNat))
  | some .multiply => some (.int (m * n))
  | some .remainder => if n = 0 then none else some (.int (m.fmod n))
  | some .or => some (.int (Int.lor m n))
  -- a negative exponent gives a float
  | some .power => if n < 0 then objOp oparg (.int m) (.int n) else some (.int (m ^ n.toNat))
  | some .rshift => if n < 0 then none else some (.int (m.fdiv (2 ^ n.toNat)))
  | some .subtract => some (.int (m - n))
  | some .xor => some (.int (Int.xor m n))
  | _ => objOp oparg (.int m) (.int n)

/-- `BINARY_OP`, of the left and the right operand. -/
def binaryOp (objOp : Operators α) (oparg : ℕ) : Value α → Value α → Option (Value α)
  | .int m, .int n => intOp objOp oparg m n
  | lhs, rhs => objOp oparg lhs rhs

/-- The number of `+`. -/
def NB_ADD : ℕ := 0

/-- An entry of `dis.get_instructions(code)`. -/
structure Instruction where
  opname : String
  arg : Option ℕ
  deriving DecidableEq

/-- A code object. -/
structure Code (α : Type*) where
  varnames : List String
  consts : List (Value α)
  instructions : List Instruction

end Ceval
