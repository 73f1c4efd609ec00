import PythonInternals.Ceval.ShowOpStack
import PythonInternals.Foundation.StackMachine

/-!
# Programs

The instructions that the simulator knows, and those that only the analysis of the stack
depth does, as data: `Op.dis` gives the entry that `dis` lists for each, and `Op.pops` and
`Op.pushes` what the interpreter does to the evaluation stack by the documentation.

For the instructions that the simulator knows, an instruction that finds on the stack what
it pops, and in the local variables what it loads, leaves a stack of the documented length
(`execute_leaves`).
-/

namespace Ceval

open StackMachine (Instr)

/-- The entry of an instruction of the six basic kinds. -/
def dis : Instr → Instruction
  | .nop => ⟨"RESUME", some 0⟩
  | .load i => ⟨"LOAD_FAST", some i⟩
  | .const k => ⟨"LOAD_CONST", some k⟩
  | .binary o => ⟨"BINARY_OP", some o⟩
  | .store i => ⟨"STORE_FAST", some i⟩
  | .ret => ⟨"RETURN_VALUE", none⟩

/-- The unary operators. -/
inductive Unary where
  | negative
  | not
  | invert
  deriving DecidableEq

def Unary.opname : Unary → String
  | .negative => "UNARY_NEGATIVE"
  | .not => "UNARY_NOT"
  | .invert => "UNARY_INVERT"

/-- The instructions. -/
inductive Op where
  | basic (c : Instr)
  | loadFastLoadFast (oparg : ℕ)
  | loadGlobal (namei : ℕ)
  | unary (u : Unary)
  | call (argc : ℕ)
  deriving DecidableEq

namespace Op

/-- The entry of an instruction. -/
def dis : Op → Instruction
  | .basic c => Ceval.dis c
  | .loadFastLoadFast oparg => ⟨"LOAD_FAST_LOAD_FAST", some oparg⟩
  | .loadGlobal namei => ⟨"LOAD_GLOBAL", some namei⟩
  | .unary u => ⟨u.opname, none⟩
  | .call argc => ⟨"CALL", some argc⟩

/-- How many values the instruction pops: a call its callable, `self_or_null` and the
arguments. -/
def pops : Op → ℕ
  | .basic (.binary _) => 2
  | .basic (.store _) => 1
  | .basic .ret => 1
  | .basic _ => 0
  | .loadFastLoadFast _ => 0
  | .loadGlobal _ => 0
  | .unary _ => 1
  | .call argc => argc + 2

/-- How many values the instruction then pushes: the low bit of `namei` asks for a NULL. -/
def pushes : Op → ℕ
  | .basic (.load _) => 1
  | .basic (.const _) => 1
  | .basic (.binary _) => 1
  | .basic _ => 0
  | .loadFastLoadFast _ => 2
  | .loadGlobal namei => 1 + (namei &&& 1)
  | .unary _ => 1
  | .call _ => 1

/-- The documented effect on the depth of the evaluation stack. -/
def effect (op : Op) : ℤ := op.pushes - op.pops

/-- The simulator knows the instruction. -/
def Simulated : Op → Prop
  | .basic _ => True
  | .loadFastLoadFast _ => True
  | _ => False

/-- The local variables that the simulator decodes from a load. -/
def decodes : Op → List ℕ
  | .basic (.load i) => [i]
  | .loadFastLoadFast oparg => [oparg >>> 8, oparg &&& 0xFF]
  | _ => []

theorem Simulated.exists_eq {op : Op} (h : op.Simulated) :
  (∃ c, op = .basic c) ∨ ∃ oparg, op = .loadFastLoadFast oparg
  := by
  cases op with
  | basic c =>
      left
      use c
  | loadFastLoadFast oparg =>
      right
      use oparg
  | loadGlobal namei => cases h
  | unary u => cases h
  | call argc => cases h

end Op

variable {α : Type*} {objOp : Operators α} {varnames : List String} {m : Frame α}

/-! ### The branches of the simulator -/

theorem execute_nop :
  execute objOp varnames (dis .nop) m = .ok m
  := rfl

theorem execute_load (i : ℕ) :
  execute objOp varnames (dis (.load i)) m = loadFast varnames (some i) m
  := rfl

theorem execute_const (k : ℕ) :
  execute objOp varnames (dis (.const k)) m = .ok (m.push (.int k))
  := rfl

theorem execute_binary (o : ℕ) :
  execute objOp varnames (dis (.binary o)) m = binaryAdd objOp m
  := rfl

theorem execute_store (i : ℕ) :
  execute objOp varnames (dis (.store i)) m = storeFast (some i) m
  := rfl

theorem execute_ret :
  execute objOp varnames (dis .ret) m = returnValue m
  := rfl

theorem execute_loadFastLoadFast (oparg : ℕ) :
  execute objOp varnames (Op.loadFastLoadFast oparg).dis m =
    loadFastLoadFast varnames (some oparg) m
  := rfl

/-- `RETURN_VALUE` never goes on. -/
theorem returnValue_ne_ok (m m' : Frame α) :
  returnValue m ≠ .ok m'
  := by
  obtain ⟨_ | ⟨v, stack⟩, locals⟩ := m
  · simp [returnValue]
  · simp [returnValue]

/-! ### The stack after an instruction -/

/-- The frame after the instruction, whether the loop goes on or ends with it. -/
def frameAfter : Except (Exit α) (Frame α) → Frame α
  | .ok m => m
  | .error exit => exit.frame

/-- The exception that the instruction raises. -/
def fault : Except (Exit α) (Frame α) → Option Fault
  | .error ⟨.raised e, _⟩ => some e
  | _ => none

theorem exists_of_fault {r : Except (Exit α) (Frame α)} {e : Fault} (h : fault r = some e) :
  ∃ m, r = .error ⟨.raised e, m⟩
  := by
  obtain ⟨v | e', m⟩ | m := r
  · cases h
  · cases h
    use m
  · cases h

/-- The instruction pops from no empty stack and, unless it raises in the `+`, leaves a
stack of the length `n`. -/
structure Leaves (r : Except (Exit α) (Frame α)) (n : ℤ) : Prop where
  pop : fault r ≠ some .popFromEmptyList
  length : fault r ≠ some .operandsOfAdd → ((frameAfter r).stack.length : ℤ) = n

theorem Leaves.ok {m : Frame α} {n : ℤ} (h : (m.stack.length : ℤ) = n) :
  Leaves (.ok m) n
  where
  pop := by simp [fault]
  length _ := h

theorem Leaves.printName {n : ℤ} (h : (m.stack.length : ℤ) = n) (i : ℕ) :
  Leaves (m.printName varnames (some i)) n
  := by
  rw [Frame.printName]
  split_ifs
  · apply Leaves.ok h
  · constructor
    · simp [raise, fault]
    · intro _
      apply h

theorem Frame.pushUnlessNone_of_ne {v : Value α} (hv : v ≠ .none) :
  m.pushUnlessNone v = m.push v
  := by
  cases v with
  | none => contradiction
  | int n => rfl
  | obj a => rfl

theorem loadFast_of_ne {i : ℕ} (h : m.get (some i) ≠ .none) :
  loadFast varnames (some i) m = (m.push (m.get (some i))).printName varnames (some i)
  := by
  rw [loadFast]
  cases hv : m.get (some i) with
  | none => contradiction
  | int n => rfl
  | obj a => rfl

theorem Leaves.loadFastLoadFast {oparg : ℕ} (h₁ : m.get (some (oparg >>> 8)) ≠ .none)
    (h₂ : m.get (some (oparg &&& 0xFF)) ≠ .none) :
  Leaves (loadFastLoadFast varnames (some oparg) m) (m.stack.length + 2)
  := by
  simp only [Ceval.loadFastLoadFast, Frame.pushUnlessNone_of_ne h₁, Frame.pushUnlessNone_of_ne h₂]
  rw [Frame.printName]
  split_ifs
  · apply Leaves.printName
    simp only [Frame.push, List.length_cons]
    omega
  · constructor
    · simp [raise, fault, bind, Except.bind]
    · intro _
      simp only [raise, frameAfter, Frame.push, bind, Except.bind, List.length_cons]
      omega

theorem Leaves.binaryAdd (h : 2 ≤ m.stack.length) :
  Leaves (binaryAdd objOp m) (m.stack.length - 1)
  := by
  obtain ⟨_ | ⟨b, _ | ⟨a, stack⟩⟩, locals⟩ := m
  · simp at h
  · simp at h
  · simp only [Ceval.binaryAdd, Frame.pop, bind, Except.bind]
    cases binaryOp objOp NB_ADD a b with
    | none =>
        constructor
        · simp [raise, fault]
        · simp [raise, fault]
    | some result =>
        apply Leaves.ok
        simp [Frame.push]

theorem Leaves.storeFast {i : ℕ} (h : 1 ≤ m.stack.length) :
  Leaves (storeFast (some i) m) (m.stack.length - 1)
  := by
  obtain ⟨_ | ⟨v, stack⟩, locals⟩ := m
  · simp at h
  · apply Leaves.ok
    simp [Frame.assign]

theorem Leaves.returnValue (h : 1 ≤ m.stack.length) :
  Leaves (returnValue m) (m.stack.length - 1)
  := by
  obtain ⟨_ | ⟨v, stack⟩, locals⟩ := m
  · simp at h
  · constructor
    · simp [Ceval.returnValue, fault]
    · intro _
      simp [Ceval.returnValue, frameAfter]

/-- An instruction that finds on the stack what it pops, and values other than `None` in
the local variables that it loads, has its documented effect on the length of the stack. -/
theorem execute_leaves {op : Op} (hop : op.Simulated) (hpops : op.pops ≤ m.stack.length)
    (hloads : ∀ i ∈ op.decodes, m.get (some i) ≠ .none) :
  Leaves (execute objOp varnames op.dis m) (m.stack.length + op.effect)
  := by
  obtain ⟨c, rfl⟩ | ⟨oparg, rfl⟩ := hop.exists_eq
  · cases c with
    | nop =>
        apply Leaves.ok
        simp [Op.effect, Op.pushes, Op.pops]
    | load i =>
        have hload : m.get (some i) ≠ .none := hloads i (by simp [Op.decodes])
        rw [Op.dis, execute_load, loadFast_of_ne hload]
        apply Leaves.printName
        simp [Op.effect, Op.pushes, Op.pops, Frame.push]
    | const k =>
        apply Leaves.ok
        simp [Op.effect, Op.pushes, Op.pops, Frame.push]
    | binary o => exact Leaves.binaryAdd hpops
    | store i => exact Leaves.storeFast hpops
    | ret => exact Leaves.returnValue hpops
  · rw [execute_loadFastLoadFast]
    apply Leaves.loadFastLoadFast
    · apply hloads
      simp [Op.decodes]
    · apply hloads
      simp [Op.decodes]

end Ceval
