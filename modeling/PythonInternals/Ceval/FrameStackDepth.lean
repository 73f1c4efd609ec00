import Mathlib.Algebra.Group.Int.Defs
import Mathlib.Algebra.Order.Group.Int
import PythonInternals.Ceval.Programs
import PythonInternals.Foundation.RunningTotal

/-!
# The analysis of the stack depth

`frame_stack_depth` of `ceval_loop_demo.py` adds up an effect for each instruction, which
it finds from the first letters of `opname`, and returns the greatest total.  For the
unary operators, the calls and the globals that come with a NULL the effect is not the
documented one: `Op.drift` is the difference.

Over a program the difference adds up to `drift`, and the analysis returns the greatest of
the depths with the drift added.  `frameStackDepth_iff` says when that is the greatest
depth.
-/

namespace Ceval

/-- `s.startswith(p)`. -/
def startswith (s p : String) : Bool := p.toList.isPrefixOf s.toList

/-- The `effect` of an instruction.  A call without an argument raises. -/
def effect (inst : Instruction) : Option ℤ :=
  let opname := inst.opname
  if startswith opname "LOAD_" then
    if opname = "LOAD_FAST_LOAD_FAST" then some 2 else some 1
  else if startswith opname "STORE_" ∨ opname = "RETURN_VALUE" then some (-1)
  else if startswith opname "BINARY_" ∨ startswith opname "UNARY_" then some (-1)
  else if startswith opname "CALL" then inst.arg.map (fun arg => -((arg : ℤ) + 1) + 1)
  else some 0

variable {α : Type*}

/-- `frame_stack_depth(code)`. -/
def frameStackDepth (code : Code α) : Option ℤ :=
  (code.instructions.foldlM
    (fun (stack, max_depth) inst => do
      let effect ← effect inst
      let stack := stack + effect
      return (stack, max max_depth stack))
    ((0, 0) : ℤ × ℤ)).map Prod.snd

/-! ### The effects -/

/-- How far the effect of the analysis is above the documented one. -/
def Op.drift : Op → ℤ
  | .loadGlobal namei => -(namei &&& 1 : ℕ)
  | .unary _ => -1
  | .call _ => 1
  | _ => 0

/-- The effect that the analysis finds. -/
theorem effect_dis (op : Op) :
  Ceval.effect op.dis = some (op.effect + op.drift)
  := by
  cases op with
  | basic c =>
      cases c <;>
        simp [Ceval.effect, startswith, Op.dis, dis, Op.effect, Op.pushes, Op.pops, Op.drift]
  | loadFastLoadFast oparg =>
      simp [Ceval.effect, startswith, Op.dis, Op.effect, Op.pushes, Op.pops, Op.drift]
  | loadGlobal namei =>
      simp [Ceval.effect, startswith, Op.dis, Op.effect, Op.pushes, Op.pops, Op.drift]
  | unary u =>
      cases u <;>
        simp [Ceval.effect, startswith, Op.dis, Unary.opname, Op.effect, Op.pushes, Op.pops,
          Op.drift]
  | call argc =>
      simp only [Op.effect, Op.pushes, Op.pops, Op.drift]
      simp [Ceval.effect, startswith, Op.dis]
      omega

theorem Op.Simulated.drift {op : Op} (h : op.Simulated) :
  op.drift = 0
  := by
  obtain ⟨c, rfl⟩ | ⟨oparg, rfl⟩ := h.exists_eq
  · rfl
  · rfl

/-- The depth of the evaluation stack after `k` instructions, by the documented effects. -/
def depth (ops : List Op) (k : ℕ) : ℤ := RunningTotal.total (ops.map Op.effect) k

/-- What the analysis has added by mistake after `k` instructions: the number of calls, less
those of the unary operators and of the globals that come with a NULL. -/
def drift (ops : List Op) (k : ℕ) : ℤ := RunningTotal.total (ops.map Op.drift) k

theorem drift_eq_zero {ops : List Op} (h : ∀ op ∈ ops, op.Simulated) (k : ℕ) :
  drift ops k = 0
  := by
  rw [drift, RunningTotal.total, ← List.map_take]
  apply List.sum_eq_zero
  intro x hx
  obtain ⟨op, hop, rfl⟩ := List.mem_map.mp hx
  apply (h op (List.mem_of_mem_take hop)).drift

/-- The greatest depth that the instructions reach. -/
def maxDepth (ops : List Op) : ℤ := RunningTotal.peak (ops.map Op.effect)

theorem isGreatest_maxDepth (ops : List Op) :
  IsGreatest {d | ∃ k ≤ ops.length, d = depth ops k} (maxDepth ops)
  := by
  have hpeak := RunningTotal.isGreatest_peak (ops.map Op.effect)
  rw [List.length_map] at hpeak
  apply hpeak

/-! ### What the analysis returns -/

/-- The fold of the analysis is the pass that keeps the greatest total. -/
theorem foldlM_effect (ops : List Op) (s : ℤ × ℤ) :
  (ops.map Op.dis).foldlM
      (fun (stack, max_depth) inst => do
        let effect ← Ceval.effect inst
        let stack := stack + effect
        return (stack, max max_depth stack)) s
    = some ((ops.map (fun op => op.effect + op.drift)).foldl RunningTotal.advance s)
  := by
  induction ops generalizing s with
  | nil => rfl
  | cons op ops ih =>
      rw [List.map_cons, List.foldlM_cons, effect_dis, List.map_cons, List.foldl_cons, ← ih]
      rfl

/-- The analysis of a body that ends in `RETURN_VALUE` returns the greatest of the depths of
the body with the drift added. -/
theorem exists_frameStackDepth (varnames : List String) (consts : List (Value α))
    (body : List Op) :
  ∃ m, frameStackDepth ⟨varnames, consts, (body ++ [Op.basic .ret]).map Op.dis⟩ = some m ∧
    IsGreatest {x | ∃ k ≤ body.length, x = depth body k + drift body k} m
  := by
  use RunningTotal.peak (body.map (fun op => op.effect + op.drift))
  constructor
  · have hret : (Op.basic .ret).effect + (Op.basic .ret).drift ≤ 0 := by decide
    rw [frameStackDepth, foldlM_effect, Option.map_some, List.map_append, List.map_singleton,
      ← RunningTotal.peak_concat _ hret]
    rfl
  · have hpeak := RunningTotal.isGreatest_peak (body.map (fun op => op.effect + op.drift))
    simp only [List.length_map, RunningTotal.total_map_add] at hpeak
    apply hpeak

/-- The analysis is exact for a body of the instructions that the simulator knows. -/
theorem exists_frameStackDepth_of_simulated (varnames : List String) (consts : List (Value α))
    {body : List Op} (h : ∀ op ∈ body, op.Simulated) :
  ∃ m, frameStackDepth ⟨varnames, consts, (body ++ [Op.basic .ret]).map Op.dis⟩ = some m ∧
    IsGreatest {d | ∃ k ≤ body.length, d = depth body k} m
  := by
  obtain ⟨m, hm, hgreatest⟩ := exists_frameStackDepth varnames consts body
  use m, hm
  simpa only [drift_eq_zero h, add_zero] using hgreatest

/-- For a body that ends in `RETURN_VALUE`, `frame_stack_depth` returns the greatest depth
that the body reaches if and only if the drift never exceeds what a depth is below the
greatest one, and equals it somewhere. -/
theorem frameStackDepth_iff (varnames : List String) (consts : List (Value α))
    (body : List Op) :
  IsGreatest {d | ∃ k ≤ body.length, d = depth body k} (maxDepth body) ∧
    (frameStackDepth ⟨varnames, consts, (body ++ [Op.basic .ret]).map Op.dis⟩ =
        some (maxDepth body) ↔
      (∀ k ≤ body.length, drift body k ≤ maxDepth body - depth body k) ∧
        ∃ k ≤ body.length, drift body k = maxDepth body - depth body k)
  := by
  use isGreatest_maxDepth body
  obtain ⟨m, hm, hgreatest⟩ := exists_frameStackDepth varnames consts body
  rw [hm, Option.some.injEq]
  constructor
  · rintro rfl
    obtain ⟨⟨k, hk, hmax⟩, hupper⟩ := hgreatest
    constructor
    · intro j hj
      have hle := hupper ⟨j, hj, rfl⟩
      omega
    · use k
      constructor
      · apply hk
      · omega
  · rintro ⟨hle, k, hk, heq⟩
    apply hgreatest.unique
    constructor
    · use k
      constructor
      · apply hk
      · omega
    · rintro x ⟨j, hj, rfl⟩
      have hj := hle j hj
      omega

/-- The body of `nested_calls` of the demonstration, `len(str(42))`: both globals come with a
NULL. -/
def nestedCalls : List Op :=
  [.loadGlobal 1, .loadGlobal 3, .basic (.const 1), .call 1, .call 1]

def nestedCallsCode : Code Empty :=
  ⟨[], [.none, .int 42], (nestedCalls ++ [Op.basic .ret]).map Op.dis⟩

/-- No instruction of `nested_calls` underflows; its stack reaches the depth 5, and the
analysis returns 3. -/
theorem nestedCalls_underReported :
  (∀ k (hk : k < nestedCalls.length), (nestedCalls[k].pops : ℤ) ≤ depth nestedCalls k) ∧
    1 ≤ depth nestedCalls nestedCalls.length ∧
    IsGreatest {d | ∃ k ≤ nestedCalls.length, d = depth nestedCalls k} 5 ∧
    frameStackDepth nestedCallsCode = some 3
  := by
  and_intros
  · decide
  · decide
  · apply (isGreatest_maxDepth nestedCalls).1
  · apply (isGreatest_maxDepth nestedCalls).2
  · rfl

end Ceval
