import Mathlib.Data.Nat.Bitwise
import PythonInternals.Ceval.Programs

/-!
# The superinstruction

`LOAD_FAST_LOAD_FAST` stands for two loads, of the local variables `i` and `j` whose numbers
are packed as `i * 16 + j` in its argument.  The simulator takes the argument apart at the
eighth bit, and so loads the variables `0` and `i * 16 + j` (`loadFastLoadFast_pack`).

Two frames with different stacks are told apart by what may follow (`exists_continuation`),
so that the two loads may stand for the superinstruction in every program exactly when both
load the same values (`expansion_iff`).
-/

namespace Ceval

variable {α : Type*} {objOp : Operators α} {varnames : List String} {m : Frame α}

/-- The argument of the superinstruction for the local variables `i` and `j`. -/
def pack (i j : ℕ) : ℕ := i * 16 + j

theorem pack_shiftRight {i j : ℕ} (hi : i < 16) (hj : j < 16) :
  pack i j >>> 8 = 0
  := by
  rw [pack, Nat.shiftRight_eq_div_pow]
  omega

theorem pack_and {i j : ℕ} (hi : i < 16) (hj : j < 16) :
  pack i j &&& 0xFF = pack i j
  := by
  have hmask : 0xFF = 2 ^ 8 - 1 := rfl
  rw [hmask, Nat.and_two_pow_sub_one_eq_mod]
  apply Nat.mod_eq_of_lt
  rw [pack]
  omega

/-! ### Loads -/

/-- What the load of a value puts on the stack. -/
def pushed : Value α → List (Value α)
  | .none => []
  | val => [val]

theorem Frame.pushUnlessNone_eq (m : Frame α) (v : Value α) :
  m.pushUnlessNone v = { m with stack := pushed v ++ m.stack }
  := by
  cases v <;> rfl

/-- What the loads of the local variables `i` and `j` put on the stack, the top first. -/
def Frame.loaded (m : Frame α) (i j : ℕ) : List (Value α) :=
  pushed (m.get (some j)) ++ pushed (m.get (some i))

/-- The frame after the loads of the local variables `i` and `j`. -/
def Frame.load (m : Frame α) (i j : ℕ) : Frame α := { m with stack := m.loaded i j ++ m.stack }

theorem loadFast_eq {i : ℕ} (hi : i < varnames.length) :
  loadFast varnames (some i) m = .ok { m with stack := pushed (m.get (some i)) ++ m.stack }
  := by
  rw [loadFast]
  cases hv : m.get (some i) with
  | none => rfl
  | int n => exact Frame.printName_eq_ok.mpr ⟨hi, rfl⟩
  | obj a => exact Frame.printName_eq_ok.mpr ⟨hi, rfl⟩

/-- The superinstruction loads the local variables `0` and `i * 16 + j`. -/
theorem loadFastLoadFast_pack {i j : ℕ} (hi : i < 16) (hj : j < 16) (hname : 0 < varnames.length) :
  loadFastLoadFast varnames (some (pack i j)) m =
    (m.load 0 (pack i j)).printName varnames (some (pack i j))
  := by
  simp only [loadFastLoadFast, pack_shiftRight hi hj, pack_and hi hj, Frame.pushUnlessNone_eq]
  rw [Frame.printName_eq_ok.mpr ⟨hname, rfl⟩]
  simp only [Frame.load, Frame.loaded, List.append_assoc]
  rfl

/-! ### Runs through a position -/

/-- The run over the instructions `before` comes to its end with the frame `m`. -/
def Reaches (objOp : Operators α) (varnames : List String) (args : List (Value α))
    (before : List Instruction) (m : Frame α) : Prop :=
  ∃ m₀, setArguments varnames args = .ok m₀ ∧
    before.foldlM (fun m inst => execute objOp varnames inst m) m₀ = .ok m

section Reaches

variable {consts args : List (Value α)} {before : List Instruction}

theorem Reaches.showOpStack (h : Reaches objOp varnames args before m) (rest : List Instruction) :
  showOpStack objOp ⟨varnames, consts, before ++ rest⟩ args =
    some (interpret objOp varnames rest m).outcome
  := by
  obtain ⟨m₀, hm₀, hbefore⟩ := h
  simp only [showOpStack_eq, hm₀, interpret_append, hbefore]

/-- A run that does not come to the end of `before` does not depend on what follows. -/
theorem showOpStack_of_not_reaches (h : ∀ m, ¬ Reaches objOp varnames args before m)
    (rest rest' : List Instruction) :
  showOpStack objOp ⟨varnames, consts, before ++ rest⟩ args =
    showOpStack objOp ⟨varnames, consts, before ++ rest'⟩ args
  := by
  simp only [showOpStack_eq, interpret_append]
  cases hm₀ : setArguments varnames args with
  | error exit => rfl
  | ok m₀ =>
      cases hbefore : before.foldlM (fun m inst => execute objOp varnames inst m) m₀ with
      | error exit => simp only [hbefore]
      | ok m => exact absurd ⟨m₀, hm₀, hbefore⟩ (h m)

end Reaches

/-- Frames with different stacks are told apart by some instructions. -/
theorem exists_continuation {m m' : Frame α} (h : m.stack ≠ m'.stack) :
  ∃ after, (interpret objOp varnames after m).outcome ≠ (interpret objOp varnames after m').outcome
  := by
  obtain ⟨stack, locals⟩ := m
  obtain ⟨stack', locals'⟩ := m'
  induction stack generalizing stack' locals locals' with
  | nil =>
      obtain _ | ⟨v', stack'⟩ := stack'
      · contradiction
      · use [dis (.store 0)]
        simp [interpret, execute_store, storeFast, Frame.pop, raise, bind, Except.bind, pure,
          Except.pure]
  | cons v stack ih =>
      obtain _ | ⟨v', stack'⟩ := stack'
      · use [dis (.store 0)]
        simp [interpret, execute_store, storeFast, Frame.pop, raise, bind, Except.bind, pure,
          Except.pure]
      · by_cases hv : v = v'
        · obtain ⟨after, hafter⟩ := ih (Function.update locals (some 0) (some v)) stack'
            (Function.update locals' (some 0) (some v')) (by simpa [hv] using h)
          use dis (.store 0) :: after
          apply hafter
        · use [dis .ret]
          simpa [interpret, execute_ret, returnValue] using hv

/-! ### The expansion -/

/-- The instructions from the position on, with the superinstruction. -/
def fused (i j : ℕ) (after : List Instruction) : List Instruction :=
  (Op.loadFastLoadFast (pack i j)).dis :: after

/-- The instructions from the position on, with the two loads in its place. -/
def expanded (i j : ℕ) (after : List Instruction) : List Instruction :=
  dis (.load i) :: dis (.load j) :: after

section Expansion

variable {i j : ℕ}

theorem interpret_expanded (hi : i < varnames.length) (hj : j < varnames.length)
    (after : List Instruction) :
  interpret objOp varnames (expanded i j after) m = interpret objOp varnames after (m.load i j)
  := by
  have hfirst : execute objOp varnames (dis (.load i)) m = _ := loadFast_eq hi
  have hsecond : execute objOp varnames (dis (.load j))
      { m with stack := pushed (m.get (some i)) ++ m.stack } = _ := loadFast_eq hj
  rw [expanded, interpret_of_ok hfirst, interpret_of_ok hsecond]
  simp only [Frame.load, Frame.loaded, List.append_assoc]
  rfl

theorem interpret_fused (hi : i < 16) (hj : j < 16) (hname : pack i j < varnames.length)
    (after : List Instruction) :
  interpret objOp varnames (fused i j after) m =
    interpret objOp varnames after (m.load 0 (pack i j))
  := by
  apply interpret_of_ok
  rw [execute_loadFastLoadFast, loadFastLoadFast_pack hi hj (by omega)]
  apply Frame.printName_eq_ok.mpr ⟨hname, rfl⟩

/-- Without a name for `i * 16 + j` the superinstruction raises. -/
theorem interpret_fused_of_le (hi : i < 16) (hj : j < 16) (hlength : 0 < varnames.length)
    (hname : varnames.length ≤ pack i j) (after : List Instruction) :
  (interpret objOp varnames (fused i j after) m).outcome = .raised .tupleIndexOutOfRange
  := by
  have hexec : execute objOp varnames (Op.loadFastLoadFast (pack i j)).dis m =
      raise .tupleIndexOutOfRange (m.load 0 (pack i j)) := by
    rw [execute_loadFastLoadFast, loadFastLoadFast_pack hi hj hlength, Frame.printName,
      if_neg (by omega)]
  rw [fused, interpret_of_error hexec]

theorem Frame.load_eq_iff {k l : ℕ} :
  m.load i j = m.load k l ↔ m.loaded i j = m.loaded k l
  := by
  rw [Frame.load, Frame.load, Frame.mk.injEq]
  simp

/-- In a frame of a run, the two loads may stand for the superinstruction, whatever follows,
exactly when they load the same values. -/
theorem interpret_fused_iff (hi : i < 16) (hj : j < 16) (hiname : i < varnames.length)
    (hjname : j < varnames.length) :
  (∀ after, (interpret objOp varnames (fused i j after) m).outcome =
      (interpret objOp varnames (expanded i j after) m).outcome)
    ↔ i = 0 ∨ (pack i j < varnames.length ∧ m.loaded 0 (pack i j) = m.loaded i j)
  := by
  by_cases hname : pack i j < varnames.length
  · simp only [interpret_fused hi hj hname, interpret_expanded hiname hjname]
    constructor
    · intro h
      right
      use hname
      by_contra hne
      have hstack : (m.load 0 (pack i j)).stack ≠ (m.load i j).stack := by
        simpa [Frame.load] using hne
      obtain ⟨after, hafter⟩ := exists_continuation hstack
      apply hafter (h after)
    · rintro (rfl | ⟨-, hloaded⟩) after
      · rw [pack, Nat.zero_mul, Nat.zero_add]
      · rw [Frame.load_eq_iff.mpr hloaded]
  · constructor
    · intro h
      have hnil := h []
      rw [interpret_fused_of_le hi hj (by omega) (by omega), interpret_expanded hiname hjname]
        at hnil
      cases hnil
    · rintro (rfl | ⟨hlt, -⟩)
      · rw [pack] at hname
        omega
      · exact absurd hlt hname

/-- Replacing the superinstruction for the local variables `i` and `j` by the two loads, at a
position of a program, leaves the outcome of `show_op_stack` unchanged, whatever follows, if
and only if the run does not come to the position, or `i` is 0, or there is a name for
`i * 16 + j` and the local variables `0` and `i * 16 + j` load the same values there as `i`
and `j`. -/
theorem expansion_iff (hi : i < 16) (hj : j < 16) (hiname : i < varnames.length)
    (hjname : j < varnames.length) (consts args : List (Value α)) (before : List Instruction) :
  (∀ after, showOpStack objOp ⟨varnames, consts, before ++ fused i j after⟩ args =
      showOpStack objOp ⟨varnames, consts, before ++ expanded i j after⟩ args)
    ↔ ∀ m, Reaches objOp varnames args before m →
        i = 0 ∨ (pack i j < varnames.length ∧ m.loaded 0 (pack i j) = m.loaded i j)
  := by
  constructor
  · intro h m hm
    apply (interpret_fused_iff hi hj hiname hjname).mp
    intro after
    have hafter := h after
    rw [hm.showOpStack, hm.showOpStack] at hafter
    apply Option.some.inj hafter
  · intro h after
    by_cases hreaches : ∃ m, Reaches objOp varnames args before m
    · obtain ⟨m, hm⟩ := hreaches
      rw [hm.showOpStack, hm.showOpStack,
        (interpret_fused_iff hi hj hiname hjname).mpr (h m hm) after]
    · apply showOpStack_of_not_reaches
      intro m hm
      apply hreaches ⟨m, hm⟩

end Expansion

/-- In `def f(a, b): return b + a` on the arguments 3 and 5, the superinstruction for `b` and
`a` raises, and the two loads return 8. -/
theorem swapped_diverges :
  showOpStack noOperators
      ⟨["a", "b"], [], fused 1 0 [dis (.binary 0), dis .ret]⟩ ([3, 5].map .int)
        = some (.raised .tupleIndexOutOfRange) ∧
    showOpStack noOperators
      ⟨["a", "b"], [], expanded 1 0 [dis (.binary 0), dis .ret]⟩ ([3, 5].map .int)
        = some (.returned (.int 8))
  := by
  constructor
  · rfl
  · rfl

theorem ordered_expansion :
  (∀ after,
      showOpStack noOperators ⟨["a", "b"], [], [dis .nop] ++ fused 0 1 after⟩ ([3, 5].map .int) =
        showOpStack noOperators ⟨["a", "b"], [], [dis .nop] ++ expanded 0 1 after⟩
          ([3, 5].map .int))
    ↔ ∀ m, Reaches noOperators ["a", "b"] ([3, 5].map .int) [dis .nop] m →
        0 = 0 ∨ (pack 0 1 < ["a", "b"].length ∧ m.loaded 0 (pack 0 1) = m.loaded 0 1)
  := by
  apply expansion_iff
  · decide
  · decide
  · decide
  · decide

end Ceval
