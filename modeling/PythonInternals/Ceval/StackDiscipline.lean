import PythonInternals.Ceval.FrameStackDepth

/-!
# The stack discipline of the simulator

A program is well formed when every load finds its local variable assigned and every
instruction finds on the stack what it pops, by the documented effects.  `InStep` is the
invariant of its run: the stack has the documented depth, and what the program has assigned
is assigned.  It is kept by every pass that loads no `None` (`InStep.leaves`, `InStep.pass`),
and lost at a load of `None`, which pushes nothing (`leaves_depth_iff`).
-/

namespace Ceval

/-- The local variable `i` is an argument, or stored to before the `k`-th instruction. -/
def Assigned (nargs : ℕ) (ops : List Op) (k i : ℕ) : Prop :=
  i < nargs ∨ ∃ j < k, ops[j]? = some (.basic (.store i))

instance (nargs : ℕ) (ops : List Op) (k i : ℕ) : Decidable (Assigned nargs ops k i) :=
  inferInstanceAs (Decidable (_ ∨ _))

/-- Every load finds its local variable assigned, and every instruction finds on the stack
what it pops. -/
structure WellFormed (nargs : ℕ) (ops : List Op) : Prop where
  assigned : ∀ k (hk : k < ops.length), ∀ i ∈ ops[k].decodes, Assigned nargs ops k i
  pops : ∀ k (hk : k < ops.length), (ops[k].pops : ℤ) ≤ depth ops k

variable {α : Type*} {objOp : Operators α} {code : Code α} {args : List (Value α)}
  {varnames : List String} {ops : List Op}

/-- What is assigned before the next instruction was assigned before this one, unless this
one stores it. -/
theorem Assigned.of_succ {nargs k i : ℕ} (h : Assigned nargs ops (k + 1) i)
    (hk : k < ops.length) (hstore : ops[k] ≠ .basic (.store i)) :
  Assigned nargs ops k i
  := by
  obtain hi | ⟨j, hj, hop⟩ := h
  · left
    apply hi
  · right
    use j
    constructor
    · apply Nat.lt_of_le_of_ne (Nat.le_of_lt_succ hj)
      rintro rfl
      rw [List.getElem?_eq_getElem hk] at hop
      apply hstore (Option.some.inj hop)
    · apply hop

/-! ### The passes over a program -/

theorem depth_zero (ops : List Op) :
  depth ops 0 = 0
  := RunningTotal.total_zero _

theorem depth_succ {k : ℕ} (hk : k < ops.length) :
  depth ops (k + 1) = depth ops k + ops[k].effect
  := by
  rw [depth, depth, RunningTotal.total_succ (by simpa using hk), List.getElem_map]

/-- A pass over an instruction of the program. -/
theorem pass_of_lt (hcode : code.instructions = ops.map Op.dis) {s : Position α}
    (hk : s.i < ops.length) :
  pass objOp code s =
    (execute objOp code.varnames ops[s.i].dis s.frame).map (fun m => ⟨s.i + 1, m⟩)
  := by
  have hinst : code.instructions[s.i]? = some ops[s.i].dis := by
    rw [hcode, List.getElem?_map, List.getElem?_eq_getElem hk]
    rfl
  simp only [pass, hinst]

/-- A pass that goes round again executes an instruction of the program. -/
theorem exists_of_pass (hcode : code.instructions = ops.map Op.dis) {s s' : Position α}
    (h : pass objOp code s = .ok s') :
  ∃ hk : s.i < ops.length,
    execute objOp code.varnames ops[s.i].dis s.frame = .ok s'.frame ∧ s'.i = s.i + 1
  := by
  by_cases hk : s.i < ops.length
  · use hk
    rw [pass_of_lt hcode hk] at h
    cases hexec : execute objOp code.varnames ops[s.i].dis s.frame with
    | ok m =>
        rw [hexec] at h
        cases h
        exact ⟨rfl, rfl⟩
    | error exit =>
        rw [hexec] at h
        cases h
  · have hinst : code.instructions[s.i]? = none := by
      rw [hcode, List.getElem?_map, List.getElem?_eq_none (by omega)]
      rfl
    simp only [pass, hinst] at h
    cases h

theorem Frame.printName_locals {m m' : Frame α} {key : Option ℕ}
    (h : m.printName varnames key = .ok m') :
  m'.locals = m.locals
  := by
  cases key with
  | none => cases h
  | some i => rw [(Frame.printName_eq_ok.mp h).2]

theorem Frame.pushUnlessNone_locals (m : Frame α) (v : Value α) :
  (m.pushUnlessNone v).locals = m.locals
  := by
  cases v <;> rfl

/-- Only `STORE_FAST` changes the local variables. -/
theorem execute_locals {op : Op} (hop : op.Simulated) {m m' : Frame α}
    (h : execute objOp varnames op.dis m = .ok m') :
  (∃ i v, op = .basic (.store i) ∧ m'.locals = Function.update m.locals (some i) (some v)) ∨
    ((∀ i, op ≠ .basic (.store i)) ∧ m'.locals = m.locals)
  := by
  obtain ⟨stack, locals⟩ := m
  obtain ⟨c, rfl⟩ | ⟨oparg, rfl⟩ := hop.exists_eq
  · cases c with
    | nop =>
        cases h
        right
        simp
    | load i =>
        right
        rw [Op.dis, execute_load, loadFast] at h
        split at h
        · cases h
          simp
        · simp [Frame.printName_locals h, Frame.push]
    | const k =>
        cases h
        right
        simp [Frame.push]
    | binary o =>
        right
        rw [Op.dis, execute_binary] at h
        obtain _ | ⟨b, _ | ⟨a, stack⟩⟩ := stack
        · cases h
        · cases h
        · simp only [binaryAdd, Frame.pop, bind, Except.bind] at h
          split at h
          · cases h
          · cases h
            simp [Frame.push]
    | store i =>
        left
        rw [Op.dis, execute_store] at h
        obtain _ | ⟨v, stack⟩ := stack
        · cases h
        · cases h
          exact ⟨i, v, rfl, rfl⟩
    | ret => exact absurd h (returnValue_ne_ok _ _)
  · right
    rw [execute_loadFastLoadFast] at h
    simp only [loadFastLoadFast, bind, Except.bind] at h
    split at h
    · cases h
    · rename_i m₁ hm₁
      simp [Frame.printName_locals h, Frame.printName_locals hm₁, Frame.pushUnlessNone_locals]

/-! ### The stack and the local variables -/

/-- The stack has the documented depth, and what the program has assigned so far is
assigned. -/
structure InStep (nargs : ℕ) (ops : List Op) (s : Position α) : Prop where
  length : (s.frame.stack.length : ℤ) = depth ops s.i
  assigned : ∀ i, Assigned nargs ops s.i i → s.frame.locals (some i) ≠ none

theorem InStep.start (ops : List Op) (args : List (Value α)) :
  InStep args.length ops ⟨0, Frame.initial args⟩
  where
  length := by
    rw [depth_zero]
    rfl
  assigned := by
    rintro i (hi | ⟨j, hj, -⟩)
    · simp [Frame.initial, hi]
    · exact absurd hj (Nat.not_lt_zero j)

/-- A pass over an instruction that leaves a stack of the documented depth keeps in step. -/
theorem InStep.pass (hcode : code.instructions = ops.map Op.dis)
    (hops : ∀ op ∈ ops, op.Simulated) {nargs : ℕ} {s s' : Position α} (hs : InStep nargs ops s)
    (hleaves : ∀ hk : s.i < ops.length,
      Leaves (execute objOp code.varnames ops[s.i].dis s.frame) (depth ops (s.i + 1)))
    (hpass : Ceval.pass objOp code s = .ok s') :
  InStep nargs ops s'
  := by
  obtain ⟨hk, hexec, hi⟩ := exists_of_pass hcode hpass
  constructor
  · have hlength := (hleaves hk).length
    rw [hexec] at hlength
    rw [hi]
    apply hlength
    simp [fault]
  · intro i hassigned
    rw [hi] at hassigned
    obtain ⟨j, v, hop, hlocals⟩ | ⟨hop, hlocals⟩ :=
      execute_locals (hops _ (List.getElem_mem hk)) hexec
    · rw [hlocals]
      by_cases hij : i = j
      · simp [hij]
      · rw [Function.update_of_ne (by simpa using hij)]
        apply hs.assigned
        apply hassigned.of_succ hk
        simpa [hop] using Ne.symm hij
    · rw [hlocals]
      apply hs.assigned
      apply hassigned.of_succ hk (hop i)

/-- A run whose instructions leave stacks of the documented depth is in step throughout. -/
theorem Visited.inStep (hcode : code.instructions = ops.map Op.dis)
    (hops : ∀ op ∈ ops, op.Simulated)
    (hleaves : ∀ s, Visited objOp code args s → InStep args.length ops s →
      ∀ hk : s.i < ops.length,
        Leaves (execute objOp code.varnames ops[s.i].dis s.frame) (depth ops (s.i + 1)))
    {s : Position α} (hs : Visited objOp code args s) :
  InStep args.length ops s
  := by
  apply hs.invariant (InStep.start ops args)
  intro t t' ht hin hpass
  apply hin.pass hcode hops (hleaves t ht hin) hpass

/-- In step, the next instruction of a well-formed program leaves a stack of the documented
depth, when none of the local variables that it loads holds `None`. -/
theorem InStep.leaves {nargs : ℕ} {s : Position α} (hs : InStep nargs ops s)
    (hp : WellFormed nargs ops) (hk : s.i < ops.length) (hop : ops[s.i].Simulated)
    (hloads : ∀ i ∈ ops[s.i].decodes, s.frame.locals (some i) ≠ some .none) :
  Leaves (execute objOp varnames ops[s.i].dis s.frame) (depth ops (s.i + 1))
  := by
  rw [depth_succ hk, ← hs.length]
  apply execute_leaves hop
  · have hpops := hp.pops s.i hk
    rw [← hs.length] at hpops
    exact_mod_cast hpops
  · intro i hi
    have hassigned := hs.assigned i (hp.assigned s.i hk i hi)
    have hnone := hloads i hi
    rw [Frame.get]
    cases hv : s.frame.locals (some i) with
    | none => exact absurd hv hassigned
    | some v =>
        rw [hv] at hnone
        simpa using hnone

/-! ### Programs of the six basic instructions -/

theorem Op.Simulated.of_basic {op : Op} (h : ∃ c, op = .basic c) :
  op.Simulated
  := by
  obtain ⟨c, rfl⟩ := h
  trivial

/-- A load of a local variable that holds `None` leaves the stack as it is. -/
theorem execute_load_none {m : Frame α} {i : ℕ} (h : m.locals (some i) = some .none) :
  execute objOp varnames (dis (.load i)) m = .ok m
  := by
  have hget : m.get (some i) = .none := by
    rw [Frame.get, h]
    rfl
  rw [execute_load, loadFast, hget]

/-- For a well-formed program of the six basic instructions, `show_op_stack` never pops an
empty stack, and has the documented depth after every instruction that does not raise in the
`+`, if and only if it never loads a local variable that holds `None`. -/
theorem leaves_depth_iff (hcode : code.instructions = ops.map Op.dis)
    (hops : ∀ op ∈ ops, ∃ c, op = .basic c) (hp : WellFormed args.length ops) :
  (∀ s, Visited objOp code args s → ∀ hk : s.i < ops.length,
      Leaves (execute objOp code.varnames ops[s.i].dis s.frame) (depth ops (s.i + 1)))
    ↔ ∀ s, Visited objOp code args s → ∀ i, ops[s.i]? = some (.basic (.load i)) →
        s.frame.locals (some i) ≠ some .none
  := by
  have hsimulated : ∀ op ∈ ops, op.Simulated := fun op hop => .of_basic (hops op hop)
  constructor
  · intro hleaves s hs i hop hnone
    have hstep : InStep args.length ops s :=
      hs.inStep hcode hsimulated (fun t ht _ => hleaves t ht)
    obtain ⟨hk, hload⟩ := List.getElem?_eq_some_iff.mp hop
    have hlength := (hleaves s hs hk).length
    rw [depth_succ hk, hload, Op.dis, execute_load_none hnone, ← hstep.length] at hlength
    simp [fault, frameAfter, Op.effect, Op.pushes, Op.pops] at hlength
  · intro hnone
    have hloads : ∀ s, Visited objOp code args s → ∀ hk : s.i < ops.length,
        ∀ i ∈ ops[s.i].decodes, s.frame.locals (some i) ≠ some .none := by
      intro s hs hk i hi
      apply hnone s hs
      obtain ⟨c, hc⟩ := hops _ (List.getElem_mem hk)
      rw [List.getElem?_eq_getElem hk, hc]
      rw [hc] at hi
      cases c with
      | load j => simpa [Op.decodes, eq_comm] using hi
      | _ => simp [Op.decodes] at hi
    have hleaves : ∀ s, Visited objOp code args s → InStep args.length ops s →
        ∀ hk : s.i < ops.length,
          Leaves (execute objOp code.varnames ops[s.i].dis s.frame) (depth ops (s.i + 1)) := by
      intro s hs hin hk
      apply hin.leaves hp hk (hsimulated _ (List.getElem_mem hk)) (hloads s hs hk)
    intro s hs
    apply hleaves s hs (hs.inStep hcode hsimulated hleaves)

/-- The program of `def f(x): y = x; return y`. -/
def copyProgram : List Op :=
  [.basic (.load 0), .basic (.store 1), .basic (.load 1), .basic .ret]

def copyCode : Code Empty := ⟨["x", "y"], [], copyProgram.map Op.dis⟩

/-- The program is well formed with one argument, and pops an empty stack when the argument
is `None`. -/
theorem copyProgram_underflows :
  WellFormed 1 copyProgram ∧
    showOpStack noOperators copyCode [.none] = some (.raised .popFromEmptyList)
  := by
  constructor
  · constructor
    · decide
    · decide
  · rfl

theorem copyProgram_of_int :
  (∀ s, Visited noOperators copyCode [.int 3] s → ∀ hk : s.i < copyProgram.length,
      Leaves (execute noOperators copyCode.varnames copyProgram[s.i].dis s.frame)
        (depth copyProgram (s.i + 1)))
    ↔ ∀ s, Visited noOperators copyCode [.int 3] s → ∀ i,
        copyProgram[s.i]? = some (.basic (.load i)) → s.frame.locals (some i) ≠ some .none
  := by
  apply leaves_depth_iff rfl
  · simp [copyProgram]
  · constructor
    · decide
    · decide

end Ceval
