import PythonInternals.Ceval.StackDiscipline

/-!
# The two analyses agree

A program of the instructions that the simulator knows, ending in its only `RETURN_VALUE`,
run by `show_op_stack` on integer arguments that all have names, when it loads assigned local
variables only and pops no empty stack.  All values on the stack and in the local variables are then
integers, so that every pass but the last goes round again (`execute_ints`), the states
visited have the documented depths, and the largest length of the stack is what
`frame_stack_depth` returns (`frameStackDepth_isGreatest`).
-/

namespace Ceval

variable {α : Type*} {objOp : Operators α} {varnames : List String} {m : Frame α}

/-- All values on the stack and in the local variables are integers. -/
structure Ints (m : Frame α) : Prop where
  stack : ∀ v ∈ m.stack, ∃ n, v = .int n
  locals : ∀ key v, m.locals key = some v → ∃ n, v = .int n

theorem Ints.initial (args : List ℤ) :
  Ints (Frame.initial (α := α) (args.map .int))
  where
  stack := by simp [Frame.initial]
  locals := by
    intro key v hv
    obtain ⟨i, -, hi⟩ := Option.bind_eq_some_iff.mp hv
    obtain ⟨n, -, rfl⟩ := List.mem_map.mp (List.mem_of_getElem? hi)
    use n

theorem Ints.push (hm : Ints m) (n : ℤ) :
  Ints (m.push (.int n))
  where
  stack := by simpa [Frame.push] using hm.stack
  locals := hm.locals

theorem Ints.pop {v : Value α} {stack : List (Value α)} {locals : Option ℕ → Option (Value α)}
    (hm : Ints ⟨v :: stack, locals⟩) :
  Ints ⟨stack, locals⟩
  where
  stack w hw := hm.stack w (List.mem_cons_of_mem _ hw)
  locals := hm.locals

/-- Assigning the value on top of the stack to a local variable. -/
theorem Ints.assign {v : Value α} {stack : List (Value α)}
    {locals : Option ℕ → Option (Value α)} (hm : Ints ⟨v :: stack, locals⟩) (key : Option ℕ) :
  Ints ⟨stack, Function.update locals key (some v)⟩
  where
  stack := hm.pop.stack
  locals := by
    intro key' w hw
    simp only [Function.update_apply] at hw
    split_ifs at hw with hkey
    · obtain rfl := Option.some.inj hw
      apply hm.stack v List.mem_cons_self
    · apply hm.locals key' w hw

theorem Ints.exists_get (hm : Ints m) {i : ℕ} (hi : m.locals (some i) ≠ none) :
  ∃ n, m.get (some i) = .int n
  := by
  obtain ⟨v, hv⟩ := Option.ne_none_iff_exists'.mp hi
  obtain ⟨n, rfl⟩ := hm.locals _ v hv
  use n
  rw [Frame.get, hv]
  rfl

/-- On integers an instruction other than `RETURN_VALUE` that finds what it pops and what it
loads is executed, and leaves integers. -/
theorem execute_ints {op : Op} (hop : op.Simulated) (hret : op ≠ .basic .ret) (hm : Ints m)
    (hpops : op.pops ≤ m.stack.length)
    (hloads : ∀ i ∈ op.decodes, i < varnames.length ∧ m.locals (some i) ≠ none) :
  ∃ m', execute objOp varnames op.dis m = .ok m' ∧ Ints m'
  := by
  obtain ⟨c, rfl⟩ | ⟨oparg, rfl⟩ := hop.exists_eq
  · cases c with
    | nop => exact ⟨m, rfl, hm⟩
    | load i =>
        obtain ⟨hname, hassigned⟩ := hloads i (by simp [Op.decodes])
        obtain ⟨n, hn⟩ := hm.exists_get hassigned
        use m.push (.int n)
        constructor
        · rw [Op.dis, execute_load, loadFast_of_ne (by simp [hn]), hn]
          apply Frame.printName_eq_ok.mpr ⟨hname, rfl⟩
        · apply hm.push
    | const k => exact ⟨_, rfl, hm.push k⟩
    | binary o =>
        obtain ⟨_ | ⟨b, _ | ⟨a, stack⟩⟩, locals⟩ := m
        · simp [Op.pops] at hpops
        · simp [Op.pops] at hpops
        · obtain ⟨y, rfl⟩ := hm.stack b List.mem_cons_self
          obtain ⟨x, rfl⟩ := hm.pop.stack a List.mem_cons_self
          use Frame.push ⟨stack, locals⟩ (.int (x + y)), rfl
          apply hm.pop.pop.push
    | store i =>
        obtain ⟨_ | ⟨v, stack⟩, locals⟩ := m
        · simp [Op.pops] at hpops
        · use ⟨stack, Function.update locals (some i) (some v)⟩, rfl
          apply hm.assign
    | ret => contradiction
  · obtain ⟨hname₁, hassigned₁⟩ := hloads (oparg >>> 8) (by simp [Op.decodes])
    obtain ⟨hname₂, hassigned₂⟩ := hloads (oparg &&& 0xFF) (by simp [Op.decodes])
    obtain ⟨n₁, hn₁⟩ := hm.exists_get hassigned₁
    obtain ⟨n₂, hn₂⟩ := hm.exists_get hassigned₂
    use (m.push (.int n₁)).push (.int n₂)
    constructor
    · rw [execute_loadFastLoadFast]
      simp only [loadFastLoadFast, hn₁, hn₂, Frame.pushUnlessNone]
      rw [Frame.printName_eq_ok.mpr ⟨hname₁, rfl⟩]
      apply Frame.printName_eq_ok.mpr ⟨hname₂, rfl⟩
    · apply (hm.push n₁).push

/-- An instruction other than `RETURN_VALUE` that pops no empty stack found on the stack what
it pops. -/
theorem pops_le_of_fault {op : Op} (hop : op.Simulated) (hret : op ≠ .basic .ret)
    (hfault : fault (execute objOp varnames op.dis m) ≠ some .popFromEmptyList) :
  op.pops ≤ m.stack.length
  := by
  obtain ⟨stack, locals⟩ := m
  obtain ⟨c, rfl⟩ | ⟨oparg, rfl⟩ := hop.exists_eq
  · cases c with
    | binary o =>
        obtain _ | ⟨b, _ | ⟨a, stack⟩⟩ := stack
        · exact absurd rfl hfault
        · exact absurd rfl hfault
        · simp [Op.pops]
    | store i =>
        obtain _ | ⟨v, stack⟩ := stack
        · exact absurd rfl hfault
        · simp [Op.pops]
    | ret => contradiction
    | _ => simp [Op.pops]
  · simp [Op.pops]

/-! ### The run -/

theorem depth_append {ops : List Op} (rest : List Op) {k : ℕ} (hk : k ≤ ops.length) :
  depth (ops ++ rest) k = depth ops k
  := by
  rw [depth, depth, List.map_append, RunningTotal.total_append (by simpa using hk)]

theorem Assigned.append {nargs k i : ℕ} {ops : List Op} (h : Assigned nargs ops k i)
    (rest : List Op) :
  Assigned nargs (ops ++ rest) k i
  := by
  obtain hi | ⟨j, hj, hop⟩ := h
  · left
    apply hi
  · right
    use j, hj
    obtain ⟨hlt, -⟩ := List.getElem?_eq_some_iff.mp hop
    rw [List.getElem?_append_left hlt, hop]

/-- What the states visited have in common: the position is in the body or at its end, the
stack has the documented depth, and all values are integers. -/
structure Running (nargs : ℕ) (ops : List Op) (s : Position α) : Prop where
  le_length : s.i ≤ ops.length
  inStep : InStep nargs (ops ++ [.basic .ret]) s
  ints : Ints s.frame

section Run

variable {code : Code α} {args : List ℤ} {ops : List Op}

/-- A state visited before the end of the body goes round again. -/
theorem Running.exists_pass (hcode : code.instructions = (ops ++ [Op.basic .ret]).map Op.dis)
    (hops : ∀ op ∈ ops, op.Simulated ∧ op ≠ .basic .ret)
    (hloads : ∀ k (hk : k < ops.length), ∀ i ∈ ops[k].decodes,
      i < code.varnames.length ∧ Assigned args.length ops k i)
    (hpop : showOpStack objOp code (args.map .int) ≠ some (.raised .popFromEmptyList))
    {s : Position α} (hs : Visited objOp code (args.map .int) s)
    (hrun : Running args.length ops s) (hlt : s.i < ops.length) :
  ∃ m', pass objOp code s = .ok ⟨s.i + 1, m'⟩ ∧ Running args.length ops ⟨s.i + 1, m'⟩
  := by
  obtain ⟨hop, hret⟩ := hops _ (List.getElem_mem hlt)
  have hk : s.i < (ops ++ [Op.basic .ret]).length := by
    rw [List.length_append]
    omega
  have hget : (ops ++ [Op.basic .ret])[s.i] = ops[s.i] := List.getElem_append_left hlt
  have hpass : pass objOp code s = _ := pass_of_lt hcode hk
  rw [hget] at hpass
  have hfault : fault (execute objOp code.varnames ops[s.i].dis s.frame) ≠
      some .popFromEmptyList := by
    intro hfault
    obtain ⟨m', hexec⟩ := exists_of_fault hfault
    rw [hexec] at hpass
    apply hpop (hs.showOpStack hpass)
  have hpops := pops_le_of_fault hop hret hfault
  have hassigned : ∀ i ∈ ops[s.i].decodes,
      i < code.varnames.length ∧ s.frame.locals (some i) ≠ none := by
    intro i hi
    obtain ⟨hname, hassigned⟩ := hloads s.i hlt i hi
    exact ⟨hname, hrun.inStep.assigned i (hassigned.append _)⟩
  obtain ⟨m', hexec, hints⟩ := execute_ints hop hret hrun.ints hpops hassigned
  have hleaves : Leaves (execute objOp code.varnames (ops ++ [Op.basic .ret])[s.i].dis s.frame)
      (depth (ops ++ [Op.basic .ret]) (s.i + 1)) := by
    rw [depth_succ hk, hget, ← hrun.inStep.length]
    apply execute_leaves hop hpops
    intro i hi
    obtain ⟨n, hn⟩ := hrun.ints.exists_get (hassigned i hi).2
    simp [hn]
  rw [hexec] at hpass
  use m', hpass
  constructor
  · apply hlt
  · apply hrun.inStep.pass hcode _ (fun _ => hleaves) hpass
    intro op hmem
    obtain hmem | hmem := List.mem_append.mp hmem
    · apply (hops op hmem).1
    · rw [List.mem_singleton.mp hmem]
      trivial
  · apply hints

theorem Running.start (ops : List Op) (args : List ℤ) :
  Running args.length ops (⟨0, Frame.initial (args.map .int)⟩ : Position α)
  where
  le_length := Nat.zero_le _
  inStep := by
    have hstart := InStep.start (ops ++ [.basic .ret]) (args.map (Value.int (α := α)))
    rwa [List.length_map] at hstart
  ints := Ints.initial args

/-- At the end of the body the run ends. -/
theorem not_pass_at_end (hcode : code.instructions = (ops ++ [Op.basic .ret]).map Op.dis)
    {s s' : Position α} (hi : s.i = ops.length) :
  pass objOp code s ≠ .ok s'
  := by
  intro hpass
  obtain ⟨hk, hexec, -⟩ := exists_of_pass hcode hpass
  have hret : (ops ++ [Op.basic .ret])[s.i] = .basic .ret := by
    simp [hi]
  rw [hret, Op.dis, execute_ret] at hexec
  apply returnValue_ne_ok _ _ hexec

/-- The largest length of the stack while `show_op_stack` runs is what `frame_stack_depth`
returns: for a program of the instructions that the simulator knows that ends in its only
`RETURN_VALUE`, on integer arguments that all have names, when the local variables that the
simulator decodes have names and are assigned, and no pop meets an empty stack.

An instruction takes the stack from one length to the other without exceeding both, so that
the lengths at the head of the loop are enough. -/
theorem frameStackDepth_isGreatest
    (hcode : code.instructions = (ops ++ [Op.basic .ret]).map Op.dis)
    (hops : ∀ op ∈ ops, op.Simulated ∧ op ≠ .basic .ret)
    (hargs : args.length ≤ code.varnames.length)
    (hloads : ∀ k (hk : k < ops.length), ∀ i ∈ ops[k].decodes,
      i < code.varnames.length ∧ Assigned args.length ops k i)
    (hpop : showOpStack objOp code (args.map .int) ≠ some (.raised .popFromEmptyList)) :
  ∃ m, frameStackDepth code = some m ∧
    IsGreatest {d : ℤ | ∃ s, Visited objOp code (args.map .int) s ∧ d = s.frame.stack.length} m
  := by
  have hrunning : ∀ s, Visited objOp code (args.map .int) s → Running args.length ops s := by
    intro s hs
    apply hs.invariant (Running.start ops args)
    intro t t' ht hrun hpass
    rcases hrun.le_length.eq_or_lt with hi | hlt
    · exact absurd hpass (not_pass_at_end hcode hi)
    · obtain ⟨m', hpass', hrun'⟩ := hrun.exists_pass hcode hops hloads hpop ht hlt
      rw [hpass'] at hpass
      cases hpass
      apply hrun'
  have hvisited : ∀ k ≤ ops.length, ∃ m, Visited objOp code (args.map .int) ⟨k, m⟩ := by
    intro k hk
    induction k with
    | zero => exact ⟨_, Visited.start (by simpa using hargs)⟩
    | succ k ih =>
        obtain ⟨m, hm⟩ := ih (by omega)
        obtain ⟨m', hpass, -⟩ := (hrunning _ hm).exists_pass hcode hops hloads hpop hm hk
        exact ⟨m', hm.pass hpass⟩
  have hdepth : ∀ s, Visited objOp code (args.map .int) s →
      s.i ≤ ops.length ∧ (s.frame.stack.length : ℤ) = depth ops s.i := by
    intro s hs
    have hrun := hrunning s hs
    use hrun.le_length
    rw [hrun.inStep.length, depth_append _ hrun.le_length]
  obtain ⟨varnames, consts, instructions⟩ := code
  obtain rfl : instructions = _ := hcode
  obtain ⟨m, hm, ⟨k, hk, hmax⟩, hupper⟩ :=
    exists_frameStackDepth_of_simulated varnames consts (fun op hop => (hops op hop).1)
  use m, hm
  constructor
  · obtain ⟨f, hf⟩ := hvisited k hk
    use ⟨k, f⟩, hf
    rw [hmax, (hdepth _ hf).2]
  · rintro d ⟨s, hs, rfl⟩
    obtain ⟨hi, hlength⟩ := hdepth s hs
    apply hupper ⟨s.i, hi, hlength⟩

/-- The program of `def f(*args): return 1`. -/
def starProgram : List Op :=
  [.basic .nop, .basic (.const 1)]

def starCode : Code Empty :=
  ⟨["args"], [.none, .int 1], (starProgram ++ [Op.basic .ret]).map Op.dis⟩

/-- The second argument has no name, and the simulator is left before its loop, with an empty
stack. -/
theorem starCode_depth :
  (∀ op ∈ starProgram, op.Simulated ∧ op ≠ .basic .ret)
    ∧ (∀ k (hk : k < starProgram.length), ∀ i ∈ starProgram[k].decodes,
      i < starCode.varnames.length ∧ Assigned 2 starProgram k i)
    ∧ showOpStack noOperators starCode ([1, 2].map .int) = some (.raised .tupleIndexOutOfRange)
    ∧ (∃ exit : Exit Empty, setArguments starCode.varnames ([1, 2].map .int) = .error exit
      ∧ exit.frame.stack = [])
    ∧ frameStackDepth starCode = some 1
    ∧ ¬ ∃ m, frameStackDepth starCode = some m ∧ IsGreatest
      {d : ℤ | ∃ s, Visited noOperators starCode ([1, 2].map .int) s ∧ d = s.frame.stack.length} m
  := by
  and_intros
  · simp [starProgram, Op.Simulated]
  · decide
  · rfl
  · exact ⟨_, rfl, rfl⟩
  · rfl
  · rintro ⟨m, -, ⟨s, ⟨frame, hframe, -⟩, -⟩, -⟩
    cases hframe

/-- The program of `add` in the demonstration, with its first two loads in one instruction. -/
def addProgram : List Op :=
  [.basic .nop, .loadFastLoadFast 1, .basic (.binary 0), .basic (.store 2), .basic (.load 2)]

def addCode : Code Empty :=
  ⟨["a", "b", "c"], [], (addProgram ++ [Op.basic .ret]).map Op.dis⟩

theorem addCode_depth :
  frameStackDepth addCode = some 2 ∧ ∃ m, frameStackDepth addCode = some m ∧
    IsGreatest
      {d : ℤ | ∃ s, Visited noOperators addCode ([3, 5].map .int) s ∧ d = s.frame.stack.length} m
  := by
  constructor
  · rfl
  · have hcode : addCode.instructions = (addProgram ++ [Op.basic .ret]).map Op.dis := rfl
    apply frameStackDepth_isGreatest hcode
    · simp [addProgram, Op.Simulated]
    · decide
    · decide
    · decide

end Run

end Ceval
