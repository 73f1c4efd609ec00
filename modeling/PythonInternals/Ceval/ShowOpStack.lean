import Mathlib.Data.List.Basic
import Mathlib.Logic.Function.Basic
import Mathlib.Tactic.SplitIfs
import PythonInternals.Ceval.Code
import PythonInternals.Foundation.Loop

/-!
# The simulated machine

`show_op_stack` of `ceval_loop_demo.py`.  The simulator keeps a list for the evaluation
stack and a dictionary for the local variables, and goes through the instructions of a
code object with a test of `opname`.  It ends by returning a value or by an exception;
`Exit` keeps the frame in which it ends as well.

The loop goes through the instructions once each, so that it always ends
(`showOpStack_eq`), and `interpret` is the same run by recursion on the instructions
that are left.
-/

namespace Ceval

/-- The exceptions that the simulator meets. -/
inductive Fault where
  /-- `IndexError: pop from empty list` -/
  | popFromEmptyList
  /-- `IndexError: tuple index out of range` -/
  | tupleIndexOutOfRange
  /-- `TypeError: tuple indices must be integers or slices, not NoneType` -/
  | tupleIndexNone
  /-- `TypeError: unsupported operand type(s) for >>: 'NoneType' and 'int'` -/
  | shiftOfNone
  /-- What the `+` of two operands raises. -/
  | operandsOfAdd
  deriving DecidableEq

/-- How `show_op_stack` ends. -/
inductive Outcome (α : Type*) where
  | returned (v : Value α)
  | raised (e : Fault)
  deriving DecidableEq

/-- The evaluation stack, its top first, and `locals_dict`. -/
structure Frame (α : Type*) where
  stack : List (Value α)
  locals : Option ℕ → Option (Value α)

/-- How `show_op_stack` ends, and the frame in which it does. -/
structure Exit (α : Type*) where
  outcome : Outcome α
  frame : Frame α

variable {α : Type*}

/-- An exception in the frame `m`. -/
def raise {β : Type*} (e : Fault) (m : Frame α) : Except (Exit α) β := .error ⟨.raised e, m⟩

namespace Frame

/-- `stack.append(v)`. -/
def push (m : Frame α) (v : Value α) : Frame α := { m with stack := v :: m.stack }

/-- `stack.pop()`. -/
def pop (m : Frame α) : Except (Exit α) (Value α × Frame α) :=
  match m.stack with
  | [] => raise .popFromEmptyList m
  | v :: stack => .ok (v, { m with stack := stack })

/-- `locals_dict.get(key)`. -/
def get (m : Frame α) (key : Option ℕ) : Value α := (m.locals key).getD .none

/-- `locals_dict[key] = val`. -/
def assign (m : Frame α) (key : Option ℕ) (val : Value α) : Frame α :=
  { m with locals := Function.update m.locals key (some val) }

/-- `if val is not None: stack.append(val)`. -/
def pushUnlessNone (m : Frame α) : Value α → Frame α
  | .none => m
  | val => m.push val

/-- A `print` of `varnames[key]`. -/
def printName (m : Frame α) (varnames : List String) (key : Option ℕ) :
    Except (Exit α) (Frame α) :=
  match key with
  | none => raise .tupleIndexNone m
  | some i => if i < varnames.length then .ok m else raise .tupleIndexOutOfRange m

end Frame

/-! ### The instructions -/

def loadFast (varnames : List String) (arg : Option ℕ) (m : Frame α) :
    Except (Exit α) (Frame α) :=
  let val := m.get arg
  match val with
  | .none => .ok m
  | val => (m.push val).printName varnames arg

def loadFastLoadFast (varnames : List String) (arg : Option ℕ) (m : Frame α) :
    Except (Exit α) (Frame α) :=
  match arg with
  | none => raise .shiftOfNone m
  | some arg => do
      let idx1 := arg >>> 8
      let idx2 := arg &&& 0xFF
      let val1 := m.get (some idx1)
      let val2 := m.get (some idx2)
      let m := m.pushUnlessNone val1
      let m := m.pushUnlessNone val2
      let m ← m.printName varnames (some idx1)
      m.printName varnames (some idx2)

/-- `LOAD_CONST` appends the argument itself, and not the constant. -/
def loadConst (arg : Option ℕ) (m : Frame α) : Except (Exit α) (Frame α) :=
  match arg with
  | none => .ok (m.push .none)
  | some k => .ok (m.push (.int k))

/-- `BINARY_OP` adds, whatever the argument. -/
def binaryAdd (objOp : Operators α) (m : Frame α) : Except (Exit α) (Frame α) := do
  let (b, m) ← m.pop
  let (a, m) ← m.pop
  match binaryOp objOp NB_ADD a b with
  | none => raise .operandsOfAdd m
  | some result => return m.push result

def storeFast (arg : Option ℕ) (m : Frame α) : Except (Exit α) (Frame α) := do
  let (val, m) ← m.pop
  return m.assign arg val

/-- `RETURN_VALUE` leaves the loop, from an empty stack with `None`. -/
def returnValue (m : Frame α) : Except (Exit α) (Frame α) :=
  match m.stack with
  | [] => .error ⟨.returned .none, m⟩
  | result :: stack => .error ⟨.returned result, { m with stack := stack }⟩

/-- The body of the loop, up to `i += 1`. -/
def execute (objOp : Operators α) (varnames : List String) (inst : Instruction) (m : Frame α) :
    Except (Exit α) (Frame α) :=
  let opname := inst.opname
  let arg := inst.arg
  if opname = "RESUME" then .ok m
  else if opname ∈ ["LOAD_FAST", "LOAD_FAST_LOAD_FAST"] then
    if opname = "LOAD_FAST" then loadFast varnames arg m else loadFastLoadFast varnames arg m
  else if opname = "LOAD_CONST" then loadConst arg m
  else if opname = "BINARY_OP" then binaryAdd objOp m
  else if opname = "STORE_FAST" then storeFast arg m
  else if opname = "RETURN_VALUE" then returnValue m
  else .ok m

/-! ### The loop -/

/-- The state of the loop. -/
structure Position (α : Type*) where
  i : ℕ
  frame : Frame α

/-- A pass of the loop.  Past the last instruction `show_op_stack` returns `None`. -/
def pass (objOp : Operators α) (code : Code α) (s : Position α) :
    Except (Exit α) (Position α) :=
  match code.instructions[s.i]? with
  | none => .error ⟨.returned .none, s.frame⟩
  | some inst => (execute objOp code.varnames inst s.frame).map (fun m => ⟨s.i + 1, m⟩)

/-- The arguments are assigned to the local variables, in order. -/
def setArguments (varnames : List String) (args : List (Value α)) :
    Except (Exit α) (Frame α) :=
  args.zipIdx.foldlM
    (fun m (arg_val, i) => (m.assign (some i) arg_val).printName varnames (some i))
    ⟨[], fun _ => none⟩

/-- `show_op_stack(code, *args)`. -/
def showOpStack (objOp : Operators α) (code : Code α) (args : List (Value α)) :
    Option (Outcome α) :=
  match setArguments code.varnames args with
  | .error exit => some exit.outcome
  | .ok m => (Loop.run (pass objOp code) (code.instructions.length + 1) ⟨0, m⟩).map Exit.outcome

/-- The states in which `show_op_stack(code, *args)` comes to the head of its loop. -/
def Visited (objOp : Operators α) (code : Code α) (args : List (Value α)) (s : Position α) :
    Prop :=
  ∃ m, setArguments code.varnames args = .ok m ∧ Loop.Visits (pass objOp code) ⟨0, m⟩ s

/-! ### The arguments -/

/-- The frame in which the loop is entered: the arguments are the first local variables. -/
def Frame.initial (args : List (Value α)) : Frame α where
  stack := []
  locals key := key.bind (fun i => args[i]?)

theorem Frame.printName_eq_ok {m m' : Frame α} {varnames : List String} {i : ℕ} :
  m.printName varnames (some i) = .ok m' ↔ i < varnames.length ∧ m = m'
  := by
  rw [Frame.printName]
  split_ifs with h
  · simp [h]
  · simp [h, raise]

/-- The arguments after the `k`-th go over the `k`-th as all do over the others. -/
theorem locals_assign_or (m : Frame α) (v : Value α) (args : List (Value α)) (k : ℕ) :
  (fun key => (Option.bind key (fun i => if k + 1 ≤ i then args[i - (k + 1)]? else none)).or
      ((m.assign (some k) v).locals key))
    = fun key => (Option.bind key (fun i => if k ≤ i then (v :: args)[i - k]? else none)).or
      (m.locals key)
  := by
  funext key
  cases key with
  | none => simp [Frame.assign]
  | some i =>
      change (if k + 1 ≤ i then args[i - (k + 1)]? else none).or
          (Function.update m.locals (some k) (some v) (some i))
        = (if k ≤ i then (v :: args)[i - k]? else none).or (m.locals (some i))
      rcases lt_trichotomy i k with hlt | rfl | hlt
      · have hne : some i ≠ some k := by
          rw [Ne, Option.some.injEq]
          omega
        rw [if_neg (by omega), if_neg (by omega), Function.update_of_ne hne]
      · rw [if_neg (by omega), if_pos le_rfl, Nat.sub_self, Function.update_self]
        rfl
      · obtain ⟨d, rfl⟩ : ∃ d, i = k + (d + 1) := ⟨i - (k + 1), by omega⟩
        have hne : some (k + (d + 1)) ≠ some k := by
          rw [Ne, Option.some.injEq]
          omega
        have h : k + (d + 1) - (k + 1) = d := by omega
        have h' : k + (d + 1) - k = d + 1 := by omega
        rw [if_pos (by omega), if_pos (by omega), Function.update_of_ne hne, h, h',
          List.getElem?_cons_succ]

/-- The arguments from the `k`-th on are assigned to the local variables from the `k`-th on,
when these have names. -/
theorem foldlM_assign_eq_ok {varnames : List String} {args : List (Value α)} {k : ℕ}
    (hk : k ≤ varnames.length) {m m' : Frame α} :
  (args.zipIdx k).foldlM
      (fun m (arg_val, i) => (m.assign (some i) arg_val).printName varnames (some i)) m = .ok m'
    ↔ k + args.length ≤ varnames.length ∧
      m' = ⟨m.stack, fun key =>
        (key.bind (fun i => if k ≤ i then args[i - k]? else none)).or (m.locals key)⟩
  := by
  induction args generalizing k m with
  | nil =>
      have hlocals : (fun key => (Option.bind key
          (fun i => if k ≤ i then ([] : List (Value α))[i - k]? else none)).or (m.locals key))
            = m.locals := by
        funext key
        cases key <;> simp
      rw [hlocals]
      simp [hk, pure, Except.pure, eq_comm]
  | cons v args ih =>
      rw [List.zipIdx_cons, List.foldlM_cons]
      by_cases hlt : k < varnames.length
      · have hname : (m.assign (some k) v).printName varnames (some k) = .ok _ :=
          Frame.printName_eq_ok.mpr ⟨hlt, rfl⟩
        simp only [hname]
        have hrest := ih hlt (m := m.assign (some k) v)
        simp only [bind, Except.bind]
        rw [hrest, List.length_cons, locals_assign_or, Frame.assign]
        constructor <;> rintro ⟨hlength, rfl⟩ <;> exact ⟨by omega, rfl⟩
      · have hname : (m.assign (some k) v).printName varnames (some k) =
            raise .tupleIndexOutOfRange (m.assign (some k) v) := by
          rw [Frame.printName, if_neg hlt]
        simp only [hname, raise, bind, Except.bind, reduceCtorEq, false_iff, List.length_cons]
        omega

/-- An argument without a name raises. -/
theorem foldlM_assign_eq_error {varnames : List String} {args : List (Value α)} {k : ℕ}
    {m : Frame α} {exit : Exit α}
    (h : (args.zipIdx k).foldlM
      (fun m (arg_val, i) => (m.assign (some i) arg_val).printName varnames (some i)) m
        = .error exit) :
  exit.outcome = .raised .tupleIndexOutOfRange
  := by
  induction args generalizing k m with
  | nil => cases h
  | cons v args ih =>
      rw [List.zipIdx_cons, List.foldlM_cons] at h
      simp only [Frame.printName, bind, Except.bind] at h
      split_ifs at h
      · apply ih h
      · cases h
        rfl

theorem setArguments_eq_ok {varnames : List String} {args : List (Value α)} {m : Frame α} :
  setArguments varnames args = .ok m ↔ args.length ≤ varnames.length ∧ m = Frame.initial args
  := by
  rw [setArguments, foldlM_assign_eq_ok (Nat.zero_le _)]
  simp [Frame.initial]

/-! ### The run by recursion on the instructions -/

/-- The instructions that are left, executed in the frame `m`. -/
def interpret (objOp : Operators α) (varnames : List String) : List Instruction → Frame α → Exit α
  | [], m => ⟨.returned .none, m⟩
  | inst :: rest, m =>
      match execute objOp varnames inst m with
      | .ok m' => interpret objOp varnames rest m'
      | .error exit => exit

section Interpret

variable {objOp : Operators α} {varnames : List String} {inst : Instruction}
  {rest : List Instruction} {m m' : Frame α} {exit : Exit α}

theorem interpret_of_ok (h : execute objOp varnames inst m = .ok m') :
  interpret objOp varnames (inst :: rest) m = interpret objOp varnames rest m'
  := by
  rw [interpret, h]

theorem interpret_of_error (h : execute objOp varnames inst m = .error exit) :
  interpret objOp varnames (inst :: rest) m = exit
  := by
  rw [interpret, h]

/-- A run over two lists is the run over the second, where the first ends. -/
theorem interpret_append (before : List Instruction) :
  interpret objOp varnames (before ++ rest) m =
    match before.foldlM (fun m inst => execute objOp varnames inst m) m with
    | .ok m' => interpret objOp varnames rest m'
    | .error exit => exit
  := by
  induction before generalizing m with
  | nil => rfl
  | cons inst before ih =>
      rw [List.cons_append, List.foldlM_cons]
      cases h : execute objOp varnames inst m with
      | ok m' =>
          rw [interpret_of_ok h, ih]
          rfl
      | error exit =>
          rw [interpret_of_error h]
          rfl

end Interpret

section Run

variable {objOp : Operators α} {code : Code α} {args : List (Value α)}

theorem pass_of_ok {i : ℕ} (hi : i < code.instructions.length) {m m' : Frame α}
    (h : execute objOp code.varnames code.instructions[i] m = .ok m') :
  pass objOp code ⟨i, m⟩ = .ok ⟨i + 1, m'⟩
  := by
  simp only [pass, List.getElem?_eq_getElem hi, h, Except.map]

theorem pass_of_error {i : ℕ} (hi : i < code.instructions.length) {m : Frame α} {exit : Exit α}
    (h : execute objOp code.varnames code.instructions[i] m = .error exit) :
  pass objOp code ⟨i, m⟩ = .error exit
  := by
  simp only [pass, List.getElem?_eq_getElem hi, h, Except.map]

theorem pass_length (m : Frame α) :
  pass objOp code ⟨code.instructions.length, m⟩ = .error ⟨.returned .none, m⟩
  := by
  simp [pass]

/-- The loop runs the instructions that are left, once each. -/
theorem run_pass {i n : ℕ} (hi : i ≤ code.instructions.length)
    (hn : code.instructions.length - i < n) (m : Frame α) :
  Loop.run (pass objOp code) n ⟨i, m⟩ =
    some (interpret objOp code.varnames (code.instructions.drop i) m)
  := by
  induction n generalizing i m with
  | zero => omega
  | succ n ih =>
      rcases hi.eq_or_lt with rfl | hlt
      · rw [Loop.run_of_error (pass_length m), List.drop_length, interpret]
      · rw [List.drop_eq_getElem_cons hlt]
        cases h : execute objOp code.varnames code.instructions[i] m with
        | ok m' =>
            rw [interpret_of_ok h, Loop.run_of_ok (pass_of_ok hlt h), ih hlt (by omega)]
        | error exit =>
            rw [interpret_of_error h, Loop.run_of_error (pass_of_error hlt h)]

theorem run_pass_zero (m : Frame α) :
  Loop.run (pass objOp code) (code.instructions.length + 1) ⟨0, m⟩ =
    some (interpret objOp code.varnames code.instructions m)
  := by
  have hrun : Loop.run (pass objOp code) (code.instructions.length + 1) ⟨0, m⟩ = _ :=
    run_pass (Nat.zero_le _) (by omega) m
  rw [hrun, List.drop_zero]

/-- `show_op_stack` always ends. -/
theorem showOpStack_eq :
  showOpStack objOp code args =
    match setArguments code.varnames args with
    | .error exit => some exit.outcome
    | .ok m => some (interpret objOp code.varnames code.instructions m).outcome
  := by
  rw [showOpStack]
  cases setArguments code.varnames args with
  | error exit => rfl
  | ok m =>
      simp only [run_pass_zero, Option.map_some]

/-- The run is entered in the frame that the arguments give, when they all have names. -/
theorem Visited.start (h : args.length ≤ code.varnames.length) :
  Visited objOp code args ⟨0, Frame.initial args⟩
  := ⟨_, setArguments_eq_ok.mpr ⟨h, rfl⟩, Relation.ReflTransGen.refl⟩

theorem Visited.pass {s s' : Position α} (h : Visited objOp code args s)
    (hpass : pass objOp code s = .ok s') :
  Visited objOp code args s'
  := by
  obtain ⟨m, hm, hvisits⟩ := h
  exact ⟨m, hm, Relation.ReflTransGen.tail hvisits hpass⟩

/-- What holds on entering the loop and is preserved by every pass holds in every state
visited. -/
theorem Visited.invariant {I : Position α → Prop} (hstart : I ⟨0, Frame.initial args⟩)
    (hpass : ∀ s s', Visited objOp code args s → I s → Ceval.pass objOp code s = .ok s' → I s')
    {s : Position α} (h : Visited objOp code args s) :
  I s
  := by
  obtain ⟨m, hm, hvisits⟩ := h
  obtain ⟨hlength, rfl⟩ := setArguments_eq_ok.mp hm
  have hstep : ∀ s s', (Visited objOp code args s ∧ I s) → Ceval.pass objOp code s = .ok s' →
      Visited objOp code args s' ∧ I s' := by
    rintro s s' ⟨hs, hI⟩ hs'
    exact ⟨hs.pass hs', hpass s s' hs hI hs'⟩
  apply (hvisits.invariant hstep ⟨Visited.start hlength, hstart⟩).2

/-- A state that ends the loop gives the outcome. -/
theorem Visited.showOpStack {s : Position α} (h : Visited objOp code args s) {exit : Exit α}
    (hexit : Ceval.pass objOp code s = .error exit) :
  showOpStack objOp code args = some exit.outcome
  := by
  obtain ⟨m, hm, hvisits⟩ := h
  obtain ⟨n, hn⟩ := Loop.exists_run_of_visits hvisits hexit
  have hunique := Loop.run_unique hn (run_pass_zero m)
  simp only [showOpStack_eq, hm, hunique]

end Run

end Ceval
