import Mathlib.Data.List.Forall2
import PythonInternals.Ceval.Programs

/-!
# The machine of the documentation

`reference` is the stack machine that the documentation describes: `LOAD_CONST` pushes the
constant with the number of its argument, and `BINARY_OP` applies the operator that its
argument selects.  The simulator is the same machine over another domain, in which a
constant is its own number and every operator is `+` (`showOpStack_eq_run`).

`tallied` runs the reference machine with a count on every value: by how much the constants
and the operators that it comes from deviate from that domain.  The values that the two
machines return are the same when the deviations add up to zero (`returned_eq_iff`).
-/

namespace Ceval

open StackMachine (Instr Domain Simulation Related)

variable {α : Type*}

/-- The constants and the operators of the documentation. -/
def documented (objOp : Operators α) (consts : List (Value α)) : Domain (Value α) where
  const k := consts[k]?
  binary o lhs rhs := binaryOp objOp o lhs rhs

/-- The constants and the operators of the simulator. -/
def simulated : Domain ℤ where
  const k := some k
  binary _ lhs rhs := some (lhs + rhs)

/-- The local variables hold the arguments. -/
def entry {V : Type*} (args : List V) : StackMachine.State V := ⟨[], fun i => args[i]?⟩

/-- The value that the program returns by the documentation. -/
def reference (objOp : Operators α) (code : Code α) (p : List Instr) (args : List ℤ) :
    Option (Value α) :=
  StackMachine.run (documented objOp code.consts) p (entry (args.map .int))

/-! ### The deviation -/

/-- The integer that a value is, or 0. -/
def Value.toInt : Value α → ℤ
  | .int n => n
  | _ => 0

/-- The documented constants and operators on values that come with a deviation.  To those
of its operands an operator adds how far its result is from their sum; the deviation of a
constant is how far it is from its number. -/
def tallied (objOp : Operators α) (consts : List (Value α)) : Domain (Value α × ℤ) where
  const k := consts[k]?.map (fun v => (v, v.toInt - k))
  binary o lhs rhs := (binaryOp objOp o lhs.1 rhs.1).map
    (fun v => (v, v.toInt - (lhs.1.toInt + rhs.1.toInt) + (lhs.2 + rhs.2)))

theorem Value.int_eq_iff {n d : ℤ} {w : Value α} (h : n = w.toInt - d) :
  Value.int n = w ↔ (∃ k, w = .int k) ∧ d = 0
  := by
  cases w with
  | none => simp
  | int k =>
      simp only [Value.toInt] at h
      simp
      omega
  | obj a => simp

/-- The deviation of the value that the program returns. -/
def deviation (objOp : Operators α) (code : Code α) (p : List Instr) (args : List ℤ) :
    Option ℤ :=
  (StackMachine.run (tallied objOp code.consts) p
    (entry (args.map (fun n => (.int n, 0))))).map Prod.snd

/-- Every constant that the program loads is its own number, and every operator is `+`. -/
structure Plain (consts : List (Value α)) (p : List Instr) : Prop where
  const : ∀ k, .const k ∈ p → consts[k]? = some (.int k)
  binary : ∀ o, .binary o ∈ p → NbOp.ofOparg o = some .add

section Simulation

variable {objOp : Operators α} {consts : List (Value α)} {p : List Instr}

theorem entry_related {ι V W : Type*} {R : V → W → Prop} (f : ι → V) (g : ι → W)
    (h : ∀ n, R (f n) (g n)) (args : List ι) :
  Related R (entry (args.map f)) (entry (args.map g))
  where
  stack := .nil
  locals := by
    intro i v hv
    obtain ⟨n, hn, rfl⟩ : ∃ n, args[i]? = some n ∧ f n = v := by
      simpa [entry] using hv
    use g n
    simp [entry, hn, h n]

/-- The deviation goes with every run of the reference machine. -/
theorem simulation_tallied :
  Simulation (fun w (x : Value α × ℤ) => x.1 = w) (documented objOp consts) (tallied objOp consts) p
  where
  const := by
    intro k _ v hv
    have hconst : consts[k]? = some v := hv
    simp [tallied, hconst]
  binary := by
    rintro o _ l r ⟨_, d⟩ ⟨_, e⟩ v rfl rfl hv
    have hbinary : binaryOp objOp o _ _ = some v := hv
    simp [tallied, hbinary]

/-- A value with its deviation is matched by the value less the deviation. -/
theorem simulation_simulated :
  Simulation (fun (x : Value α × ℤ) n => n = x.1.toInt - x.2) (tallied objOp consts) simulated p
  where
  const := by
    intro k _ v hv
    obtain ⟨w, -, rfl⟩ := Option.map_eq_some_iff.mp hv
    use k, rfl
    simp
  binary := by
    rintro o _ ⟨l, d⟩ ⟨r, e⟩ m n v rfl rfl hv
    obtain ⟨w, -, rfl⟩ := Option.map_eq_some_iff.mp hv
    use (l.toInt - d) + (r.toInt - e), rfl
    simp only
    omega

/-- For a plain program the two domains agree. -/
theorem simulation_of_plain (h : Plain consts p) :
  Simulation (fun w n => w = .int n) (documented objOp consts) simulated p
  where
  const := by
    intro k hk v hv
    use k, rfl
    have hconst : (documented objOp consts).const k = _ := h.const k hk
    rw [hv] at hconst
    apply Option.some.inj hconst
  binary := by
    rintro o ho _ _ m n v rfl rfl hv
    use m + n, rfl
    simp only [documented, binaryOp, intOp, h.binary o ho] at hv
    apply (Option.some.inj hv).symm

end Simulation

/-! ### The simulator over its domain -/

/-- The frame of the simulator holds the integers of the state. -/
structure Holds (m : Frame α) (s : StackMachine.State ℤ) : Prop where
  stack : m.stack = s.stack.map .int
  locals : ∀ i, m.locals (some i) = (s.locals i).map .int

section Simulator

variable {objOp : Operators α} {varnames : List String} {m : Frame α}
  {s s' : StackMachine.State ℤ}

theorem Holds.push (h : Holds m s) (n : ℤ) :
  Holds (m.push (.int n)) ⟨n :: s.stack, s.locals⟩
  where
  stack := by
    rw [Frame.push, h.stack]
    rfl
  locals := h.locals

/-- Assigning the integer on top of the stack to a local variable. -/
theorem Holds.assign {stack : List (Value α)} {locals : Option ℕ → Option (Value α)} {n : ℤ}
    {ints : List ℤ} {vars : ℕ → Option ℤ} (h : Holds ⟨stack, locals⟩ ⟨n :: ints, vars⟩) (i : ℕ) :
  Holds ⟨ints.map .int, Function.update locals (some i) (some (.int n))⟩
    ⟨ints, Function.update vars i (some n)⟩
  where
  stack := rfl
  locals := by
    intro j
    have hlocals := h.locals j
    simp only [Function.update_apply, Option.some.injEq] at hlocals ⊢
    split_ifs with hj
    · rfl
    · apply hlocals

/-- The simulator follows the machine, or raises because a name is missing. -/
theorem execute_of_step (h : Holds m s) {c : Instr}
    (hstep : StackMachine.step simulated c s = some s') :
  (∃ m', execute objOp varnames (dis c) m = .ok m' ∧ Holds m' s') ∨
    ∃ m', execute objOp varnames (dis c) m = .error ⟨.raised .tupleIndexOutOfRange, m'⟩
  := by
  obtain ⟨stack, locals⟩ := s
  cases c with
  | nop =>
      cases hstep
      left
      use m, execute_nop
  | load i =>
      obtain ⟨n, hn, rfl⟩ := Option.map_eq_some_iff.mp hstep
      have hget : m.get (some i) = .int n := by
        have hlocals : m.locals (some i) = (locals i).map .int := h.locals i
        rw [Frame.get, hlocals, hn]
        rfl
      rw [execute_load, loadFast_of_ne (by simp [hget]), hget]
      by_cases hname : i < varnames.length
      · left
        use m.push (.int n), Frame.printName_eq_ok.mpr ⟨hname, rfl⟩
        apply h.push
      · right
        use m.push (.int n)
        rw [Frame.printName, if_neg hname]
        rfl
  | const k =>
      cases hstep
      left
      use m.push (.int k), execute_const k
      apply h.push
  | binary o =>
      left
      obtain _ | ⟨b, _ | ⟨a, stack⟩⟩ := stack
      · cases hstep
      · cases hstep
      · cases hstep
        obtain ⟨mstack, mlocals⟩ := m
        obtain rfl : mstack = _ := h.stack
        use ⟨.int (a + b) :: stack.map .int, mlocals⟩, rfl
        constructor
        · rfl
        · apply h.locals
  | store i =>
      left
      obtain _ | ⟨n, stack⟩ := stack
      · cases hstep
      · cases hstep
        obtain ⟨mstack, mlocals⟩ := m
        obtain rfl : mstack = _ := h.stack
        use ⟨stack.map .int, Function.update mlocals (some i) (some (.int n))⟩, rfl
        apply h.assign
  | ret => cases hstep

/-- What the simulator returns is what the machine returns. -/
theorem interpret_of_run {p : List Instr} (h : Holds m s) {n : ℤ}
    (hrun : StackMachine.run simulated p s = some n) {v : Value α}
    (hv : (interpret objOp varnames (p.map dis) m).outcome = .returned v) :
  v = .int n
  := by
  induction p generalizing m s with
  | nil => cases hrun
  | cons c p ih =>
      by_cases hc : c = .ret
      · subst hc
        rw [StackMachine.run_ret] at hrun
        obtain ⟨stack, locals⟩ := s
        obtain ⟨mstack, mlocals⟩ := m
        obtain rfl : mstack = _ := h.stack
        obtain _ | ⟨n', stack⟩ := stack
        · cases hrun
        · cases hrun
          cases hv
          rfl
      · rw [StackMachine.run_cons hc] at hrun
        obtain ⟨s', hs', hrun⟩ := Option.bind_eq_some_iff.mp hrun
        rw [List.map_cons] at hv
        obtain ⟨m', hexec, hm'⟩ | ⟨m', hexec⟩ := execute_of_step h hs'
        · rw [interpret_of_ok hexec] at hv
          apply ih hm' hrun hv
        · rw [interpret_of_error hexec] at hv
          cases hv

/-- `show_op_stack` is the machine over its domain. -/
theorem showOpStack_eq_run {code : Code α} {p : List Instr} (hcode : code.instructions = p.map dis)
    {args : List ℤ} {n : ℤ} (hrun : StackMachine.run simulated p (entry args) = some n)
    {v : Value α} (hv : showOpStack objOp code (args.map .int) = some (.returned v)) :
  v = .int n
  := by
  rw [showOpStack_eq] at hv
  cases hm : setArguments code.varnames (args.map (Value.int (α := α))) with
  | error exit =>
      simp only [hm, foldlM_assign_eq_error hm] at hv
      cases hv
  | ok m =>
      obtain ⟨-, rfl⟩ := setArguments_eq_ok.mp hm
      simp only [hm, hcode] at hv
      apply interpret_of_run _ hrun (Option.some.inj hv)
      constructor
      · rfl
      · intro i
        simp [Frame.initial, entry]

end Simulator

/-- The values that `show_op_stack` and the reference machine return for a program of the six
basic instructions are the same if the program is plain; and for every program they are the
same if and only if the documented value is an integer with the deviation 0. -/
theorem returned_eq_iff {objOp : Operators α} {code : Code α} {p : List Instr}
    (hcode : code.instructions = p.map dis) {args : List ℤ} {v w : Value α}
    (hsim : showOpStack objOp code (args.map .int) = some (.returned v))
    (href : reference objOp code p args = some w) :
  (Plain code.consts p → v = w) ∧
    ∃ d, deviation objOp code p args = some d ∧ (v = w ↔ (∃ n, w = .int n) ∧ d = 0)
  := by
  constructor
  · intro hplain
    have hentry := entry_related (R := fun (w : Value α) (n : ℤ) => w = .int n) .int id
      (fun _ => rfl) args
    rw [List.map_id] at hentry
    obtain ⟨n, hn, rfl⟩ := (simulation_of_plain hplain).run hentry href
    apply showOpStack_eq_run hcode hn hsim
  · have hentry := entry_related (R := fun (w : Value α) (x : Value α × ℤ) => x.1 = w)
      .int (fun n => (.int n, 0)) (fun _ => rfl) args
    obtain ⟨⟨_, d⟩, hd, rfl⟩ := simulation_tallied.run hentry href
    have hentry' := entry_related (R := fun (x : Value α × ℤ) (n : ℤ) => n = x.1.toInt - x.2)
      (fun n => (.int n, 0)) id (fun n => (sub_zero n).symm) args
    rw [List.map_id] at hentry'
    obtain ⟨n, hn, hnd⟩ := simulation_simulated.run hentry' hd
    obtain rfl := showOpStack_eq_run hcode hn hsim
    use d
    constructor
    · rw [deviation, hd]
      rfl
    · apply Value.int_eq_iff hnd

/-- The program of `def difference(a): return a - 42`. -/
def differenceProgram : List Instr :=
  [.nop, .load 0, .const 0, .binary 10, .ret]

def differenceCode : Code Empty := ⟨["a"], [.int 42], differenceProgram.map dis⟩

/-- `difference(50)` is 8, and the simulator returns 50, the sum of 50 and the number of the
constant. -/
theorem difference_diverges :
  showOpStack noOperators differenceCode ([50].map .int) = some (.returned (.int 50)) ∧
    reference noOperators differenceCode differenceProgram [50] = some (.int 8) ∧
    (Value.int 50 : Value Empty) ≠ .int 8
  := by
  and_intros
  · rfl
  · rfl
  · decide

/-- The program of `add` in the demonstration. -/
def sumProgram : List Instr :=
  [.nop, .load 0, .load 1, .binary 0, .store 2, .load 2, .ret]

def sumCode : Code Empty := ⟨["a", "b", "c"], [], sumProgram.map dis⟩

theorem sum_agrees :
  (Plain sumCode.consts sumProgram → (Value.int 8 : Value Empty) = .int 8) ∧
    ∃ d, deviation noOperators sumCode sumProgram [3, 5] = some d ∧
      ((Value.int 8 : Value Empty) = .int 8 ↔ (∃ n, (Value.int 8 : Value Empty) = .int n) ∧ d = 0)
  := by
  apply returned_eq_iff
  · rfl
  · rfl
  · rfl

end Ceval
