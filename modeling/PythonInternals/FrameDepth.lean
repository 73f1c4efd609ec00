import Mathlib.Data.Int.Notation
import Mathlib.Order.MinMax
import Mathlib.Tactic.SplitIfs

/-!
# The depth of frames

The class `FrameDepth` of `calls_demo.py`, and the calls that it traces.  `main`, `a`, `b`
and `c` call `enter` on entry and `leave` before they return, with the calls they make in
between, so a run of them is given by its tree of calls: `exec` performs the run, and tells
for every printed line which call of the tree prints it.

Whatever the tree and the state before, the two lines of a call carry the same depth, which
is its level in the tree counted from the depth before, and the depth after the run is the
depth before it (`exec_spec`).
-/

/-- The attributes of an instance of `FrameDepth`. -/
structure FrameDepth where
  maxDepth : ℤ
  currentDepth : ℤ

namespace FrameDepth

/-- A line that `enter` or `leave` prints. -/
inductive Line where
  | enter (name : String) (depth : ℤ)
  | leave (name : String) (depth : ℤ)
  deriving DecidableEq

/-- The line as it is printed. -/
def Line.text : Line → String
  | .enter name depth => s!"  → {name} (帧深度: {depth})"
  | .leave name depth => s!"  ← {name} (帧深度: {depth})"

/-- `FrameDepth.__init__`. -/
def init : FrameDepth where
  maxDepth := 0
  currentDepth := 0

/-- `self.enter(name)`, with the line it prints. -/
def enter (self : FrameDepth) (name : String) : FrameDepth × Line :=
  let current_depth := self.currentDepth + 1
  ({ maxDepth := max self.maxDepth current_depth, currentDepth := current_depth },
    .enter name current_depth)

/-- `self.leave(name)`, with the line it prints. -/
def leave (self : FrameDepth) (name : String) : FrameDepth × Line :=
  ({ self with currentDepth := self.currentDepth - 1 }, .leave name self.currentDepth)

/-! ### Calls -/

/-- A call of the function `name`, and the calls that it makes, in order. -/
inductive CallTree where
  | call (name : String) (calls : List CallTree)

/-- A printed line, with the place in the tree of the call that prints it: the numbers of
the calls that lead to it from the root. -/
abbrev Printed : Type := List ℕ × Line

/-- What is printed inside the call number `i`. -/
def Printed.under (i : ℕ) (p : Printed) : Printed := (i :: p.1, p.2)

mutual

/-- Run a call. -/
def exec (self : FrameDepth) : CallTree → FrameDepth × List Printed
  | .call name calls =>
      let (self, entered) := self.enter name
      let (self, inner) := execAll self 0 calls
      let (self, left) := self.leave name
      (self, [([], entered)] ++ inner ++ [([], left)])

/-- Run calls one after the other, the first of them being number `i` of its caller. -/
def execAll (self : FrameDepth) (i : ℕ) : List CallTree → FrameDepth × List Printed
  | [] => (self, [])
  | t :: ts =>
      let (self, lines) := exec self t
      let (self, rest) := execAll self (i + 1) ts
      (self, lines.map (Printed.under i) ++ rest)

end

namespace CallTree

def name : CallTree → String
  | .call name _ => name

/-- The call at a place of the tree. -/
def callAt : CallTree → List ℕ → Option CallTree
  | t, [] => some t
  | .call _ calls, i :: place => calls[i]?.bind (fun t => t.callAt place)

/-- The level of a place, where the root has level 1. -/
def level (place : List ℕ) : ℕ := place.length + 1

mutual

/-- The greatest level of a call in the tree. -/
def height : CallTree → ℕ
  | .call _ calls => heightAll calls + 1

def heightAll : List CallTree → ℕ
  | [] => 0
  | t :: ts => max (height t) (heightAll ts)

end

mutual

/-- The lines of a run whose first call reports the depth `d`. -/
def lines (d : ℤ) : CallTree → List Printed
  | .call name calls => [([], .enter name d)] ++ linesAll (d + 1) 0 calls ++ [([], .leave name d)]

def linesAll (d : ℤ) (i : ℕ) : List CallTree → List Printed
  | [] => []
  | t :: ts => (lines d t).map (Printed.under i) ++ linesAll d (i + 1) ts

end

end CallTree

/-! ### Runs -/

mutual

/-- A run leaves the depth as it was, and the greatest depth grows to the height of the
tree. -/
theorem exec_eq :
    ∀ (t : CallTree) (self : FrameDepth),
      exec self t = ({ maxDepth := max self.maxDepth (self.currentDepth + t.height)
                       currentDepth := self.currentDepth }, t.lines (self.currentDepth + 1))
  | .call name calls, self => by
      have hcalls := execAll_eq calls (self.enter name).1 0 (le_max_right _ _)
      simp only [enter] at hcalls
      have hdepth : self.currentDepth + 1 - 1 = self.currentDepth := by omega
      have hmax : max (max self.maxDepth (self.currentDepth + 1))
            (self.currentDepth + 1 + CallTree.heightAll calls)
          = max self.maxDepth (self.currentDepth + (CallTree.heightAll calls + 1 : ℕ)) := by
        omega
      simp only [exec, enter, hcalls, leave, hdepth, hmax, CallTree.height, CallTree.lines]

/-- Calls made one after the other, in a state whose depth is not above its greatest
depth. -/
theorem execAll_eq :
    ∀ (ts : List CallTree) (self : FrameDepth) (i : ℕ), self.currentDepth ≤ self.maxDepth →
      execAll self i ts
        = ({ maxDepth := max self.maxDepth (self.currentDepth + CallTree.heightAll ts)
             currentDepth := self.currentDepth },
            CallTree.linesAll (self.currentDepth + 1) i ts)
  | [], self, i, hself => by
      simp [execAll, CallTree.heightAll, CallTree.linesAll, max_eq_left hself]
  | t :: ts, self, i, hself => by
      have hrest := execAll_eq ts (exec self t).1 (i + 1)
      simp only [exec_eq t self] at hrest
      have hmax : max (max self.maxDepth (self.currentDepth + t.height))
            (self.currentDepth + CallTree.heightAll ts)
          = max self.maxDepth
              (self.currentDepth + (max t.height (CallTree.heightAll ts) : ℕ)) := by
        omega
      simp only [execAll, exec_eq t self, hrest (le_max_of_le_left hself), hmax,
        CallTree.heightAll, CallTree.linesAll]

end

/-- What the call at `place` prints. -/
def printedAt (place : List ℕ) (out : List Printed) : List Line :=
  out.filterMap (fun p => if p.1 = place then some p.2 else none)

theorem printedAt_append (place : List ℕ) (out out' : List Printed) :
  printedAt place (out ++ out') = printedAt place out ++ printedAt place out'
  := List.filterMap_append

/-- What a call prints itself is not printed below it. -/
theorem printedAt_cons_self (i : ℕ) (place : List ℕ) (line : Line) :
  printedAt (i :: place) [([], line)] = []
  := by
  simp [printedAt]

/-- What is printed inside the call number `j` is printed at places below it. -/
theorem printedAt_under (j i : ℕ) (place : List ℕ) (out : List Printed) :
  printedAt (i :: place) (out.map (Printed.under j)) = if j = i then printedAt place out else []
  := by
  rw [printedAt, List.filterMap_map]
  split_ifs with h
  · simp only [printedAt, Printed.under, Function.comp_def, h, List.cons.injEq, true_and]
  · simp [Printed.under, h]

namespace CallTree

/-- Calls with numbers from `i` on print nothing at places that lead to none of them. -/
theorem printedAt_linesAll_eq_nil (d : ℤ) (place : List ℕ) (ts : List CallTree) (i : ℕ)
    (hplace : ∀ j ∈ place.head?, j < i) :
  printedAt place (linesAll d i ts) = []
  := by
  induction ts generalizing i with
  | nil => rfl
  | cons t ts ih =>
      have hrest := ih (i + 1) (fun j hj => Nat.lt_succ_of_lt (hplace j hj))
      rw [linesAll, printedAt_append, hrest, List.append_nil]
      cases place with
      | nil => simp [printedAt, Printed.under]
      | cons j place =>
          have hj : j < i := hplace j rfl
          rw [printedAt_under, if_neg (Nat.ne_of_gt hj)]

/-- Of calls with numbers from `i` on, the call number `i + j` prints what is printed below
its place. -/
theorem printedAt_linesAll (d : ℤ) (place : List ℕ) (ts : List CallTree) (i j : ℕ) :
  printedAt ((i + j) :: place) (linesAll d i ts)
    = (ts[j]?.map (fun t => printedAt place (t.lines d))).getD []
  := by
  induction ts generalizing i j with
  | nil => rfl
  | cons t ts ih =>
      rw [linesAll, printedAt_append, printedAt_under]
      cases j with
      | zero =>
          have hrest := printedAt_linesAll_eq_nil d (i :: place) ts (i + 1) (by simp)
          rw [if_pos (Nat.add_zero i).symm, Nat.add_zero, hrest, List.append_nil]
          rfl
      | succ j =>
          have hrest := ih (i + 1) j
          rw [Nat.add_right_comm, Nat.add_assoc] at hrest
          rw [if_neg (by omega), hrest, List.nil_append, List.getElem?_cons_succ]

/-- Of a run whose first call reports the depth `d`, the call at `place` prints two lines
that carry its level, counted from `d`; where the tree has no call nothing is printed. -/
theorem printedAt_lines (place : List ℕ) (t : CallTree) (d : ℤ) :
  printedAt place (t.lines d)
    = ((t.callAt place).map (fun u =>
        [Line.enter u.name (d + place.length), Line.leave u.name (d + place.length)])).getD []
  := by
  induction place generalizing t d with
  | nil =>
      obtain ⟨name, calls⟩ := t
      have hcalls := printedAt_linesAll_eq_nil (d + 1) [] calls 0 (by simp)
      rw [lines, printedAt_append, printedAt_append, hcalls]
      simp [printedAt, callAt, CallTree.name]
  | cons i place ih =>
      obtain ⟨name, calls⟩ := t
      have hcalls := printedAt_linesAll (d + 1) place calls 0 i
      rw [Nat.zero_add] at hcalls
      rw [lines, printedAt_append, printedAt_append, hcalls, callAt, printedAt_cons_self,
        printedAt_cons_self, List.nil_append, List.append_nil]
      cases calls[i]? with
      | none => rfl
      | some t =>
          have hdepth : d + 1 + (place.length : ℤ) = d + ((i :: place).length : ℕ) := by
            rw [List.length_cons]
            omega
          simp only [Option.map_some, Option.getD_some, Option.bind_some]
          rw [ih, hdepth]

end CallTree

/-- Every run of calls, from any state, leaves the depth as it was, raises the greatest depth
to what the height of the tree calls for, and prints for every call an entry and an exit
with one depth, the depth before the run plus the level of the call; nothing else is
printed. -/
theorem exec_spec (self : FrameDepth) (t : CallTree) :
  (exec self t).1.currentDepth = self.currentDepth ∧
    (exec self t).1.maxDepth = max self.maxDepth (self.currentDepth + t.height) ∧
    (∀ place u, t.callAt place = some u →
      printedAt place (exec self t).2 =
        [.enter u.name (self.currentDepth + CallTree.level place),
          .leave u.name (self.currentDepth + CallTree.level place)]) ∧
    (∀ place, t.callAt place = none → printedAt place (exec self t).2 = [])
  := by
  rw [exec_eq]
  and_intros
  · rfl
  · rfl
  · intro place u hu
    have hlevel : self.currentDepth + 1 + (place.length : ℤ)
        = self.currentDepth + CallTree.level place := by
      rw [CallTree.level]
      omega
    rw [CallTree.printedAt_lines, hu, hlevel]
    rfl
  · intro place hplace
    rw [CallTree.printedAt_lines, hplace]
    rfl

example :
  (exec init (.call "main" [.call "a" [.call "b" [.call "c" []]]])).1.maxDepth = 4
  := by
  decide

end FrameDepth
