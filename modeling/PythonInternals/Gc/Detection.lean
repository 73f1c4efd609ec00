import Mathlib.Algebra.BigOperators.Group.Finset.Basic
import Mathlib.Algebra.Order.Ring.Int
import Mathlib.Data.Int.Cast.Basic
import PythonInternals.Foundation.Loop
import PythonInternals.Foundation.Search
import PythonInternals.Gc.Heap

/-!
# The detection algorithm

The three steps of `simulate_gc_cycle_detection`, on any heap and any set of roots: the
counting pass, the pass that subtracts the references from roots, and the propagation
from the nodes whose `gc_refs` is positive.

The two passes only rewrite `gc_refs`, and the value they leave is `netRefs`
(`subtractRootRefs_initGcRefs`).  The propagation is a search of the graph of `refs`
(`propagateStep_move`), so it ends, with `reachable` the nodes that paths from its seeds
lead to (`exists_reachable`), and the bound of `propagate` is enough for it
(`propagate_spec`).
-/

namespace Gc

variable {ι : Type*} [DecidableEq ι]

/-- Assign to the attribute `gc_refs` of a node. -/
def Heap.setGcRefs (h : Heap ι) (x : ι) (k : ℤ) : Heap ι :=
  h.modify x (fun n => { n with gcRefs := k })

@[simp]
theorem Heap.gcRefs_setGcRefs (h : Heap ι) (x : ι) (k : ℤ) (y : ι) :
  (h.setGcRefs x k).gcRefs y = if y = x then k else h.gcRefs y
  := by
  simp only [gcRefs, setGcRefs, modify, Function.update_apply]
  split_ifs <;> rfl

@[simp]
theorem Heap.refBy_setGcRefs (h : Heap ι) (x : ι) (k : ℤ) (y : ι) :
  (h.setGcRefs x k).refBy y = h.refBy y
  := by
  simp only [refBy, setGcRefs, modify, Function.update_apply]
  split_ifs with hy
  · rw [hy]
  · rfl

/-- Step 1: `gc_refs` is the number of entries of `_ref_by`, for every node. -/
def initGcRefs (h : Heap ι) : Heap ι :=
  h.all.foldl (fun h node => h.setGcRefs node (h.refBy node).length) h

/-- Step 2, for an entry `ref_by` of the list `_ref_by` of a node. -/
def subtractRef (roots : Finset ι) (node : ι) (h : Heap ι) (ref_by : ι) : Heap ι :=
  if ref_by ∈ roots then h.setGcRefs node (h.gcRefs node - 1) else h

/-- Step 2, for a node: the roots keep their count. -/
def subtractNode (roots : Finset ι) (h : Heap ι) (node : ι) : Heap ι :=
  if node ∉ roots then (h.refBy node).foldl (subtractRef roots node) h else h

/-- Step 2: subtract the references from roots. -/
def subtractRootRefs (roots : Finset ι) (h : Heap ι) : Heap ι :=
  h.all.foldl (subtractNode roots) h

/-- The variables of the loop of step 3.  The end of `worklist`, from which it is popped,
is the head of the list. -/
structure Propagation (ι : Type*) where
  reachable : Finset ι
  worklist : List ι

/-- The body of the loop `while worklist` of step 3. -/
def propagateStep (h : Heap ι) : Propagation ι → Except (Finset ι) (Propagation ι)
  | ⟨reachable, []⟩ => .error reachable
  | ⟨reachable, node :: worklist⟩ =>
      if node ∈ reachable then
        .ok ⟨reachable, worklist⟩
      else
        let reachable := insert node reachable
        .ok ⟨reachable, (h.refs node).foldl
          (fun worklist ref => if ref ∉ reachable then ref :: worklist else worklist) worklist⟩

/-- The nodes that step 3 starts from. -/
def seeds (h : Heap ι) : List ι := h.all.filter (fun node => 0 < h.gcRefs node)

/-- A number of passes that is enough for the loop of step 3. -/
def propagateBound (h : Heap ι) : ℕ :=
  (h.all.map (fun x => (h.refs x).length + 1)).sum + (seeds h).length + 1

/-- Step 3: propagate from `gc_refs > 0`. -/
def propagate (h : Heap ι) : Option (Finset ι) :=
  Loop.run (propagateStep h) (propagateBound h) ⟨∅, (seeds h).reverse⟩

/-- What the algorithm has computed when it ends. -/
structure Detection (ι : Type*) where
  heap : Heap ι
  reachable : Finset ι
  unreachable : Finset ι

/-- The detection algorithm on the nodes of a heap. -/
def simulateGcCycleDetection (roots : Finset ι) (h : Heap ι) : Option (Detection ι) := do
  let h := subtractRootRefs roots (initGcRefs h)
  let reachable ← propagate h
  return ⟨h, reachable, (h.all.toFinset \ reachable) \ roots⟩

/-! ### The counting passes -/

/-- The heap with the attributes `gc_refs` given by `g`. -/
def Heap.withGcRefs (h : Heap ι) (g : ι → ℤ) : Heap ι where
  all := h.all
  node x := { h.node x with gcRefs := g x }

/-- An assignment to `gc_refs` changes the heap in `gc_refs` only. -/
@[simp]
theorem Heap.setGcRefs_withGcRefs (h : Heap ι) (g : ι → ℤ) (x : ι) (k : ℤ) :
  (h.withGcRefs g).setGcRefs x k = h.withGcRefs (Function.update g x k)
  := by
  simp only [setGcRefs, modify, withGcRefs, mk.injEq, true_and]
  funext y
  simp only [Function.update_apply]
  split_ifs with hy
  · rw [hy]
  · rfl

/-- The counting pass over some of the nodes. -/
theorem foldl_initGcRefs (h : Heap ι) (g : ι → ℤ) (nodes : List ι) :
  nodes.foldl (fun h node => h.setGcRefs node (h.refBy node).length) (h.withGcRefs g)
    = h.withGcRefs (fun x => if x ∈ nodes then ((h.refBy x).length : ℤ) else g x)
  := by
  induction nodes generalizing g with
  | nil => simp
  | cons node nodes ih =>
      rw [List.foldl_cons, Heap.setGcRefs_withGcRefs, ih]
      congr 1
      funext x
      by_cases hx : x = node
      · subst hx
        simp [Heap.withGcRefs, Heap.refBy]
      · simp [hx]

theorem initGcRefs_eq (h : Heap ι) :
  initGcRefs h = h.withGcRefs (fun x => if x ∈ h.all then ((h.refBy x).length : ℤ) else h.gcRefs x)
  := foldl_initGcRefs h h.gcRefs h.all

/-- Subtracting at a node takes off one for each of the given referrers that is a root. -/
theorem foldl_subtractRef (roots : Finset ι) (node : ι) (h : Heap ι) (g : ι → ℤ)
    (referrers : List ι) :
  referrers.foldl (subtractRef roots node) (h.withGcRefs g)
    = h.withGcRefs (Function.update g node (g node - referrers.countP (· ∈ roots)))
  := by
  induction referrers generalizing g with
  | nil => simp
  | cons r referrers ih =>
      rw [List.foldl_cons, subtractRef]
      by_cases hr : r ∈ roots
      · rw [if_pos hr, Heap.setGcRefs_withGcRefs, ih]
        congr 1
        simp only [Function.update_self, Function.update_idem, List.countP_cons, hr, decide_true,
          if_true, Nat.cast_add, Nat.cast_one, Heap.gcRefs, Heap.withGcRefs]
        congr 1
        omega
      · rw [if_neg hr, ih]
        simp [hr]

/-- What the subtracting pass does at a node. -/
theorem subtractNode_eq (roots : Finset ι) (h : Heap ι) (node : ι) :
  subtractNode roots h node = if node ∈ roots then h
    else h.setGcRefs node (h.gcRefs node - (h.refBy node).countP (· ∈ roots))
  := by
  rw [subtractNode]
  split_ifs with hroot
  · rfl
  · apply Eq.trans (foldl_subtractRef roots node h h.gcRefs (h.refBy node))
    rw [← Heap.setGcRefs_withGcRefs]
    rfl

/-- The subtracting pass over some of the nodes, each met once. -/
theorem foldl_subtractNode (roots : Finset ι) (h : Heap ι) (g : ι → ℤ) {nodes : List ι}
    (hnodes : nodes.Nodup) :
  nodes.foldl (subtractNode roots) (h.withGcRefs g)
    = h.withGcRefs (fun x =>
        if x ∈ nodes ∧ x ∉ roots then g x - (h.refBy x).countP (· ∈ roots) else g x)
  := by
  induction nodes generalizing g with
  | nil => simp
  | cons node nodes ih =>
      obtain ⟨hnode, hnodes⟩ := List.nodup_cons.mp hnodes
      rw [List.foldl_cons, subtractNode_eq]
      split_ifs with hroot
      · rw [ih _ hnodes]
        congr 1
        funext x
        by_cases hx : x = node
        · simp [hx, hroot]
        · simp [hx]
      · rw [Heap.setGcRefs_withGcRefs, ih _ hnodes]
        congr 1
        funext x
        by_cases hx : x = node
        · subst hx
          simp only [hnode, hroot, false_and, if_false, List.mem_cons_self, not_false_eq_true,
            and_self, if_true, Function.update_self]
          rfl
        · simp [hx]

/-- What the two passes count for a node: the entries of `_ref_by`, and for a node that
is not a root only those that are not roots. -/
def netRefs (roots : Finset ι) (h : Heap ι) (x : ι) : ℕ :=
  if x ∈ roots then (h.refBy x).length else (h.refBy x).countP (· ∉ roots)

/-- The attributes `gc_refs` after the two passes. -/
def netGcRefs (roots : Finset ι) (h : Heap ι) (x : ι) : ℤ :=
  if x ∈ h.all then netRefs roots h x else h.gcRefs x

/-- After the two passes, `gc_refs` is `netRefs` for every node, and nothing else has
changed. -/
theorem subtractRootRefs_initGcRefs (roots : Finset ι) {h : Heap ι} (hwf : h.WellFormed) :
  subtractRootRefs roots (initGcRefs h) = h.withGcRefs (netGcRefs roots h)
  := by
  rw [initGcRefs_eq, subtractRootRefs]
  apply Eq.trans (foldl_subtractNode roots h _ hwf.nodup)
  congr 1
  funext x
  rw [netGcRefs]
  by_cases hx : x ∈ h.all
  · by_cases hroot : x ∈ roots
    · simp [hx, hroot, netRefs]
    · have hlength := List.length_eq_countP_add_countP (· ∈ roots) (l := h.refBy x)
      simp only [hx, hroot, netRefs, not_false_eq_true, and_self, if_true, if_false,
        decide_not, decide_eq_true_eq] at hlength ⊢
      omega
  · simp [hx]

omit [DecidableEq ι] in
theorem Heap.WellFormed.withGcRefs [DecidableEq ι] {h : Heap ι} (hwf : h.WellFormed)
    (g : ι → ℤ) :
  (h.withGcRefs g).WellFormed
  := ⟨hwf.nodup, hwf.refs_mem, hwf.count_refs⟩

/-! ### The propagation -/

/-- The propagation as a search: the order of the worklist is forgotten. -/
def Propagation.toSearch (s : Propagation ι) : Search.State ι :=
  ⟨s.reachable, ↑s.worklist⟩

theorem foldl_push (reachable : Finset ι) (refs worklist : List ι) :
  refs.foldl (fun worklist ref => if ref ∉ reachable then ref :: worklist else worklist) worklist
    = (refs.filter (· ∉ reachable)).reverse ++ worklist
  := by
  induction refs generalizing worklist with
  | nil => rfl
  | cons r refs ih =>
      rw [List.foldl_cons, ih]
      by_cases hr : r ∈ reachable
      · simp [hr]
      · simp [hr]

/-- A pass of the propagation that goes round again is a move of the search. -/
theorem propagateStep_move {h : Heap ι} {s s' : Propagation ι}
    (hstep : propagateStep h s = .ok s') :
  Search.Move h.refs s.toSearch s'.toSearch
  := by
  obtain ⟨reachable, _ | ⟨node, worklist⟩⟩ := s
  · cases hstep
  · simp only [propagateStep] at hstep
    split_ifs at hstep with hnode
    · obtain rfl := Except.ok.inj hstep
      apply Search.Move.skip (F := ↑worklist) hnode
    · obtain rfl := Except.ok.inj hstep
      rw [foldl_push]
      have hN : ((h.refs node).filter (· ∉ insert node reachable)).reverse
          ≤ (h.refs node : Multiset ι) := by
        rw [Multiset.coe_le]
        apply (List.reverse_perm _).subperm.trans
        apply List.filter_sublist.subperm
      have hfresh : ∀ y ∈ h.refs node, y ∉ insert node reachable →
          y ∈ (((h.refs node).filter (· ∉ insert node reachable)).reverse : Multiset ι) := by
        intro y hy hfresh
        simp only [Multiset.mem_coe, List.mem_reverse, List.mem_filter]
        exact ⟨hy, by simpa using hfresh⟩
      have hmove := Search.Move.visit (F := ↑worklist) hnode hN hfresh
      rw [Multiset.coe_add] at hmove
      apply hmove

theorem propagateStep_exit {h : Heap ι} {s : Propagation ι} {reachable : Finset ι}
    (hexit : propagateStep h s = .error reachable) :
  s = ⟨reachable, []⟩
  := by
  obtain ⟨R, _ | ⟨node, worklist⟩⟩ := s
  · rw [Except.error.inj hexit]
  · simp only [propagateStep] at hexit
    split_ifs at hexit

/-- The edges of `refs` stay among the nodes of `GCNode._all`. -/
def Heap.Closed (h : Heap ι) : Prop := ∀ u ∈ h.all, ∀ v ∈ h.refs u, v ∈ h.all

omit [DecidableEq ι] in
theorem Heap.WellFormed.closed [DecidableEq ι] {h : Heap ι} (hwf : h.WellFormed) :
  h.Closed
  := fun u _ v hv => (hwf.refs_mem u v hv).2

/-- What the loop of step 3 has left to do when it is entered. -/
def propagateWeight (h : Heap ι) : ℕ :=
  Search.weight h.refs h.all.toFinset ⟨∅, ↑(seeds h).reverse⟩

omit [DecidableEq ι] in
theorem mem_seeds {h : Heap ι} {x : ι} :
  x ∈ (↑(seeds h).reverse : Multiset ι) ↔ x ∈ h.all ∧ 0 < h.gcRefs x
  := by
  simp [seeds]

/-- The loop of step 3 ends: every pass decreases what is left to do. -/
theorem exists_run_propagateStep {h : Heap ι} (hclosed : h.Closed) {n : ℕ}
    (hn : propagateWeight h < n) :
  ∃ reachable, Loop.run (propagateStep h) n ⟨∅, (seeds h).reverse⟩ = some reachable
  := by
  have hedges : ∀ x ∈ h.all.toFinset, ∀ y ∈ h.refs x, y ∈ h.all.toFinset := by
    intro x hx y hy
    apply List.mem_toFinset.mpr (hclosed x (List.mem_toFinset.mp hx) y hy)
  have hstart : ∀ x ∈ (↑(seeds h).reverse : Multiset ι), x ∈ h.all.toFinset := by
    intro x hx
    apply List.mem_toFinset.mpr (mem_seeds.mp hx).1
  apply Loop.run_of_variant
    (I := fun s : Propagation ι => ∀ x ∈ s.toSearch.frontier, x ∈ h.all.toFinset)
    (fun s : Propagation ι => Search.weight h.refs h.all.toFinset s.toSearch)
    (fun s s' hs hstep => ⟨(propagateStep_move hstep).frontier_subset hedges hs,
      (propagateStep_move hstep).weight_lt hs⟩)
    (s := ⟨∅, (seeds h).reverse⟩) hstart hn

/-- What the loop of step 3 leaves in `reachable`. -/
theorem mem_run_propagateStep {h : Heap ι} {n : ℕ} {reachable : Finset ι}
    (hrun : Loop.run (propagateStep h) n ⟨∅, (seeds h).reverse⟩ = some reachable) (x : ι) :
  x ∈ reachable ↔ Search.FromSeeds h.refs {x | x ∈ h.all ∧ 0 < h.gcRefs x} x
  := by
  have hseeds : {x | x ∈ (↑(seeds h).reverse : Multiset ι)} = {x | x ∈ h.all ∧ 0 < h.gcRefs x} :=
    Set.ext fun _ => mem_seeds
  have hexact := Loop.run_post
    (I := fun s : Propagation ι =>
      Search.Invariant h.refs {x | x ∈ h.all ∧ 0 < h.gcRefs x} s.toSearch)
    (P := fun R => Search.Invariant h.refs {x | x ∈ h.all ∧ 0 < h.gcRefs x} ⟨R, 0⟩)
    (fun s s' hs hstep => hs.move (propagateStep_move hstep))
    (fun s R hs hexit => by rw [propagateStep_exit hexit] at hs; exact hs)
    (by rw [← hseeds]; apply Search.Invariant.start) hrun
  apply hexact.exact

/-- The loop of step 3 ends, with `reachable` the nodes that paths of `refs` lead to from a
node with a positive `gc_refs`. -/
theorem exists_reachable {h : Heap ι} (hclosed : h.Closed) :
  ∃ reachable,
    (∀ n, propagateWeight h < n →
      Loop.run (propagateStep h) n ⟨∅, (seeds h).reverse⟩ = some reachable) ∧
    ∀ x, x ∈ reachable ↔ Search.FromSeeds h.refs {x | x ∈ h.all ∧ 0 < h.gcRefs x} x
  := by
  obtain ⟨reachable, hrun⟩ := exists_run_propagateStep hclosed (Nat.lt_succ_self _)
  use reachable
  constructor
  · intro n hn
    apply Loop.run_mono hn hrun
  · apply mem_run_propagateStep hrun

/-- On every finite graph of nodes, whatever `gc_refs` each of them has, the loop of step 3
ends, and then `reachable` has exactly the nodes that paths of `refs` lead to from a node
with a positive `gc_refs`. -/
theorem propagation_exact (h : Heap ι) (hclosed : ∀ u ∈ h.all, ∀ v ∈ h.refs u, v ∈ h.all) :
  ∃ reachable,
    (∃ n, ∀ m, n ≤ m →
      Loop.run (propagateStep h) m ⟨∅, (seeds h).reverse⟩ = some reachable) ∧
    ∀ x, x ∈ reachable ↔ ∃ s, (s ∈ h.all ∧ 0 < h.gcRefs s) ∧ Search.Path h.refs s x
  := by
  obtain ⟨reachable, hrun, hmem⟩ := exists_reachable hclosed
  use reachable
  constructor
  · use propagateWeight h + 1
    intro m hm
    apply hrun m hm
  · apply hmem

/-- Three nodes with edges that repeat, a self-loop and a cycle; only `0` has a positive
`gc_refs`, and nothing leads from it to `2`. -/
def loopyHeap : Heap ℕ where
  all := [0, 1, 2]
  node
    | 0 => ⟨"A", [0, 1, 1], [0, 1], 3⟩
    | 1 => ⟨"B", [0], [0, 0, 2], 0⟩
    | _ => ⟨"C", [1], [], -1⟩

theorem loopyHeap_propagation :
  ∃ reachable,
    (∃ n, ∀ m, n ≤ m →
      Loop.run (propagateStep loopyHeap) m ⟨∅, (seeds loopyHeap).reverse⟩ = some reachable) ∧
    ∀ x, x ∈ reachable ↔
      ∃ s, (s ∈ loopyHeap.all ∧ 0 < loopyHeap.gcRefs s) ∧ Search.Path loopyHeap.refs s x
  := by
  apply propagation_exact
  decide

/-- The propagation ends within its bound, with `reachable` the nodes that paths of `refs`
lead to from a node with a positive `gc_refs`. -/
theorem propagate_spec {h : Heap ι} (hwf : h.WellFormed) :
  ∃ reachable, propagate h = some reachable ∧
    ∀ x, x ∈ reachable ↔ Search.FromSeeds h.refs {x | x ∈ h.all ∧ 0 < h.gcRefs x} x
  := by
  obtain ⟨reachable, hrun, hmem⟩ := exists_reachable hwf.closed
  use reachable
  constructor
  · apply hrun
    simp only [propagateWeight, Search.weight, Finset.sdiff_empty,
      List.sum_toFinset _ hwf.nodup, Multiset.coe_card, List.length_reverse, propagateBound]
    omega
  · apply hmem

/-- The nodes the propagation starts from, after the two passes. -/
def NetSeed (roots : Finset ι) (h : Heap ι) (x : ι) : Prop :=
  x ∈ h.all ∧ 0 < netRefs roots h x

/-- What the algorithm computes, on every heap that calls build. -/
theorem simulateGcCycleDetection_spec (roots : Finset ι) {h : Heap ι} (hwf : h.WellFormed) :
  ∃ d, simulateGcCycleDetection roots h = some d ∧
    (∀ x ∈ h.all, d.heap.gcRefs x = netRefs roots h x) ∧
    (∀ x, x ∈ d.reachable ↔ Search.FromSeeds h.refs {x | NetSeed roots h x} x) ∧
    (∀ x, x ∈ d.unreachable ↔ x ∈ h.all ∧ x ∉ d.reachable ∧ x ∉ roots)
  := by
  have hpasses := subtractRootRefs_initGcRefs roots hwf
  obtain ⟨reachable, hpropagate, hmem⟩ := propagate_spec (hwf.withGcRefs (netGcRefs roots h))
  use ⟨h.withGcRefs (netGcRefs roots h), reachable, (h.all.toFinset \ reachable) \ roots⟩
  and_intros
  · simp only [simulateGcCycleDetection, hpasses, hpropagate]
    rfl
  · intro x hx
    simp [Heap.gcRefs, Heap.withGcRefs, netGcRefs, hx]
  · intro x
    have hseeds : {x | NetSeed roots h x} = {x | x ∈ h.all ∧ 0 < netGcRefs roots h x} := by
      ext y
      simp +contextual [NetSeed, netGcRefs]
    rw [hseeds]
    apply hmem
  · intro x
    simp [and_assoc]

end Gc
