import PythonInternals.Foundation.ForLoop
import PythonInternals.Gc.Detection

/-!
# The bookkeeping of references

What the attribute `gc_refs` counts.  On every heap that calls build, the two passes of the
detection algorithm leave in it the number of the entries of the lists `refs` that point at
the node, and of a node that is no root only those of nodes that are no roots.

The count is nonnegative after each assignment that the passes make to it, not only at their
ends: `DuringInit` and `DuringSubtract` are the heaps that they go through.  The invariant of
the second pass is `Covered`, by which the count of a node that is still to come is at least
the number of roots that will be subtracted from it.
-/

namespace Gc

variable {ι : Type*} [DecidableEq ι]

/-- The number of entries of the lists `refs` of the given nodes that point at `v`. -/
def entriesAt (h : Heap ι) (nodes : List ι) (v : ι) : ℕ :=
  (nodes.map (fun u => (h.refs u).count v)).sum

/-- The heap `t` occurs in the course of step 1. -/
def DuringInit (h t : Heap ι) : Prop :=
  ForLoop.During (fun h node => h.setGcRefs node (h.refBy node).length) ForLoop.Atomic h h.all t

/-- The heap `t` occurs in the course of step 2 at a node. -/
def DuringSubtractNode (roots : Finset ι) (h : Heap ι) (node : ι) (t : Heap ι) : Prop :=
  node ∉ roots ∧ ForLoop.During (subtractRef roots node) ForLoop.Atomic h (h.refBy node) t

/-- The heap `t` occurs in the course of step 2. -/
def DuringSubtract (roots : Finset ι) (h t : Heap ι) : Prop :=
  ForLoop.During (subtractNode roots) (DuringSubtractNode roots) h h.all t

/-! ### What is counted -/

/-- The entries of `_ref_by` that have a property are the entries of `refs` that point at the
node and belong to nodes with this property. -/
theorem countP_refBy {h : Heap ι} (hwf : h.WellFormed) (p : ι → Bool) (v : ι) :
  (h.refBy v).countP p = entriesAt h (h.all.filter p) v
  := by
  have hmem : ∀ u ∈ ((h.refBy v).filter p : Multiset ι), u ∈ (h.all.filter p).toFinset := by
    intro u hu
    obtain ⟨hu, hp⟩ := List.mem_filter.mp hu
    apply List.mem_toFinset.mpr
    apply List.mem_filter.mpr
    exact ⟨(hwf.refs_mem u v (hwf.mem_refBy.mp hu)).1, hp⟩
  have hcount : ∀ u ∈ h.all.filter p, (h.refs u).count v = ((h.refBy v).filter p).count u := by
    intro u hu
    rw [hwf.count_refs, List.count_filter (List.mem_filter.mp hu).2]
  calc (h.refBy v).countP p
      = ((h.refBy v).filter p : Multiset ι).card := List.countP_eq_length_filter
    _ = ∑ u ∈ (h.all.filter p).toFinset, ((h.refBy v).filter p).count u := by
        rw [← Multiset.sum_count_eq_card hmem]
        simp only [Multiset.coe_count]
    _ = ((h.all.filter p).map (fun u => ((h.refBy v).filter p).count u)).sum :=
        List.sum_toFinset _ (hwf.nodup.filter p)
    _ = entriesAt h (h.all.filter p) v := by rw [entriesAt, List.map_congr_left hcount]

/-- What the two passes count for a node, in entries of the lists `refs`. -/
theorem netRefs_eq {h : Heap ι} (hwf : h.WellFormed) (roots : Finset ι) (v : ι) :
  netRefs roots h v
    = if v ∈ roots then entriesAt h h.all v else entriesAt h (h.all.filter (· ∉ roots)) v
  := by
  rw [netRefs]
  split_ifs with hroot
  · have hall := countP_refBy hwf (fun _ => true) v
    rwa [List.countP_true, List.filter_true] at hall
  · apply countP_refBy hwf

/-! ### The counts in the course of the passes -/

/-- No count is negative. -/
def Heap.Nonneg (h : Heap ι) : Prop := ∀ x, 0 ≤ h.gcRefs x

theorem Heap.Nonneg.setGcRefs {h : Heap ι} (hnonneg : h.Nonneg) {x : ι} {k : ℤ} (hk : 0 ≤ k) :
  (h.setGcRefs x k).Nonneg
  := by
  intro y
  rw [gcRefs_setGcRefs]
  split_ifs
  · exact hk
  · apply hnonneg

/-- No count is negative in the course of the counting pass. -/
theorem DuringInit.nonneg {h t : Heap ι} (ht : DuringInit h t) (hnonneg : h.Nonneg) :
  t.Nonneg
  := by
  apply ForLoop.During.invariant (I := fun _ s => s.Nonneg) _ _ _ ht hnonneg
  · intro s _ hs
    apply hs
  · intro _ _ _ _ _ hwithin
    cases hwithin
  · intro s x xs hs
    apply hs.setGcRefs
    apply Int.natCast_nonneg

/-- No count is negative in the course of the subtracting pass at a node whose count is at
least the number of the roots that refer to it. -/
theorem DuringSubtractNode.nonneg {roots : Finset ι} {h t : Heap ι} {node : ι}
    (ht : DuringSubtractNode roots h node t) (hnonneg : h.Nonneg)
    (hcovered : ((h.refBy node).countP (· ∈ roots) : ℤ) ≤ h.gcRefs node) :
  t.Nonneg
  := by
  apply ForLoop.During.invariant
    (I := fun referrers s => s.Nonneg ∧ (referrers.countP (· ∈ roots) : ℤ) ≤ s.gcRefs node)
    _ _ _ ht.2 ⟨hnonneg, hcovered⟩
  · intro s _ hs
    apply hs.1
  · intro _ _ _ _ _ hwithin
    cases hwithin
  · rintro s r referrers ⟨hs, hle⟩
    rw [List.countP_cons] at hle
    rw [subtractRef]
    by_cases hr : r ∈ roots
    · simp only [hr, decide_true, if_true, Nat.cast_add, Nat.cast_one] at hle
      rw [if_pos hr, Heap.gcRefs_setGcRefs, if_pos rfl]
      constructor
      · apply hs.setGcRefs
        omega
      · omega
    · simp only [hr, decide_false, Bool.false_eq_true, if_false, Nat.add_zero] at hle
      rw [if_neg hr]
      exact ⟨hs, hle⟩

/-- The invariant of the subtracting pass: no count is negative, and the count of every node
that is still to come is at least the number of the roots that refer to it. -/
structure Covered (roots : Finset ι) (rest : List ι) (h : Heap ι) : Prop where
  nonneg : h.Nonneg
  nodup : rest.Nodup
  covered : ∀ x ∈ rest, ((h.refBy x).countP (· ∈ roots) : ℤ) ≤ h.gcRefs x

/-- A pass of the subtracting loop keeps its invariant. -/
theorem Covered.subtractNode {roots : Finset ι} {node : ι} {rest : List ι} {h : Heap ι}
    (hcov : Covered roots (node :: rest) h) :
  Covered roots rest (subtractNode roots h node)
  := by
  obtain ⟨hnode, hrest⟩ := List.nodup_cons.mp hcov.nodup
  rw [subtractNode_eq]
  split_ifs with hroot
  · exact ⟨hcov.nonneg, hrest, fun x hx => hcov.covered x (List.mem_cons_of_mem _ hx)⟩
  · constructor
    · apply hcov.nonneg.setGcRefs
      have hle := hcov.covered node List.mem_cons_self
      omega
    · apply hrest
    · intro x hx
      have hne : x ≠ node := by
        rintro rfl
        apply hnode hx
      rw [Heap.gcRefs_setGcRefs, if_neg hne, Heap.refBy_setGcRefs]
      apply hcov.covered x (List.mem_cons_of_mem _ hx)

/-- No count is negative in the course of the subtracting pass. -/
theorem DuringSubtract.nonneg {roots : Finset ι} {h t : Heap ι} (ht : DuringSubtract roots h t)
    (hcov : Covered roots h.all h) :
  t.Nonneg
  := by
  apply ForLoop.During.invariant (I := Covered roots) _ _ _ ht hcov
  · intro s _ hs
    apply hs.nonneg
  · intro s node rest t hs hwithin
    apply hwithin.nonneg hs.nonneg
    apply hs.covered node List.mem_cons_self
  · intro s node rest hs
    apply hs.subtractNode

/-- The counting pass leaves every node with a count that covers the roots that refer to it. -/
theorem covered_initGcRefs {h : Heap ι} (hwf : h.WellFormed) (hnonneg : h.Nonneg)
    (roots : Finset ι) :
  Covered roots (initGcRefs h).all (initGcRefs h)
  where
  nonneg := by
    apply DuringInit.nonneg _ hnonneg
    apply ForLoop.During.exit
  nodup := by
    rw [initGcRefs_eq]
    apply hwf.nodup
  covered x hx := by
    rw [initGcRefs_eq] at hx ⊢
    have hcount : (h.withGcRefs (fun x => if x ∈ h.all then ((h.refBy x).length : ℤ)
        else h.gcRefs x)).gcRefs x = (h.refBy x).length := if_pos hx
    rw [hcount]
    apply Int.ofNat_le.mpr List.countP_le_length

/-- On every heap that calls build, `refs` and `_ref_by` have every edge equally often; after
the two passes the `gc_refs` of a root is the number of the entries of `refs` that point at
it, and of any other node the number of those that belong to nodes that are no roots; and no
`gc_refs` is negative at any point of either pass. -/
theorem bookkeeping_exact {calls : List (Call ι)} {h : Heap ι} (hb : build calls = some h) :
  (∀ u v, (h.refs u).count v = (h.refBy v).count u) ∧
    ∀ roots : Finset ι,
      (∀ v ∈ h.all, (subtractRootRefs roots (initGcRefs h)).gcRefs v
        = if v ∈ roots then entriesAt h h.all v
          else entriesAt h (h.all.filter (· ∉ roots)) v) ∧
      (∀ t, DuringInit h t → ∀ v, 0 ≤ t.gcRefs v) ∧
      (∀ t, DuringSubtract roots (initGcRefs h) t → ∀ v, 0 ≤ t.gcRefs v)
  := by
  have hwf := build_wellFormed hb
  have hnonneg : h.Nonneg := by
    intro x
    rw [gcRefs_build hb x]
    apply Int.one_nonneg
  constructor
  · apply hwf.count_refs
  · intro roots
    and_intros
    · intro v hv
      rw [subtractRootRefs_initGcRefs roots hwf, ← netRefs_eq hwf]
      apply if_pos hv
    · intro t ht
      apply ht.nonneg hnonneg
    · intro t ht
      apply ht.nonneg (covered_initGcRefs hwf hnonneg roots)

/-- Calls that build self-references, edges that repeat, and roots that refer to each other. -/
def knotCalls : List (Call ℕ) :=
  [.init 0 "A", .init 1 "B", .init 2 "C", .addRef 0 0, .addRef 0 1, .addRef 0 1, .addRef 1 0,
    .addRef 1 2, .addRef 2 2, .addRef 2 1]

/-- The heap that these calls build. -/
def knotHeap : Heap ℕ := (build knotCalls).getD Heap.empty

theorem build_knotCalls :
  build knotCalls = some knotHeap
  := rfl

/-- With the roots `A` and `B`, the three entries at `B` are counted, and of the two at `C`
only its own. -/
theorem knot_bookkeeping :
  (∀ u v, (knotHeap.refs u).count v = (knotHeap.refBy v).count u) ∧
    (subtractRootRefs {0, 1} (initGcRefs knotHeap)).gcRefs 1 = 3 ∧
    (subtractRootRefs {0, 1} (initGcRefs knotHeap)).gcRefs 2 = 1 ∧
    ∀ t, DuringSubtract {0, 1} (initGcRefs knotHeap) t → ∀ v, 0 ≤ t.gcRefs v
  := by
  obtain ⟨hcount, hroots⟩ := bookkeeping_exact build_knotCalls
  obtain ⟨hnet, -, hsubtract⟩ := hroots {0, 1}
  use hcount
  rw [hnet 1 (by decide), hnet 2 (by decide)]
  and_intros
  · decide
  · decide
  · apply hsubtract

end Gc
