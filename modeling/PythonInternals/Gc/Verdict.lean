import Mathlib.Data.List.Perm.Basic
import Mathlib.Logic.Equiv.Basic
import PythonInternals.Gc.Detection

/-!
# What the detection algorithm announces

A node is `Live` when a path of `refs` leads to it from a root, and `Referenced` when it
occurs in some list `refs`.  The set `reachable` of the algorithm is neither: every seed
is referenced, so that a root nobody refers to is not a seed, while a node that any other
node than a root refers to always is (`mem_reachable_iff`).  So what is announced can be told
from the referrers of a node and theirs (`exists_unreachable_iff`).  Two defects follow, each
stated with the exact condition under which the algorithm is right.

* A live node is announced as to be reclaimed, unless it is also referred to by a node
  that is no root or that is itself referenced (`no_live_unreachable_iff`).
* Garbage that is referenced at all is never announced (`garbage_unreachable_iff`).

The verdict does depend on the multigraph only, not on the order in which it is built
(`verdict_of_iso`).
-/

namespace Gc

variable {ι κ : Type*} [DecidableEq ι] [DecidableEq κ]

/-- A path of `refs` leads to the node from a root. -/
def Live (roots : Finset ι) (h : Heap ι) (v : ι) : Prop :=
  Search.FromSeeds h.refs {x | x ∈ roots} v

/-- The node occurs in some list `refs`. -/
def Referenced (h : Heap ι) (v : ι) : Prop := ∃ u, v ∈ h.refs u

/-- The nodes with a positive `gc_refs`: a root that anybody refers to, and any other node
that another node than a root refers to. -/
theorem netRefs_pos_iff {roots : Finset ι} {h : Heap ι} (hwf : h.WellFormed) {v : ι} :
  0 < netRefs roots h v ↔ ∃ u, v ∈ h.refs u ∧ (v ∈ roots ∨ u ∉ roots)
  := by
  rw [netRefs]
  split_ifs with hv
  · simp only [hv, true_or, and_true, List.length_pos_iff_exists_mem, hwf.mem_refBy]
  · simp only [hv, false_or, List.countP_pos_iff, hwf.mem_refBy, decide_eq_true_eq]

theorem netSeed_iff {roots : Finset ι} {h : Heap ι} (hwf : h.WellFormed) {v : ι} :
  NetSeed roots h v ↔ ∃ u, v ∈ h.refs u ∧ (v ∈ roots ∨ u ∉ roots)
  := by
  rw [NetSeed, netRefs_pos_iff hwf]
  constructor
  · rintro ⟨-, hu⟩
    apply hu
  · rintro ⟨u, hu, hor⟩
    exact ⟨(hwf.refs_mem u v hu).2, u, hu, hor⟩

/-- The nodes that the propagation reaches: the referenced roots, and whatever is referred
to by a node that is no root or that is itself referenced. -/
theorem mem_reachable_iff {roots : Finset ι} {h : Heap ι} (hwf : h.WellFormed) {v : ι} :
  Search.FromSeeds h.refs {x | NetSeed roots h x} v
    ↔ (v ∈ roots ∧ Referenced h v) ∨ ∃ u, v ∈ h.refs u ∧ (u ∉ roots ∨ Referenced h u)
  := by
  constructor
  · rintro ⟨s, hs, hpath⟩
    obtain ⟨w, hw, hor⟩ := (netSeed_iff hwf).mp hs
    cases hpath with
    | refl =>
        rcases hor with hroot | hroot
        · left
          exact ⟨hroot, w, hw⟩
        · right
          use w, hw, Or.inl hroot
    | @tail u _ hpath hedge =>
        -- the node before the last on the path is the seed or has a node before it
        right
        use u, hedge
        right
        cases hpath with
        | refl => exact ⟨w, hw⟩
        | tail _ hedge' => exact ⟨_, hedge'⟩
  · rintro (⟨hroot, u, hu⟩ | ⟨u, hu, hroot | ⟨w, hw⟩⟩)
    · apply Search.FromSeeds.of_mem
      apply (netSeed_iff hwf).mpr
      use u, hu, Or.inl hroot
    · apply Search.FromSeeds.of_mem
      apply (netSeed_iff hwf).mpr
      use u, hu, Or.inr hroot
    · by_cases hroot : u ∈ roots
      · apply Search.FromSeeds.edge _ hu
        apply Search.FromSeeds.of_mem
        apply (netSeed_iff hwf).mpr
        use w, hw, Or.inl hroot
      · apply Search.FromSeeds.of_mem
        apply (netSeed_iff hwf).mpr
        use u, hu, Or.inr hroot

/-- The algorithm announces the nodes that are no roots and that only roots refer to, none of
which is itself referenced. -/
theorem exists_unreachable_iff {h : Heap ι} (hwf : h.WellFormed) (roots : Finset ι) :
  ∃ d, simulateGcCycleDetection roots h = some d ∧
    ∀ v, v ∈ d.unreachable
      ↔ v ∈ h.all ∧ v ∉ roots ∧ ∀ u, v ∈ h.refs u → u ∈ roots ∧ ¬ Referenced h u
  := by
  obtain ⟨d, hd, -, hreach, hunreach⟩ := simulateGcCycleDetection_spec roots hwf
  use d, hd
  intro v
  rw [hunreach, hreach, mem_reachable_iff hwf]
  constructor
  · rintro ⟨hv, hnot, hroot⟩
    use hv, hroot
    intro u hu
    constructor
    · by_contra hur
      apply hnot
      right
      use u, hu, Or.inl hur
    · intro href
      apply hnot
      right
      use u, hu, Or.inr href
  · rintro ⟨hv, hroot, honly⟩
    use hv
    constructor
    · rintro (⟨hroot', -⟩ | ⟨u, hu, hur | href⟩)
      · apply hroot hroot'
      · apply hur (honly u hu).1
      · apply (honly u hu).2 href
    · apply hroot

omit [DecidableEq ι] in
/-- A live node that is no root is referred to by a live node. -/
theorem Live.exists_refs {roots : Finset ι} {h : Heap ι} {v : ι} (hv : Live roots h v)
    (hroot : v ∉ roots) :
  ∃ u, Live roots h u ∧ v ∈ h.refs u
  := by
  obtain ⟨r, hr, hpath⟩ := hv
  cases hpath with
  | refl => exact absurd hr hroot
  | @tail u _ hpath hedge => exact ⟨u, ⟨r, hr, hpath⟩, hedge⟩

/-! ### The demo -/

/-- The calls of `simulate_gc_cycle_detection`, with `A` to `F` numbered from 0:
`A → B → C → A`, `D → E`, and `F` on its own. -/
def demoCalls : List (Call ℕ) :=
  [.init 0 "A", .init 1 "B", .init 2 "C", .addRef 0 1, .addRef 1 2, .addRef 2 0,
    .init 3 "D", .init 4 "E", .addRef 3 4, .init 5 "F"]

/-- The heap of the demo. -/
def demoHeap : Heap ℕ := (build demoCalls).getD Heap.empty

theorem build_demoCalls :
  build demoCalls = some demoHeap
  := rfl

/-! ### Safety -/

/-- No live node is announced as to be reclaimed exactly when every node that a root
refers to is a root, or is also referred to by a node that is no root or that is itself
referenced. -/
theorem no_live_unreachable_iff {calls : List (Call ι)} {h : Heap ι} (hb : build calls = some h)
    (roots : Finset ι) :
  ∃ d, simulateGcCycleDetection roots h = some d ∧
    ((∀ v, Live roots h v → v ∉ d.unreachable)
      ↔ ∀ r ∈ roots, ∀ v ∈ h.refs r, v ∉ roots →
          ∃ u, v ∈ h.refs u ∧ (u ∉ roots ∨ Referenced h u))
  := by
  have hwf := build_wellFormed hb
  obtain ⟨d, hd, hunreach⟩ := exists_unreachable_iff hwf roots
  use d, hd
  constructor
  · intro hsafe r hr v hv hroot
    have hlive : Live roots h v := Search.FromSeeds.edge (Search.FromSeeds.of_mem hr) hv
    by_contra! hnone
    apply hsafe v hlive
    apply (hunreach v).mpr
    exact ⟨(hwf.refs_mem r v hv).2, hroot, hnone⟩
  · intro hcond v hlive hmem
    obtain ⟨-, hroot, honly⟩ := (hunreach v).mp hmem
    obtain ⟨r, -, hr⟩ := hlive.exists_refs hroot
    obtain ⟨u, hu, hur | href⟩ := hcond r (honly r hr).1 v hr hroot
    · apply hur (honly u hu).1
    · apply (honly u hu).2 href

/-- On the heap of the demo, with its roots `A` and `D`, the node `E` is announced although
`D` refers to it. -/
theorem demo_live_unreachable :
  ∃ d, simulateGcCycleDetection {0, 3} demoHeap = some d ∧
    Live {0, 3} demoHeap 4 ∧ 4 ∈ d.unreachable
  := by
  refine ⟨_, rfl, ⟨3, by decide, ?_⟩, by decide⟩
  apply Relation.ReflTransGen.single
  decide

/-- With `A` as the only root of the demo nothing alive is announced: `A` refers to `B`,
and is itself referenced. -/
theorem demo_safe_root_A :
  ∃ d, simulateGcCycleDetection {0} demoHeap = some d ∧
    ∀ v, Live {0} demoHeap v → v ∉ d.unreachable
  := by
  obtain ⟨d, hd, hiff⟩ := no_live_unreachable_iff build_demoCalls {0}
  use d, hd
  apply hiff.mpr
  intro r hr v hv _
  obtain rfl := Finset.mem_singleton.mp hr
  use 0, hv
  right
  use 2
  decide

/-! ### Completeness -/

/-- All garbage is announced exactly when no garbage is referenced. -/
theorem garbage_unreachable_iff {calls : List (Call ι)} {h : Heap ι} (hb : build calls = some h)
    (roots : Finset ι) :
  ∃ d, simulateGcCycleDetection roots h = some d ∧
    ((∀ v ∈ h.all, ¬ Live roots h v → v ∈ d.unreachable)
      ↔ ∀ v ∈ h.all, ¬ Live roots h v → ¬ Referenced h v)
  := by
  have hwf := build_wellFormed hb
  obtain ⟨d, hd, hunreach⟩ := exists_unreachable_iff hwf roots
  use d, hd
  constructor
  · rintro hcomplete v hv hdead ⟨u, hu⟩
    -- only roots refer to what is announced, and what they refer to is alive
    obtain ⟨-, -, honly⟩ := (hunreach v).mp (hcomplete v hv hdead)
    apply hdead
    apply Search.FromSeeds.edge (Search.FromSeeds.of_mem (honly u hu).1) hu
  · intro hcond v hv hdead
    apply (hunreach v).mpr
    use hv
    constructor
    · intro hr
      apply hdead
      apply Search.FromSeeds.of_mem hr
    · intro u hu
      exact absurd ⟨u, hu⟩ (hcond v hv hdead)

/-- With `D` as the only root of the demo the cycle of `A`, `B` and `C` is garbage, and
none of it is announced. -/
theorem demo_cycle_not_unreachable :
  ∃ d, simulateGcCycleDetection {3} demoHeap = some d ∧
    ∀ v ∈ [0, 1, 2], v ∈ demoHeap.all ∧ ¬ Live {3} demoHeap v ∧ v ∉ d.unreachable
  := by
  refine ⟨_, rfl, ?_⟩
  intro v hv
  and_intros
  · revert v
    decide
  · intro hlive
    have hmem := hlive.mem_of_closed (R := {3, 4}) (by simp) (by decide)
    clear hlive
    revert v
    decide
  · revert v
    decide

/-- With `A` to `D` as roots all the garbage of the demo is announced: it is `F`, which
nobody refers to. -/
theorem demo_complete_four_roots :
  ∃ d, simulateGcCycleDetection {0, 1, 2, 3} demoHeap = some d ∧
    ∀ v ∈ demoHeap.all, ¬ Live {0, 1, 2, 3} demoHeap v → v ∈ d.unreachable
  := by
  obtain ⟨d, hd, hiff⟩ := garbage_unreachable_iff build_demoCalls {0, 1, 2, 3}
  use d, hd
  apply hiff.mpr
  rintro v hv hdead ⟨u, hu⟩
  have hroots : ∀ u ∈ demoHeap.all, ∀ v ∈ demoHeap.refs u, u ∈ ({0, 1, 2, 3} : Finset ℕ) := by
    decide
  have hroot := hroots u ((build_wellFormed build_demoCalls).refs_mem u v hu).1 v hu
  apply hdead
  apply Search.FromSeeds.edge (Search.FromSeeds.of_mem hroot) hu

/-! ### Construction order -/

/-- Along `e`, two heaps have the same nodes and the same edges, each as often. -/
structure Iso (e : ι ≃ κ) (h₁ : Heap ι) (h₂ : Heap κ) : Prop where
  all : ∀ x, x ∈ h₁.all ↔ e x ∈ h₂.all
  count : ∀ u v, (h₁.refs u).count v = (h₂.refs (e u)).count (e v)

section Iso

variable {e : ι ≃ κ} {h₁ : Heap ι} {h₂ : Heap κ}

theorem Iso.symm (hiso : Iso e h₁ h₂) :
  Iso e.symm h₂ h₁
  where
  all y := by rw [hiso.all, e.apply_symm_apply]
  count u v := by rw [hiso.count, e.apply_symm_apply, e.apply_symm_apply]

theorem Iso.mem_refs (hiso : Iso e h₁ h₂) {u v : ι} :
  v ∈ h₁.refs u ↔ e v ∈ h₂.refs (e u)
  := by
  rw [← List.count_pos_iff, ← List.count_pos_iff, hiso.count]

/-- Up to order, the lists `_ref_by` are the same along `e`. -/
theorem Iso.refBy_perm (hiso : Iso e h₁ h₂) (hwf₁ : h₁.WellFormed) (hwf₂ : h₂.WellFormed) (x : ι) :
  ((h₁.refBy x).map e).Perm (h₂.refBy (e x))
  := by
  apply List.perm_iff_count.mpr
  intro u
  obtain ⟨u, rfl⟩ := e.surjective u
  rw [List.count_map_of_injective _ e e.injective, ← hwf₁.count_refs, ← hwf₂.count_refs,
    hiso.count]

theorem Iso.netRefs (hiso : Iso e h₁ h₂) (hwf₁ : h₁.WellFormed) (hwf₂ : h₂.WellFormed)
    (roots : Finset ι) (x : ι) :
  netRefs roots h₁ x = netRefs (roots.map e.toEmbedding) h₂ (e x)
  := by
  have hperm := hiso.refBy_perm hwf₁ hwf₂ x
  simp only [Gc.netRefs, ← hperm.length_eq, ← hperm.countP_eq, List.length_map, List.countP_map]
  congr 1
  · simp
  · congr 1
    funext u
    simp

theorem Iso.fromSeeds (hiso : Iso e h₁ h₂) {seeds₁ : Set ι} {seeds₂ : Set κ}
    (hseeds : ∀ x ∈ seeds₁, e x ∈ seeds₂) {v : ι} (hv : Search.FromSeeds h₁.refs seeds₁ v) :
  Search.FromSeeds h₂.refs seeds₂ (e v)
  := by
  obtain ⟨s, hs, hpath⟩ := hv
  use e s, hseeds s hs
  apply hpath.lift e
  intro u v huv
  apply hiso.mem_refs.mp huv

/-- The propagation reaches the same nodes along `e`. -/
theorem Iso.reachable_iff (hiso : Iso e h₁ h₂) (hwf₁ : h₁.WellFormed) (hwf₂ : h₂.WellFormed)
    (roots : Finset ι) (v : ι) :
  Search.FromSeeds h₁.refs {x | NetSeed roots h₁ x} v
    ↔ Search.FromSeeds h₂.refs {x | NetSeed (roots.map e.toEmbedding) h₂ x} (e v)
  := by
  have hseed : ∀ x, NetSeed roots h₁ x ↔ NetSeed (roots.map e.toEmbedding) h₂ (e x) := by
    intro x
    rw [NetSeed, NetSeed, hiso.all, hiso.netRefs hwf₁ hwf₂]
  constructor
  · apply hiso.fromSeeds
    intro x hx
    apply (hseed x).mp hx
  · intro hv
    rw [← e.symm_apply_apply v]
    apply hiso.symm.fromSeeds _ hv
    intro y hy
    apply (hseed _).mpr
    rw [e.apply_symm_apply]
    apply hy

end Iso

/-- Two heaps with the same nodes whose lists `refs` differ in their order only. -/
theorem Iso.of_perm {h₁ h₂ : Heap ι} (hwf₁ : h₁.WellFormed) (hwf₂ : h₂.WellFormed)
    (hall : h₁.all.Perm h₂.all) (hrefs : ∀ u ∈ h₁.all, (h₁.refs u).Perm (h₂.refs u)) :
  Iso (Equiv.refl ι) h₁ h₂
  where
  all x := hall.mem_iff
  count u v := by
    by_cases hu : u ∈ h₁.all
    · apply (hrefs u hu).count_eq
    · have hu' : u ∉ h₂.all := fun hmem => hu (hall.mem_iff.mpr hmem)
      have hu'' : h₂.refs (Equiv.refl ι u) = [] := hwf₂.refs_eq_nil hu'
      rw [hwf₁.refs_eq_nil hu, hu'']
      rfl

/-- The verdict depends on the multigraph only: when two sequences of calls build the same
nodes and edges along `e`, in any order, then the algorithm leaves the same `gc_refs` and
computes the same sets along `e`. -/
theorem verdict_of_iso {calls₁ : List (Call ι)} {calls₂ : List (Call κ)} {h₁ : Heap ι}
    {h₂ : Heap κ} (hb₁ : build calls₁ = some h₁) (hb₂ : build calls₂ = some h₂) (e : ι ≃ κ)
    (hiso : Iso e h₁ h₂) (roots : Finset ι) :
  ∃ d₁ d₂, simulateGcCycleDetection roots h₁ = some d₁ ∧
    simulateGcCycleDetection (roots.map e.toEmbedding) h₂ = some d₂ ∧
    (∀ x ∈ h₁.all, d₁.heap.gcRefs x = d₂.heap.gcRefs (e x)) ∧
    d₁.reachable.map e.toEmbedding = d₂.reachable ∧
    d₁.unreachable.map e.toEmbedding = d₂.unreachable
  := by
  have hwf₁ := build_wellFormed hb₁
  have hwf₂ := build_wellFormed hb₂
  obtain ⟨d₁, hd₁, hrefs₁, hreach₁, hunreach₁⟩ := simulateGcCycleDetection_spec roots hwf₁
  obtain ⟨d₂, hd₂, hrefs₂, hreach₂, hunreach₂⟩ :=
    simulateGcCycleDetection_spec (roots.map e.toEmbedding) hwf₂
  have hreach : ∀ x, x ∈ d₁.reachable ↔ e x ∈ d₂.reachable := by
    intro x
    rw [hreach₁, hreach₂]
    apply hiso.reachable_iff hwf₁ hwf₂
  use d₁, d₂, hd₁, hd₂
  and_intros
  · intro x hx
    rw [hrefs₁ x hx, hrefs₂ (e x) ((hiso.all x).mp hx), hiso.netRefs hwf₁ hwf₂]
  · ext y
    obtain ⟨x, rfl⟩ := e.surjective y
    simp [hreach]
  · ext y
    obtain ⟨x, rfl⟩ := e.surjective y
    simp [hunreach₁, hunreach₂, hreach, hiso.all]

/-- The graph of the demo, built backwards. -/
def reversedDemoCalls : List (Call ℕ) :=
  [.init 5 "F", .init 4 "E", .init 3 "D", .addRef 3 4, .init 2 "C", .init 1 "B", .init 0 "A",
    .addRef 2 0, .addRef 1 2, .addRef 0 1]

/-- The demo and the demo built backwards announce the same nodes. -/
theorem reversedDemo_verdict :
  ∃ d₁ d₂, simulateGcCycleDetection {0, 3} demoHeap = some d₁ ∧
    simulateGcCycleDetection {0, 3} ((build reversedDemoCalls).getD Heap.empty) = some d₂ ∧
    d₁.unreachable = d₂.unreachable
  := by
  have hb₂ : build reversedDemoCalls = some ((build reversedDemoCalls).getD Heap.empty) := rfl
  have hiso := Iso.of_perm (build_wellFormed build_demoCalls) (build_wellFormed hb₂)
    (by decide) (by decide)
  obtain ⟨d₁, d₂, hd₁, hd₂, -, -, hunreach⟩ :=
    verdict_of_iso build_demoCalls hb₂ (Equiv.refl ℕ) hiso {0, 3}
  use d₁, d₂, hd₁, hd₂
  rw [← hunreach]
  simp

end Gc
