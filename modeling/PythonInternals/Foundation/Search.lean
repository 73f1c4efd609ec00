import Mathlib.Algebra.Order.BigOperators.Group.Finset
import Mathlib.Data.Finset.Basic
import Mathlib.Data.Multiset.AddSub
import Mathlib.Logic.Relation

/-!
# Graph search in any order

A graph is given by the list `succ x` of the successors of every vertex `x`.  A search
keeps the set of the vertices reached so far and a multiset of vertices still to be
looked at, the frontier.  A move takes any vertex off the frontier: one that is already
reached is dropped, any other one becomes reached and some of its successors join the
frontier, at least those not reached yet.  Nothing is said about the order in which the
frontier is served, nor about repetitions in it.

A search that has emptied its frontier has reached exactly the vertices that paths from
its seeds lead to (`Invariant.exact`), and every move decreases `weight`.
-/

namespace Search

variable {α : Type*}

/-- There is an edge from `x` to `y`. -/
def Edge (succ : α → List α) (x y : α) : Prop := y ∈ succ x

instance [DecidableEq α] (succ : α → List α) : DecidableRel (Edge succ) :=
  fun x y => inferInstanceAs (Decidable (y ∈ succ x))

/-- A path, of any number of edges, leads from `x` to `y`. -/
def Path (succ : α → List α) : α → α → Prop := Relation.ReflTransGen (Edge succ)

/-- A path leads from some vertex in `seeds` to `y`. -/
def FromSeeds (succ : α → List α) (seeds : Set α) (y : α) : Prop :=
  ∃ x ∈ seeds, Path succ x y

/-- A state of the search. -/
structure State (α : Type*) where
  reached : Finset α
  frontier : Multiset α

variable {succ : α → List α}

/-- The moves of the search. -/
inductive Move [DecidableEq α] (succ : α → List α) : State α → State α → Prop where
  | skip {R : Finset α} {x : α} {F : Multiset α} (hx : x ∈ R) :
      Move succ ⟨R, x ::ₘ F⟩ ⟨R, F⟩
  | visit {R : Finset α} {x : α} {F N : Multiset α} (hx : x ∉ R) (hN : N ≤ ↑(succ x))
      (hfresh : ∀ y ∈ succ x, y ∉ insert x R → y ∈ N) :
      Move succ ⟨R, x ::ₘ F⟩ ⟨insert x R, N + F⟩

/-- The seeds are reached or on the frontier, and so are the successors of what is
reached; nothing else than what the seeds lead to is reached or on the frontier. -/
structure Invariant (succ : α → List α) (seeds : Set α) (s : State α) : Prop where
  reached_sound : ∀ x ∈ s.reached, FromSeeds succ seeds x
  frontier_sound : ∀ x ∈ s.frontier, FromSeeds succ seeds x
  seeds_covered : ∀ x ∈ seeds, x ∈ s.reached ∨ x ∈ s.frontier
  succ_covered : ∀ x ∈ s.reached, ∀ y ∈ succ x, y ∈ s.reached ∨ y ∈ s.frontier

theorem FromSeeds.of_mem {seeds : Set α} {x : α} (hx : x ∈ seeds) :
  FromSeeds succ seeds x
  := ⟨x, hx, Relation.ReflTransGen.refl⟩

theorem FromSeeds.edge {seeds : Set α} {x y : α} (hx : FromSeeds succ seeds x)
    (hy : y ∈ succ x) :
  FromSeeds succ seeds y
  := by
  obtain ⟨s, hs, hpath⟩ := hx
  use s, hs
  apply Relation.ReflTransGen.tail hpath hy

/-- A set that contains the seeds and the successors of its members contains whatever
the seeds lead to. -/
theorem FromSeeds.mem_of_closed {seeds : Set α} {R : Finset α} (hseeds : ∀ x ∈ seeds, x ∈ R)
    (hclosed : ∀ x ∈ R, ∀ y ∈ succ x, y ∈ R) {y : α} (hy : FromSeeds succ seeds y) :
  y ∈ R
  := by
  obtain ⟨s, hs, hpath⟩ := hy
  induction hpath with
  | refl => exact hseeds s hs
  | tail _ hedge ih => exact hclosed _ ih _ hedge

/-- A search starts with nothing reached and its seeds on the frontier. -/
theorem Invariant.start (F : Multiset α) :
  Invariant succ {x | x ∈ F} ⟨∅, F⟩
  where
  reached_sound x hx := by simp at hx
  frontier_sound x hx := FromSeeds.of_mem hx
  seeds_covered x hx := Or.inr hx
  succ_covered x hx := by simp at hx

/-- A search with an empty frontier has reached exactly what its seeds lead to. -/
theorem Invariant.exact {seeds : Set α} {R : Finset α} (h : Invariant succ seeds ⟨R, 0⟩) (x : α) :
  x ∈ R ↔ FromSeeds succ seeds x
  := by
  constructor
  · apply h.reached_sound
  · apply FromSeeds.mem_of_closed
    · intro z hz
      simpa using h.seeds_covered z hz
    · intro z hz y hy
      simpa using h.succ_covered z hz y hy

/-- Whatever is reached or on the frontier stays so when the vertex taken off the
frontier is reached. -/
private theorem covered_of_cons {R R' : Finset α} {x z : α} {F F' : Multiset α}
    (hR : R ⊆ R') (hF : F ≤ F') (hx : x ∈ R') (h : z ∈ R ∨ z ∈ x ::ₘ F) :
  z ∈ R' ∨ z ∈ F'
  := by
  rcases h with h | h
  · left
    apply hR h
  · rcases Multiset.mem_cons.mp h with rfl | h
    · left
      apply hx
    · right
      apply Multiset.mem_of_le hF h

variable [DecidableEq α]

/-- Every move keeps the invariant. -/
theorem Invariant.move {seeds : Set α} {s s' : State α} (hs : Invariant succ seeds s)
    (h : Move succ s s') :
  Invariant succ seeds s'
  := by
  cases h with
  | skip hx =>
      constructor
      · apply hs.reached_sound
      · intro z hz
        apply hs.frontier_sound z (Multiset.mem_cons_of_mem hz)
      · intro z hz
        apply covered_of_cons (Finset.Subset.refl _) le_rfl hx (hs.seeds_covered z hz)
      · intro z hz y hy
        apply covered_of_cons (Finset.Subset.refl _) le_rfl hx (hs.succ_covered z hz y hy)
  | @visit R x F N hx hN hfresh =>
      have hxseeds := hs.frontier_sound x (Multiset.mem_cons_self x F)
      constructor
      · intro z hz
        rcases Finset.mem_insert.mp hz with rfl | hz
        · apply hxseeds
        · apply hs.reached_sound z hz
      · intro z hz
        rcases Multiset.mem_add.mp hz with hz | hz
        · apply hxseeds.edge
          apply Multiset.mem_coe.mp (Multiset.mem_of_le hN hz)
        · apply hs.frontier_sound z (Multiset.mem_cons_of_mem hz)
      · intro z hz
        apply covered_of_cons (Finset.subset_insert x R) (Multiset.le_add_left F N)
          (Finset.mem_insert_self x R) (hs.seeds_covered z hz)
      · intro z hz y hy
        rcases Finset.mem_insert.mp hz with rfl | hz
        · -- the successors of the vertex just reached: reached before, or new on the frontier
          by_cases hyR : y ∈ insert z R
          · left
            apply hyR
          · right
            apply Multiset.mem_add.mpr
            left
            apply hfresh y hy hyR
        · apply covered_of_cons (Finset.subset_insert x R) (Multiset.le_add_left F N)
            (Finset.mem_insert_self x R) (hs.succ_covered z hz y hy)

/-! ### Termination -/

/-- What is left to do over the finite set `U` of vertices: each vertex not reached yet
counts one more than its successors, each entry of the frontier counts one. -/
def weight (succ : α → List α) (U : Finset α) (s : State α) : ℕ :=
  ∑ x ∈ U \ s.reached, ((succ x).length + 1) + Multiset.card s.frontier

/-- A move keeps the frontier inside a set that is closed under successors. -/
theorem Move.frontier_subset {U : Finset α} (hU : ∀ x ∈ U, ∀ y ∈ succ x, y ∈ U)
    {s s' : State α} (h : Move succ s s') (hs : ∀ x ∈ s.frontier, x ∈ U) :
  ∀ x ∈ s'.frontier, x ∈ U
  := by
  cases h with
  | skip _ =>
      intro z hz
      apply hs z (Multiset.mem_cons_of_mem hz)
  | @visit R x F N _ hN _ =>
      intro z hz
      rcases Multiset.mem_add.mp hz with hz | hz
      · apply hU x (hs x (Multiset.mem_cons_self x F))
        apply Multiset.mem_coe.mp (Multiset.mem_of_le hN hz)
      · apply hs z (Multiset.mem_cons_of_mem hz)

/-- Every move decreases the weight. -/
theorem Move.weight_lt {U : Finset α} {s s' : State α} (h : Move succ s s')
    (hs : ∀ x ∈ s.frontier, x ∈ U) :
  weight succ U s' < weight succ U s
  := by
  cases h with
  | skip _ => simp [weight]
  | @visit R x F N hx hN _ =>
      have hxU : x ∈ U \ R :=
        Finset.mem_sdiff.mpr ⟨hs x (Multiset.mem_cons_self x F), hx⟩
      have hsum := Finset.add_sum_erase (U \ R) (fun y => (succ y).length + 1) hxU
      have hcard : Multiset.card N ≤ (succ x).length := by
        simpa using Multiset.card_le_card hN
      simp only [weight, Finset.sdiff_insert, Multiset.card_add, Multiset.card_cons]
      omega

end Search
