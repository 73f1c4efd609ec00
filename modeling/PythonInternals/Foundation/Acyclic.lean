import Mathlib.Data.Set.Finite.Basic
import Mathlib.Logic.Relation
import Mathlib.Order.WellFounded

/-!
# Acyclic graphs

A graph is given by its edges, a relation `r`.  It is acyclic when no path of one or more
edges leads from a vertex back to itself.  A new edge from `p` to `c` keeps a graph acyclic
exactly when no path led from `c` to `p` before (`acyclic_addEdge`).

In a finite set of vertices that each have an edge from a vertex of the set, except for some
roots, every vertex is led to from a root or from a cycle (`exists_root_or_cycle`).
-/

namespace Graph

variable {α : Type*}

/-- No vertex has a path back to itself. -/
def Acyclic (r : α → α → Prop) : Prop := ∀ x, ¬ Relation.TransGen r x x

/-- The graph `r` with an edge from `p` to `c`. -/
def addEdge (r : α → α → Prop) (p c x y : α) : Prop := r x y ∨ (x = p ∧ y = c)

variable {r : α → α → Prop} {p c x y : α}

/-- A graph without edges is acyclic. -/
theorem acyclic_of_no_edge (h : ∀ x y, ¬ r x y) :
  Acyclic r
  := by
  intro x hcycle
  obtain ⟨y, hedge, -⟩ := Relation.TransGen.head'_iff.mp hcycle
  apply h x y hedge

/-- A path through the new edge goes by old edges to its source, and by old edges on from its
target. -/
theorem transGen_addEdge :
  Relation.TransGen (addEdge r p c) x y
    ↔ Relation.TransGen r x y ∨ (Relation.ReflTransGen r x p ∧ Relation.ReflTransGen r c y)
  := by
  constructor
  · intro h
    induction h with
    | single hedge =>
        obtain hedge | ⟨rfl, rfl⟩ := hedge
        · left
          apply Relation.TransGen.single hedge
        · right
          exact ⟨Relation.ReflTransGen.refl, Relation.ReflTransGen.refl⟩
    | tail _ hedge ih =>
        obtain hedge | ⟨rfl, rfl⟩ := hedge
        · rcases ih with ih | ⟨hsource, htarget⟩
          · left
            apply ih.tail hedge
          · right
            exact ⟨hsource, htarget.tail hedge⟩
        · right
          rcases ih with ih | ⟨hsource, -⟩
          · exact ⟨ih.to_reflTransGen, Relation.ReflTransGen.refl⟩
          · exact ⟨hsource, Relation.ReflTransGen.refl⟩
  · have hold : ∀ u v, r u v → addEdge r p c u v := fun _ _ => Or.inl
    rintro (h | ⟨hsource, htarget⟩)
    · apply Relation.TransGen.mono hold _ _ h
    · have hnew : addEdge r p c p c := Or.inr ⟨rfl, rfl⟩
      apply Relation.TransGen.trans_right (Relation.ReflTransGen.mono hold _ _ hsource)
      apply Relation.TransGen.head' hnew (Relation.ReflTransGen.mono hold _ _ htarget)

/-- A new edge closes a cycle exactly when a path leads from its target to its source. -/
theorem acyclic_addEdge :
  Acyclic (addEdge r p c) ↔ Acyclic r ∧ ¬ Relation.ReflTransGen r c p
  := by
  simp only [Acyclic, transGen_addEdge, not_or, forall_and]
  apply and_congr_right
  intro _
  constructor
  · intro h hback
    apply h c
    exact ⟨hback, Relation.ReflTransGen.refl⟩
  · rintro h x ⟨hsource, htarget⟩
    apply h
    apply htarget.trans hsource

/-- When every vertex of a finite set is a root or has an edge from a vertex of the set, a path
leads to each of them from a root or from a vertex of a cycle. -/
theorem exists_root_or_cycle {S : Set α} (hS : S.Finite) {Root : α → Prop}
    (h : ∀ v ∈ S, Root v ∨ ∃ u ∈ S, r u v) {v : α} (hv : v ∈ S) :
  ∃ u, Relation.ReflTransGen r u v ∧ (Root u ∨ Relation.TransGen r u u)
  := by
  by_contra hnone
  push Not at hnone
  -- otherwise the paths order the vertices above `v`, and a least one has no edge to it
  let T : Set α := {u ∈ S | Relation.ReflTransGen r u v}
  have hfinite : Finite T := (hS.subset (fun u hu => hu.1)).to_subtype
  have htrans : IsTrans T (fun u w => Relation.TransGen r u w) := ⟨fun _ _ _ => .trans⟩
  have hirrefl : Std.Irrefl (fun u w : T => Relation.TransGen r u w) :=
    ⟨fun u => (hnone u u.2.2).2⟩
  have hwf := Finite.wellFounded_of_trans_of_irrefl (fun u w : T => Relation.TransGen r u w)
  obtain ⟨⟨u, hu, hpath⟩, -, hleast⟩ :=
    hwf.has_min Set.univ ⟨⟨v, hv, Relation.ReflTransGen.refl⟩, trivial⟩
  obtain hroot | ⟨w, hw, hedge⟩ := h u hu
  · apply (hnone u hpath).1 hroot
  · apply hleast ⟨w, hw, Relation.ReflTransGen.head hedge hpath⟩ trivial
    apply Relation.TransGen.single hedge

end Graph
