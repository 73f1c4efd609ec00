import Mathlib.Data.List.Flatten
import Mathlib.Data.List.Perm.Basic
import PythonInternals.Foundation.Loop

/-!
# Breadth first and depth first

The nodes of a tree, with `children x` the list of the children of `x`.  `step` is a pass of
the breadth-first loop: it takes the first node off a queue, puts its children behind the
others and gives out the node.  A depth-first list of the nodes is a function `pre` with
`IsPreorder children pre`: first the node, then what its children give.

The loop ends, and what it gives out is a permutation of the depth-first list of what its
queue holds (`exists_walk`).
-/

namespace Traversal

variable {α : Type*}

/-- The nodes that the loop has given out, and those in its queue. -/
structure State (α : Type*) where
  output : List α
  todo : List α

/-- A pass of the breadth-first loop, which ends when the queue is empty. -/
def step (children : α → List α) : State α → Except (List α) (State α)
  | ⟨output, []⟩ => .error output
  | ⟨output, node :: todo⟩ => .ok ⟨output ++ [node], todo ++ children node⟩

/-- `pre x` lists the nodes below `x` depth first, the parent before its children. -/
def IsPreorder (children : α → List α) (pre : α → List α) : Prop :=
  ∀ x, pre x = x :: (children x).flatMap pre

variable {children pre : α → List α}

/-- A pass that goes on keeps, up to the order, what is given out or still below the queue. -/
theorem step_perm (hpre : IsPreorder children pre) {s s' : State α}
    (h : step children s = .ok s') :
  (s'.output ++ s'.todo.flatMap pre).Perm (s.output ++ s.todo.flatMap pre)
  := by
  obtain ⟨output, _ | ⟨node, todo⟩⟩ := s
  · cases h
  · obtain rfl := Except.ok.inj h
    simp only [List.flatMap_append, List.flatMap_cons, hpre node, List.append_assoc,
      List.cons_append, List.nil_append]
    apply List.Perm.append_left
    apply List.Perm.cons
    apply List.perm_append_comm

/-- A pass that goes on leaves one node fewer below the queue. -/
theorem step_length (hpre : IsPreorder children pre) {s s' : State α}
    (h : step children s = .ok s') :
  (s'.todo.flatMap pre).length < (s.todo.flatMap pre).length
  := by
  obtain ⟨output, _ | ⟨node, todo⟩⟩ := s
  · cases h
  · obtain rfl := Except.ok.inj h
    simp only [List.flatMap_append, List.flatMap_cons, hpre node, List.length_append,
      List.length_cons]
    omega

theorem step_exit {s : State α} {output : List α} (h : step children s = .error output) :
  s = ⟨output, []⟩
  := by
  obtain ⟨output, _ | ⟨node, todo⟩⟩ := s
  · rw [Except.error.inj h]
  · cases h

/-- The loop ends, having given out the nodes below its queue, each as often as the
depth-first list has it. -/
theorem exists_walk (hpre : IsPreorder children pre) (todo : List α) :
  ∃ nodes, (∀ n, (todo.flatMap pre).length < n →
      Loop.run (step children) n ⟨[], todo⟩ = some nodes) ∧
    nodes.Perm (todo.flatMap pre)
  := by
  obtain ⟨nodes, hrun⟩ := Loop.run_of_variant (I := fun _ => True)
    (fun s : State α => (s.todo.flatMap pre).length)
    (fun s s' _ hstep => ⟨trivial, step_length hpre hstep⟩) (s := ⟨[], todo⟩) trivial
    (Nat.lt_succ_self _)
  use nodes
  constructor
  · intro n hn
    apply Loop.run_mono hn hrun
  · have hperm := Loop.run_post
      (I := fun s : State α => (s.output ++ s.todo.flatMap pre).Perm (todo.flatMap pre))
      (P := fun nodes => (nodes ++ []).Perm (todo.flatMap pre))
      (fun s s' hs hstep => (step_perm hpre hstep).trans hs)
      (fun s nodes hs hexit => by rw [step_exit hexit] at hs; exact hs)
      (List.Perm.refl _) hrun
    rwa [List.append_nil] at hperm

end Traversal
