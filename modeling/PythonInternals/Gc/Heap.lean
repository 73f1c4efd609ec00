import Mathlib.Data.Int.Notation
import Mathlib.Data.List.Nodup
import Mathlib.Tactic.SplitIfs
import Mathlib.Logic.Function.Basic
import PythonInternals.Foundation.ForLoop

/-!
# The heap of collected nodes

The objects of `GCNode` in `gc_cycles_demo.py` and the two ways of touching them, the
constructor and `add_ref`.  An object is known by its identity, an element of a type `ι`
with decidable equality: that is how Python compares and hashes the instances of a class
without `__eq__`.

`build` runs a list of calls from the empty heap.  Whatever it builds is `WellFormed`:
the lists `refs` and `_ref_by` record the same edges from their two ends, between nodes
of `GCNode._all`, in which every node occurs once.
-/

namespace Gc

/-- The attributes of an instance of `GCNode`. -/
structure GCNode (ι : Type*) where
  name : String
  refs : List ι
  refBy : List ι
  gcRefs : ℤ

/-- The class attribute `GCNode._all` and the attributes of every instance.  An identity
that no instance has carries the attributes of a blank node. -/
structure Heap (ι : Type*) where
  all : List ι
  node : ι → GCNode ι

namespace Heap

variable {ι : Type*}

def refs (h : Heap ι) (x : ι) : List ι := (h.node x).refs

def refBy (h : Heap ι) (x : ι) : List ι := (h.node x).refBy

def gcRefs (h : Heap ι) (x : ι) : ℤ := (h.node x).gcRefs

/-- The heap before the first call. -/
def empty : Heap ι where
  all := []
  node _ := ⟨"", [], [], 1⟩

variable [DecidableEq ι]

/-- Change the attributes of one instance. -/
def modify (h : Heap ι) (x : ι) (f : GCNode ι → GCNode ι) : Heap ι where
  all := h.all
  node := Function.update h.node x (f (h.node x))

/-- `GCNode.__init__`, for a new instance with the identity `self`. -/
def init (h : Heap ι) (self : ι) (name : String) : Heap ι where
  all := h.all ++ [self]
  node := Function.update h.node self ⟨name, [], [], 1⟩

/-- `self.add_ref(target)`. -/
def addRef (h : Heap ι) (self target : ι) : Heap ι :=
  (h.modify self (fun n => { n with refs := n.refs ++ [target] })).modify target
    (fun n => { n with refBy := n.refBy ++ [self] })

theorem refs_init (h : Heap ι) (self : ι) (name : String) (x : ι) :
  (h.init self name).refs x = if x = self then [] else h.refs x
  := by
  simp only [refs, init, Function.update_apply]
  split <;> rfl

theorem refBy_init (h : Heap ι) (self : ι) (name : String) (x : ι) :
  (h.init self name).refBy x = if x = self then [] else h.refBy x
  := by
  simp only [refBy, init, Function.update_apply]
  split <;> rfl

theorem refs_addRef (h : Heap ι) (self target x : ι) :
  (h.addRef self target).refs x = if x = self then h.refs x ++ [target] else h.refs x
  := by
  simp only [refs, addRef, modify, Function.update_apply]
  split_ifs <;> simp_all

theorem refBy_addRef (h : Heap ι) (self target x : ι) :
  (h.addRef self target).refBy x = if x = target then h.refBy x ++ [self] else h.refBy x
  := by
  simp only [refBy, addRef, modify, Function.update_apply]
  split_ifs <;> simp_all

theorem gcRefs_init (h : Heap ι) (self : ι) (name : String) (x : ι) :
  (h.init self name).gcRefs x = if x = self then 1 else h.gcRefs x
  := by
  simp only [gcRefs, init, Function.update_apply]
  split_ifs <;> rfl

theorem gcRefs_addRef (h : Heap ι) (self target x : ι) :
  (h.addRef self target).gcRefs x = h.gcRefs x
  := by
  simp only [gcRefs, addRef, modify, Function.update_apply]
  split_ifs <;> simp_all

/-- `refs` and `_ref_by` record the same edges, between nodes of `GCNode._all`, where
every node occurs once. -/
structure WellFormed (h : Heap ι) : Prop where
  nodup : h.all.Nodup
  refs_mem : ∀ u v, v ∈ h.refs u → u ∈ h.all ∧ v ∈ h.all
  count_refs : ∀ u v, (h.refs u).count v = (h.refBy v).count u

theorem WellFormed.empty :
  (Heap.empty : Heap ι).WellFormed
  where
  nodup := List.nodup_nil
  refs_mem u v hv := by simp [Heap.empty, refs] at hv
  count_refs u v := rfl

variable {h : Heap ι}

/-- An edge can be read off at both of its ends. -/
theorem WellFormed.mem_refBy (hwf : h.WellFormed) {u v : ι} :
  u ∈ h.refBy v ↔ v ∈ h.refs u
  := by
  rw [← List.count_pos_iff, ← List.count_pos_iff, hwf.count_refs]

theorem WellFormed.refs_eq_nil (hwf : h.WellFormed) {x : ι} (hx : x ∉ h.all) :
  h.refs x = []
  := by
  apply List.eq_nil_iff_forall_not_mem.mpr
  intro v hv
  apply hx (hwf.refs_mem x v hv).1

theorem WellFormed.refBy_eq_nil (hwf : h.WellFormed) {x : ι} (hx : x ∉ h.all) :
  h.refBy x = []
  := by
  apply List.eq_nil_iff_forall_not_mem.mpr
  intro u hu
  apply hx (hwf.refs_mem u x (hwf.mem_refBy.mp hu)).2

/-- The constructor keeps the heap well formed, as the identity it uses is new. -/
theorem WellFormed.init (hwf : h.WellFormed) {self : ι} (hself : self ∉ h.all) (name : String) :
  (h.init self name).WellFormed
  where
  nodup := by
    apply List.Nodup.append hwf.nodup (List.nodup_singleton self)
    simpa using hself
  refs_mem u v hv := by
    rw [refs_init] at hv
    split_ifs at hv with hu
    · cases hv
    · obtain ⟨hu', hv'⟩ := hwf.refs_mem u v hv
      exact ⟨List.mem_append_left _ hu', List.mem_append_left _ hv'⟩
  count_refs u v := by
    rw [refs_init, refBy_init]
    split_ifs with hu hv hv
    · rfl
    · subst hu
      rw [← hwf.count_refs, hwf.refs_eq_nil hself]
    · subst hv
      rw [hwf.count_refs, hwf.refBy_eq_nil hself]
    · apply hwf.count_refs

/-- `add_ref` keeps the heap well formed: it writes the new edge at both of its ends. -/
theorem WellFormed.addRef (hwf : h.WellFormed) {self target : ι}
    (hself : self ∈ h.all) (htarget : target ∈ h.all) :
  (h.addRef self target).WellFormed
  where
  nodup := hwf.nodup
  refs_mem u v hv := by
    rw [refs_addRef] at hv
    split_ifs at hv with hu
    · rcases List.mem_append.mp hv with hv | hv
      · apply hwf.refs_mem u v hv
      · rw [List.mem_singleton.mp hv, hu]
        exact ⟨hself, htarget⟩
    · apply hwf.refs_mem u v hv
  count_refs u v := by
    have hcount := hwf.count_refs u v
    rw [refs_addRef, refBy_addRef]
    split_ifs with hu hv hv
    · subst hu hv
      simpa using hcount
    · simpa [List.count_singleton, Ne.symm hv] using hcount
    · simpa [List.count_singleton, Ne.symm hu] using hcount
    · apply hcount

end Heap

/-! ### Building a heap -/

/-- A call of the constructor or of `add_ref`. -/
inductive Call (ι : Type*) where
  | init (self : ι) (name : String)
  | addRef (self target : ι)

variable {ι : Type*} [DecidableEq ι]

/-- Perform a call: a new instance has an identity that no instance has, and `add_ref` is
called on instances. -/
def Call.exec (h : Heap ι) : Call ι → Option (Heap ι)
  | .init self name => if self ∈ h.all then none else some (h.init self name)
  | .addRef self target =>
      if self ∈ h.all ∧ target ∈ h.all then some (h.addRef self target) else none

/-- The heap that a sequence of calls builds. -/
def build (calls : List (Call ι)) : Option (Heap ι) :=
  calls.foldlM Call.exec Heap.empty

theorem Call.exec_wellFormed {h h' : Heap ι} (hwf : h.WellFormed) {c : Call ι}
    (hc : c.exec h = some h') :
  h'.WellFormed
  := by
  cases c with
  | init self name =>
      simp only [exec] at hc
      split_ifs at hc with hself
      obtain rfl := Option.some.inj hc
      apply hwf.init hself
  | addRef self target =>
      simp only [exec] at hc
      split_ifs at hc with hmem
      obtain rfl := Option.some.inj hc
      apply hwf.addRef hmem.1 hmem.2

/-- Every heap that calls build is well formed. -/
theorem build_wellFormed {calls : List (Call ι)} {h : Heap ι} (hb : build calls = some h) :
  h.WellFormed
  := by
  apply ForLoop.foldlM_invariant _ hb Heap.WellFormed.empty
  intro h c h' hwf hc
  apply Call.exec_wellFormed hwf hc

/-- A call assigns no other number than 1 to `gc_refs`. -/
theorem Call.exec_gcRefs {h h' : Heap ι} (hone : ∀ x, h.gcRefs x = 1) {c : Call ι}
    (hc : c.exec h = some h') (x : ι) :
  h'.gcRefs x = 1
  := by
  cases c with
  | init self name =>
      simp only [exec] at hc
      split_ifs at hc
      obtain rfl := Option.some.inj hc
      rw [Heap.gcRefs_init, hone, ite_self]
  | addRef self target =>
      simp only [exec] at hc
      split_ifs at hc
      obtain rfl := Option.some.inj hc
      rw [Heap.gcRefs_addRef, hone]

/-- In a heap that calls build, every `gc_refs` is the 1 that the constructor assigned. -/
theorem gcRefs_build {calls : List (Call ι)} {h : Heap ι} (hb : build calls = some h) :
  ∀ x, h.gcRefs x = 1
  := by
  apply ForLoop.foldlM_invariant _ hb
  · intro x
    rfl
  · intro h c h' hone hc
    apply Call.exec_gcRefs hone hc

end Gc
