import Mathlib.Logic.Function.Basic
import Mathlib.Tactic.SplitIfs
import PythonInternals.Foundation.Acyclic
import PythonInternals.Foundation.LatestWrite
import PythonInternals.Foundation.Search

/-!
# Nodes with weak parents

The class `WeakNode` of `weakref_demo.py`: a node lists its children, and knows its parent
through a weak reference.  `nodes` gives the attributes of every node; all of them stay
alive, so a weak reference always gives back the node it was made of.

The two links are kept apart, by `add_child` and by the setter of `parent`: the list has a
child as often as `add_child` was called, and the parent is the one that was given last
(`weakNode_links`).  Nothing prevents the children from closing a cycle: the strong
references are free of cycles as long as no node becomes a child of one that is reached
from it (`acyclic_iff`).
-/

/-- The attributes of an instance of `WeakNode`; `_parent_ref` is `none` until it is set. -/
structure WeakNode (ι : Type*) where
  name : String
  children : List ι
  parentRef : Option ι

namespace WeakNode

variable {ι : Type*}

/-- The getter of `parent`. -/
def parent (self : WeakNode ι) : Option ι := self.parentRef

/-- The setter of `parent`. -/
def setParent (self : WeakNode ι) : Option ι → WeakNode ι
  | some value => { self with parentRef := some value }
  | none => self

/-- `WeakNode.__init__`, which assigns `None` to `parent`. -/
def init (name : String) : WeakNode ι :=
  setParent { name := name, children := [], parentRef := none } none

end WeakNode

namespace WeakNodes

/-- The attributes of every node. -/
abbrev Nodes (ι : Type*) : Type _ := ι → WeakNode ι

/-- An operation on the nodes: `self.add_child(child)`, or `self.parent = value`. -/
inductive Op (ι : Type*) where
  | addChild (self child : ι)
  | setParent (self : ι) (value : Option ι)
  deriving DecidableEq

variable {ι : Type*} [DecidableEq ι]

/-- Change the attributes of one node. -/
def modify (nodes : Nodes ι) (x : ι) (f : WeakNode ι → WeakNode ι) : Nodes ι :=
  Function.update nodes x (f (nodes x))

/-- `self.add_child(child)`. -/
def addChild (nodes : Nodes ι) (self child : ι) : Nodes ι :=
  modify (modify nodes self (fun n => { n with children := n.children ++ [child] })) child
    (fun n => { n with parentRef := some self })

/-- `self.parent = value`. -/
def setParent (nodes : Nodes ι) (self : ι) (value : Option ι) : Nodes ι :=
  modify nodes self (fun n => n.setParent value)

/-- Perform an operation. -/
def exec (nodes : Nodes ι) : Op ι → Nodes ι
  | .addChild self child => addChild nodes self child
  | .setParent self value => setParent nodes self value

/-- Perform operations on new nodes with the given names. -/
def run (names : ι → String) (ops : List (Op ι)) : Nodes ι :=
  ops.foldl exec (fun x => WeakNode.init (names x))

theorem run_concat (names : ι → String) (ops : List (Op ι)) (op : Op ι) :
  run names (ops ++ [op]) = exec (run names ops) op
  := List.foldl_concat _ _ _ _

theorem modify_apply (nodes : Nodes ι) (x : ι) (f : WeakNode ι → WeakNode ι) (y : ι) :
  modify nodes x f y = if y = x then f (nodes y) else nodes y
  := by
  rw [modify, Function.update_apply]
  split_ifs with h
  · rw [h]
  · rfl

/-- `add_child` lists the child once more, and nothing else changes any list of children. -/
theorem children_exec (nodes : Nodes ι) (op : Op ι) (p : ι) :
  (exec nodes op p).children = (nodes p).children ++
    (match op with
      | .addChild self child => if self = p then [child] else []
      | .setParent _ _ => [])
  := by
  cases op with
  | addChild self child =>
      simp only [exec, addChild, modify_apply, eq_comm (a := self)]
      split_ifs
      all_goals simp
  | setParent self value =>
      simp only [exec, setParent, modify_apply, List.append_nil]
      split_ifs
      · cases value <;> rfl
      · rfl

/-! ### The links after a run -/

/-- What an operation gives to the node `c` as its parent, if it gives it anything: a node,
or `None`. -/
def Op.given (c : ι) : Op ι → Option (Option ι)
  | .addChild self child => if child = c then some (some self) else none
  | .setParent self value => if self = c then some value else none

/-- The last thing that the operations give to `c` as its parent, if they give it anything. -/
def lastGiven (c : ι) (ops : List (Op ι)) : Option (Option ι) :=
  LatestWrite.latest (Op.given c) ops

/-- A node that is given to `c` as its parent is its parent. -/
theorem parent_exec_of_given {nodes : Nodes ι} {op : Op ι} {c v : ι}
    (h : op.given c = some (some v)) :
  (exec nodes op c).parent = some v
  := by
  cases op with
  | addChild self child =>
      simp only [Op.given] at h
      split_ifs at h with hc
      obtain rfl := Option.some.inj (Option.some.inj h)
      simp [exec, addChild, modify_apply, hc, WeakNode.parent]
  | setParent self value =>
      simp only [Op.given] at h
      split_ifs at h with hc
      obtain rfl := Option.some.inj h
      simp [exec, setParent, modify_apply, hc, WeakNode.parent, WeakNode.setParent]

/-- An operation that gives `c` no parent leaves its parent as it is. -/
theorem parent_exec_of_not_given {nodes : Nodes ι} {op : Op ι} {c : ι} (h : op.given c = none) :
  (exec nodes op c).parent = (nodes c).parent
  := by
  cases op with
  | addChild self child =>
      simp only [Op.given] at h
      split_ifs at h with hc
      simp only [exec, addChild, modify_apply, Ne.symm hc, if_false]
      split_ifs
      · rfl
      · rfl
  | setParent self value =>
      simp only [Op.given] at h
      split_ifs at h with hc
      simp only [exec, setParent, modify_apply, Ne.symm hc, if_false]

/-- The parent of a node is the one given to it last, unless that was `None`. -/
theorem parent_run (names : ι → String) (ops : List (Op ι)) {c : ι}
    (hnone : lastGiven c ops ≠ some none) :
  (run names ops c).parent = (lastGiven c ops).join
  := by
  have hwrite : ∀ (nodes : Nodes ι) op v, Op.given c op = some v → v ≠ none →
      (exec nodes op c).parent = v := by
    intro nodes op v hgiven hv
    obtain ⟨u, rfl⟩ := Option.ne_none_iff_exists'.mp hv
    apply parent_exec_of_given hgiven
  obtain ⟨hlatest, hempty⟩ := LatestWrite.read_foldl (fun nodes : Nodes ι => (nodes c).parent)
    (fun v => v ≠ none) hwrite (fun _ _ => parent_exec_of_not_given) ops
    (fun x => WeakNode.init (names x))
  cases h : lastGiven c ops with
  | none => apply hempty h
  | some v =>
      apply hlatest v h
      rintro rfl
      apply hnone h

/-- A node is listed as a child as often as it was added. -/
theorem count_children_run (names : ι → String) (ops : List (Op ι)) (p c : ι) :
  (run names ops p).children.count c = ops.count (.addChild p c)
  := by
  induction ops using List.reverseRecOn with
  | nil => rfl
  | append_singleton ops op ih =>
      rw [run_concat, children_exec, List.count_append, List.count_append, ih]
      congr 1
      cases op with
      | addChild self child =>
          by_cases hp : self = p
          · simp [hp, List.count_singleton]
          · simp [hp]
      | setParent self value => rfl

theorem mem_children_run (names : ι → String) (ops : List (Op ι)) (p c : ι) :
  c ∈ (run names ops p).children ↔ .addChild p c ∈ ops
  := by
  rw [← List.count_pos_iff, count_children_run, List.count_pos_iff]

/-- When nothing is assigned to `c.parent`, what is given to `c` last is given by `add_child`. -/
theorem exists_addChild_of_lastGiven {ops : List (Op ι)} {c : ι} {v : Option ι}
    (hset : ∀ v, .setParent c v ∉ ops) (hlast : lastGiven c ops = some v) :
  ∃ q, v = some q ∧ .addChild q c ∈ ops
  := by
  obtain ⟨op, hop, hgiven⟩ := LatestWrite.exists_write_of_latest hlast
  cases op with
  | addChild self child =>
      simp only [Op.given] at hgiven
      split_ifs at hgiven with hchild
      use self
      rw [← hchild]
      exact ⟨(Option.some.inj hgiven).symm, hop⟩
  | setParent self value =>
      simp only [Op.given] at hgiven
      split_ifs at hgiven with hself
      rw [hself] at hop
      exact absurd hop (hset value)

/-- `add_child` gives the child a parent. -/
theorem lastGiven_ne_none {ops : List (Op ι)} {p c : ι} (h : .addChild p c ∈ ops) :
  lastGiven c ops ≠ none
  := by
  intro hnone
  have hnever := LatestWrite.latest_eq_none.mp hnone _ h
  simp [Op.given] at hnever

/-- A node whose parents were all given to it by `add_child`, and were all the same node, is
listed by that node and has it as its parent, or it has neither. -/
theorem mem_children_iff_parent (names : ι → String) {ops : List (Op ι)} {c : ι}
    (hset : ∀ v, .setParent c v ∉ ops)
    (hadd : ∀ q q', .addChild q c ∈ ops → .addChild q' c ∈ ops → q = q') (p : ι) :
  c ∈ (run names ops p).children ↔ (run names ops c).parent = some p
  := by
  have hnone : lastGiven c ops ≠ some none := by
    intro h
    obtain ⟨q, hq, -⟩ := exists_addChild_of_lastGiven hset h
    cases hq
  rw [mem_children_run, parent_run names ops hnone]
  constructor
  · intro hp
    obtain ⟨v, hlast⟩ := Option.ne_none_iff_exists'.mp (lastGiven_ne_none hp)
    obtain ⟨q, rfl, hq⟩ := exists_addChild_of_lastGiven hset hlast
    rw [hlast, hadd p q hp hq]
    rfl
  · intro hp
    obtain ⟨q, hq, hmem⟩ := exists_addChild_of_lastGiven hset (Option.join_eq_some_iff.mp hp)
    rw [Option.some.inj hq]
    exact hmem

/-- The links after any operations on new nodes: the parent of a node is the one given to it
last, unless that was `None`; the list of a node has a child as often as it was added; and
the two agree on a node whose parents were all given to it by `add_child` and were all the
same node. -/
theorem weakNode_links (names : ι → String) (ops : List (Op ι)) (p c : ι) :
  (lastGiven c ops ≠ some none → (run names ops c).parent = (lastGiven c ops).join) ∧
    (run names ops p).children.count c = ops.count (.addChild p c) ∧
    (c ∈ (run names ops p).children ↔ .addChild p c ∈ ops) ∧
    ((∀ v, .setParent c v ∉ ops) →
      (∀ q q', .addChild q c ∈ ops → .addChild q' c ∈ ops → q = q') →
      (c ∈ (run names ops p).children ↔ (run names ops c).parent = some p))
  := by
  and_intros
  · apply parent_run
  · apply count_children_run
  · apply mem_children_run
  · intro hset hadd
    apply mem_children_iff_parent names hset hadd

theorem weakNode_links_addChild :
  (run (fun _ : ℕ => "node") [.addChild 0 1] 1).parent = some 0 ∧
    (1 ∈ (run (fun _ : ℕ => "node") [.addChild 0 1] 0).children
      ↔ (run (fun _ : ℕ => "node") [.addChild 0 1] 1).parent = some 0)
  := by
  obtain ⟨hparent, -, -, hagree⟩ := weakNode_links (fun _ : ℕ => "node") [.addChild 0 1] 0 1
  constructor
  · apply hparent
    decide
  · apply hagree
    · simp
    · intro q q' hq hq'
      simp only [List.mem_singleton, Op.addChild.injEq, and_true] at hq hq'
      rw [hq, hq']

/-- `wc.parent = wp`, as in `main`, does not make `wc` a child of `wp`. -/
theorem weakNode_setParent_only :
  (run (fun x : ℕ => if x = 0 then "weak-parent" else "weak-child") [.setParent 1 (some 0)]
      1).parent = some 0 ∧
    1 ∉ (run (fun x : ℕ => if x = 0 then "weak-parent" else "weak-child") [.setParent 1 (some 0)]
      0).children
  := by
  decide

/-! ### Strong references -/

/-- The strong references among the nodes: from a node to its children. -/
def Strong (nodes : Nodes ι) : ι → ι → Prop := Search.Edge (fun x => (nodes x).children)

omit [DecidableEq ι] in
theorem strong_iff {nodes : Nodes ι} {x y : ι} :
  Strong nodes x y ↔ y ∈ (nodes x).children
  := Iff.rfl

/-- `add_child` makes one strong reference. -/
theorem strong_exec_addChild (nodes : Nodes ι) (p c : ι) :
  Strong (exec nodes (.addChild p c)) = Graph.addEdge (Strong nodes) p c
  := by
  funext x y
  simp only [strong_iff, children_exec, Graph.addEdge, List.mem_append, eq_iff_iff]
  by_cases h : p = x
  · simp [h]
  · simp [h, Ne.symm h]

/-- The setter of `parent` makes no strong reference. -/
theorem strong_exec_setParent (nodes : Nodes ι) (c : ι) (v : Option ι) :
  Strong (exec nodes (.setParent c v)) = Strong nodes
  := by
  funext x y
  simp only [strong_iff, children_exec, List.append_nil]

/-- New nodes have no strong references. -/
theorem not_strong_init (names : ι → String) (x y : ι) :
  ¬ Strong (run names []) x y
  := by
  simp [strong_iff, run, WeakNode.init, WeakNode.setParent]

/-- The strong references have no cycle in any state of a run exactly when no `add_child` of
the run makes a child of a node from which the parent is reached already, by children. -/
theorem acyclic_iff (names : ι → String) (ops : List (Op ι)) :
  (∀ before, before <+: ops → Graph.Acyclic (Strong (run names before)))
    ↔ ∀ before p c, before ++ [.addChild p c] <+: ops →
        ¬ Search.Path (fun x => (run names before x).children) c p
  := by
  constructor
  · intro h before p c hbefore
    have hacyclic := h _ hbefore
    rw [run_concat, strong_exec_addChild, Graph.acyclic_addEdge] at hacyclic
    apply hacyclic.2
  · intro h before hbefore
    induction before using List.reverseRecOn with
    | nil => apply Graph.acyclic_of_no_edge (not_strong_init names)
    | append_singleton before op ih =>
        have hacyclic := ih ((List.prefix_append _ _).trans hbefore)
        rw [run_concat]
        cases op with
        | addChild p c =>
            rw [strong_exec_addChild, Graph.acyclic_addEdge]
            exact ⟨hacyclic, h before p c hbefore⟩
        | setParent c v => rwa [strong_exec_setParent]

/-- Two nodes that are made children of each other keep each other alive. -/
theorem weakNode_cycle :
  ¬ Graph.Acyclic
    (Strong (run (fun x : ℕ => if x = 0 then "a" else "b") [.addChild 0 1, .addChild 1 0]))
  := by
  intro hacyclic
  apply hacyclic 0
  apply Relation.TransGen.tail (b := 1)
  · apply Relation.TransGen.single
    apply strong_iff.mpr
    decide
  · apply strong_iff.mpr
    decide

end WeakNodes
