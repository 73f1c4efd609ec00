import PythonInternals.Foundation.Histogram
import PythonInternals.Foundation.Traversal

/-!
# Visiting and walking syntax trees

The functions of `ast_demo.py` that go through a syntax tree: `FunctionCollector`, which
visits the tree and collects the names of function definitions, and `count_nodes`, which
counts the classes of the nodes that `ast.walk` yields; `count_ast_nodes` of
`parser_demo.py` is the same function.

The visitor collects the names of the `def` nodes depth first (`functions_eq`), so it
finds all function definitions when none of them is an `async def`
(`functions_eq_iff`).  The walk goes breadth first and yields the same nodes, so the two
agree on how many there are (`functions_walk`).
-/

namespace Ast

/-- The class of a node, with the attribute `name` of the function definitions. -/
inductive Cls where
  | functionDef (name : String)
  | asyncFunctionDef (name : String)
  | other (name : { s : String // s ≠ "FunctionDef" ∧ s ≠ "AsyncFunctionDef" })
  deriving DecidableEq

/-- `__class__.__name__`. -/
def Cls.className : Cls → String
  | .functionDef _ => "FunctionDef"
  | .asyncFunctionDef _ => "AsyncFunctionDef"
  | .other name => name

mutual

/-- A node of a syntax tree: its class, and its fields in the order of `_fields`. -/
inductive Node where
  | mk (cls : Cls) (fields : List Field)

/-- A field holds a node, a list, of which `none` stands for the items that are no nodes,
or another value. -/
inductive Field where
  | node (n : Node)
  | list (items : List (Option Node))
  | value

end

namespace Node

def cls : Node → Cls
  | .mk cls _ => cls

def fields : Node → List Field
  | .mk _ fields => fields

end Node

/-- The nodes in a field. -/
def Field.nodes : Field → List Node
  | .node n => [n]
  | .list items => items.filterMap id
  | .value => []

/-- `ast.iter_child_nodes(node)`. -/
def iterChildNodes (node : Node) : List Node := node.fields.flatMap Field.nodes

/-! ### The visitor -/

mutual

/-- `visit(node)` of a `FunctionCollector` whose attribute `functions` is given, with the one
it leaves: `visit_FunctionDef`, or for any other class `generic_visit`. -/
def visit (functions : List String) : Node → List String
  | .mk (.functionDef name) fields => genericVisit (functions ++ [name]) fields
  | .mk (.asyncFunctionDef _) fields => genericVisit functions fields
  | .mk (.other _) fields => genericVisit functions fields

/-- `generic_visit` of a node with these fields. -/
def genericVisit (functions : List String) : List Field → List String
  | [] => functions
  | field :: fields => genericVisit (visitField functions field) fields

def visitField (functions : List String) : Field → List String
  | .node n => visit functions n
  | .list items => visitItems functions items
  | .value => functions

def visitItems (functions : List String) : List (Option Node) → List String
  | [] => functions
  | none :: items => visitItems functions items
  | some n :: items => visitItems (visit functions n) items

end

/-- `FunctionCollector().functions` after `visit(tree)`. -/
def functions (tree : Node) : List String := visit [] tree

mutual

/-- The nodes of a tree in pre-order. -/
def subnodes : Node → List Node
  | .mk cls fields => .mk cls fields :: subnodesFields fields

def subnodesFields : List Field → List Node
  | [] => []
  | field :: fields => subnodesField field ++ subnodesFields fields

def subnodesField : Field → List Node
  | .node n => subnodes n
  | .list items => subnodesItems items
  | .value => []

def subnodesItems : List (Option Node) → List Node
  | [] => []
  | none :: items => subnodesItems items
  | some n :: items => subnodes n ++ subnodesItems items

end

/-! ### The walk -/

/-- `list(ast.walk(tree))`, when its loop is left within the given number of passes. -/
def walk (tree : Node) (passes : ℕ) : Option (List Node) :=
  Loop.run (Traversal.step iterChildNodes) passes ⟨[], [tree]⟩

/-- `count_nodes(tree)`. -/
def countNodes (tree : Node) (passes : ℕ) : Option (Histogram String) :=
  (walk tree passes).map (Histogram.tally (fun node => node.cls.className))

/-- `count_ast_nodes(tree)`. -/
def countAstNodes (tree : Node) (passes : ℕ) : Option (Histogram String) :=
  (walk tree passes).map (Histogram.tally (fun node => node.cls.className))

/-! ### What the visitor collects -/

/-- The name of a `def`. -/
def Cls.defName : Cls → Option String
  | .functionDef name => some name
  | _ => none

/-- The name of a function definition, `def` or `async def`. -/
def Cls.definedName : Cls → Option String
  | .functionDef name => some name
  | .asyncFunctionDef name => some name
  | .other _ => none

/-- The names of the `def` nodes of a list, in its order. -/
def defNames (nodes : List Node) : List String := nodes.filterMap (fun node => node.cls.defName)

theorem defNames_append (nodes nodes' : List Node) :
  defNames (nodes ++ nodes') = defNames nodes ++ defNames nodes'
  := List.filterMap_append

mutual

/-- A visit adds the names of the `def` nodes of the tree, in pre-order. -/
theorem visit_eq :
    ∀ (node : Node) (functions : List String),
      visit functions node = functions ++ defNames (subnodes node)
  | .mk cls fields, functions => by
      cases cls with
      | functionDef name =>
          rw [visit, genericVisit_eq fields, subnodes, List.append_assoc]
          rfl
      | asyncFunctionDef name =>
          rw [visit, genericVisit_eq fields, subnodes]
          rfl
      | other name =>
          rw [visit, genericVisit_eq fields, subnodes]
          rfl

theorem genericVisit_eq :
    ∀ (fields : List Field) (functions : List String),
      genericVisit functions fields = functions ++ defNames (subnodesFields fields)
  | [], functions => (List.append_nil functions).symm
  | field :: fields, functions => by
      rw [genericVisit, genericVisit_eq fields, visitField_eq field, subnodesFields,
        defNames_append, List.append_assoc]

theorem visitField_eq :
    ∀ (field : Field) (functions : List String),
      visitField functions field = functions ++ defNames (subnodesField field)
  | .node n, functions => by
      rw [visitField, visit_eq n, subnodesField]
  | .list items, functions => by
      rw [visitField, visitItems_eq items, subnodesField]
  | .value, functions => (List.append_nil functions).symm

theorem visitItems_eq :
    ∀ (items : List (Option Node)) (functions : List String),
      visitItems functions items = functions ++ defNames (subnodesItems items)
  | [], functions => (List.append_nil functions).symm
  | none :: items, functions => by
      rw [visitItems, visitItems_eq items, subnodesItems]
  | some n :: items, functions => by
      rw [visitItems, visitItems_eq items, visit_eq n, subnodesItems, defNames_append,
        List.append_assoc]

end

/-- The visitor collects the names of the `def` nodes of the tree, in pre-order. -/
theorem functions_eq (tree : Node) :
  functions tree = defNames (subnodes tree)
  := visit_eq tree []

/-- The names of the function definitions of a list, `def` and `async def`, in its order. -/
def definedNames (nodes : List Node) : List String :=
  nodes.filterMap (fun node => node.cls.definedName)

/-- The class is `AsyncFunctionDef`. -/
def Cls.isAsync : Cls → Bool
  | .asyncFunctionDef _ => true
  | _ => false

/-- The function definitions of a list are its `def` nodes and its `async def` nodes. -/
theorem length_definedNames (nodes : List Node) :
  (definedNames nodes).length
    = (defNames nodes).length + nodes.countP (fun node => node.cls.isAsync)
  := by
  rw [definedNames, defNames, List.length_filterMap_eq_countP, List.length_filterMap_eq_countP]
  induction nodes with
  | nil => rfl
  | cons node nodes ih =>
      have hnode : (if node.cls.definedName.isSome = true then 1 else 0)
          = (if node.cls.defName.isSome = true then 1 else 0)
            + (if node.cls.isAsync = true then 1 else 0) := by
        cases node.cls <;> rfl
      simp only [List.countP_cons, ih, hnode]
      omega

theorem definedNames_eq {nodes : List Node} (h : ∀ node ∈ nodes, node.cls.isAsync = false) :
  definedNames nodes = defNames nodes
  := by
  apply List.filterMap_congr
  intro node hnode
  have hasync := h node hnode
  cases hcls : node.cls with
  | functionDef name => rfl
  | asyncFunctionDef name =>
      rw [hcls] at hasync
      cases hasync
  | other name => rfl

/-- The visitor collects the names of all function definitions, each once and in pre-order,
exactly when the tree has no `async def`. -/
theorem functions_eq_iff (tree : Node) :
  functions tree = definedNames (subnodes tree)
    ↔ ∀ node ∈ subnodes tree, node.cls.isAsync = false
  := by
  rw [functions_eq]
  constructor
  · intro h
    have hlength := length_definedNames (subnodes tree)
    have hasync : (subnodes tree).countP (fun node => node.cls.isAsync) = 0 := by
      rw [← h] at hlength
      omega
    intro node hnode
    apply Bool.eq_false_iff.mpr (List.countP_eq_zero.mp hasync node hnode)
  · intro h
    rw [definedNames_eq h]

/-- The tree of a module with one `async def`. -/
def asyncModule : Node :=
  .mk (.other ⟨"Module", by decide⟩) [.list [some (.mk (.asyncFunctionDef "f") [])], .list []]

theorem functions_asyncModule :
  functions asyncModule = [] ∧ definedNames (subnodes asyncModule) = ["f"]
  := by
  decide

/-! ### The visitor and the walk -/

theorem subnodesItems_eq (items : List (Option Node)) :
  subnodesItems items = (items.filterMap id).flatMap subnodes
  := by
  induction items with
  | nil => rfl
  | cons item items ih =>
      cases item with
      | none =>
          rw [subnodesItems, ih]
          rfl
      | some n =>
          rw [subnodesItems, ih]
          rfl

theorem subnodesField_eq (field : Field) :
  subnodesField field = field.nodes.flatMap subnodes
  := by
  cases field with
  | node n => rw [subnodesField, Field.nodes, List.flatMap_singleton]
  | list items => rw [subnodesField, Field.nodes, subnodesItems_eq]
  | value => rfl

theorem subnodesFields_eq (fields : List Field) :
  subnodesFields fields = (fields.flatMap Field.nodes).flatMap subnodes
  := by
  induction fields with
  | nil => rfl
  | cons field fields ih =>
      rw [subnodesFields, ih, subnodesField_eq, List.flatMap_cons, List.flatMap_append]

/-- The pre-order of a tree lists the node, and then what its child nodes give. -/
theorem isPreorder_subnodes :
  Traversal.IsPreorder iterChildNodes subnodes
  := by
  rintro ⟨cls, fields⟩
  rw [subnodes, subnodesFields_eq]
  rfl

theorem count_defNames (nodes : List Node) (x : String) :
  (defNames nodes).count x = nodes.countP (fun node => node.cls = .functionDef x)
  := by
  rw [defNames, List.count_filterMap]
  apply List.countP_congr
  intro node _
  cases node.cls <;> simp [Cls.defName]

theorem length_defNames (nodes : List Node) :
  (defNames nodes).length = nodes.countP (fun node => node.cls.className = "FunctionDef")
  := by
  rw [defNames, List.length_filterMap_eq_countP]
  apply List.countP_congr
  intro node _
  cases node.cls with
  | functionDef name => simp [Cls.defName, Cls.className]
  | asyncFunctionDef name => simp [Cls.defName, Cls.className]
  | other name => simp [Cls.defName, Cls.className, name.property.1]

/-- The visitor and the walk agree: the walk ends, a name occurs among those that the visitor
collects as often as the walk yields `def` nodes of that name, and there are as many names as
`count_nodes` counts for the class. -/
theorem functions_walk (tree : Node) :
  ∃ nodes counts,
    (∃ n, ∀ m, n ≤ m → walk tree m = some nodes ∧
      countNodes tree m = some counts ∧ countAstNodes tree m = some counts) ∧
    (∀ x, (functions tree).count x = nodes.countP (fun node => node.cls = .functionDef x)) ∧
    (functions tree).length = counts.get "FunctionDef" 0
  := by
  obtain ⟨nodes, hwalk, hperm⟩ := Traversal.exists_walk isPreorder_subnodes [tree]
  rw [List.flatMap_singleton] at hperm
  use nodes, Histogram.tally (fun node => node.cls.className) nodes
  and_intros
  · use ([tree].flatMap subnodes).length + 1
    intro m hm
    have hnodes : walk tree m = some nodes := hwalk m hm
    rw [countNodes, countAstNodes, hnodes]
    exact ⟨rfl, rfl, rfl⟩
  · intro x
    rw [functions_eq, count_defNames, hperm.countP_eq]
  · rw [functions_eq, length_defNames, Histogram.get_tally, hperm.countP_eq]

end Ast
