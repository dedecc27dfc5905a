import QueryAccess.Dict
import QueryAccess.DropRule.Basic
import QueryAccess.Json.Basic
import QueryAccess.Policy
import QueryAccess.Tree.Path

/-!
# Nodes of a tree

A node stands for an operation, a field, an argument, a field of an object or an element
of a list. Its children are the arguments and object fields (*inputs*), the selected
fields (*outputs*) – both by name – and the list elements (*items*) by position. A node
of a query may hold a value, and the name of the field that an alias stands for; a node
of a rule tree holds a policy, and drop rules where its note has some.

**Looking.** Three ways lead down from a node, and they differ in how a segment picks a
child: `QueryAccess.Node.child?` goes by key and position;
`QueryAccess.Node.resolve` goes for outputs by field name, so that several aliases of one
field all match; `QueryAccess.Node.ruleChild?` looks past the elements of lists, so that
what a rule says of one element is found without an index.

**Merging.** `QueryAccess.Node.merge` overlays one node by another: the children are
united, children of one name merged, items merged position by position, and of what a
node holds itself the overlaying node's wins where it has it.
-/

namespace QueryAccess

/-- A node with its subtree. -/
structure Node where
  inputs : List (String × Node)
  outputs : List (String × Node)
  items : List Node
  value : Option Json
  /-- The name of the field, where the node stands under an alias. -/
  fieldName : Option String
  policy : Option Policy
  dropRules : Option (List DropRule)

namespace Node

/-- The node with nothing in it. -/
def empty : Node := ⟨[], [], [], none, none, none, none⟩

/-- The node with a policy, or without, and nothing else. -/
def ofPolicy (policy : Option Policy) : Node := { empty with policy := policy }

instance : Inhabited Node := ⟨empty⟩

/-- A node without children. -/
def isLeaf (node : Node) : Bool :=
  node.inputs.isEmpty && node.outputs.isEmpty && node.items.isEmpty

/-! ### Children -/

/-- The children with their segments: inputs by name, outputs by name, items by
position. -/
def children (node : Node) : List (Segment × Node) :=
  node.inputs.map (fun (name, child) => (.named .input name, child)) ++
    node.outputs.map (fun (name, child) => (.named .output name, child)) ++
    node.items.zipIdx.map fun (child, i) => (.index i, child)

/-- The child at a segment. -/
def child? (node : Node) : Segment → Option Node
  | .named .input name => node.inputs.lookup name
  | .named .output name => node.outputs.lookup name
  | .index i => node.items[i]?

/-- The node at the end of a list of segments. -/
def get? (node : Node) : List Segment → Option Node
  | [] => some node
  | segment :: rest => (node.child? segment).bind fun child => child.get? rest

/-- The name that a child is looked for by, given its key: the field's own. -/
def nameUnder (key : String) (node : Node) : String := node.fieldName.getD key

/-- The children that a segment means, each with the segment at which it stands: outputs
by field name, in the order of their keys, and everything else at its place. -/
def matching (node : Node) : Segment → List (Segment × Node)
  | .named .output name =>
    (node.outputs.filter fun (key, child) => child.nameUnder key == name).map
      fun (key, child) => (.named .output key, child)
  | segment => ((node.child? segment).map fun child => (segment, child)).toList

/-- All nodes that a list of segments means, each with the segments at which it stands. -/
def resolve (node : Node) : List Segment → List (List Segment × Node)
  | [] => [([], node)]
  | segment :: rest =>
    (node.matching segment).flatMap fun (taken, child) =>
      (child.resolve rest).map fun (tail, target) => (taken :: tail, target)

mutual

/-- The child at a segment, or else the first one that an item has there, however deep in
lists of lists. -/
def ruleChild? (segment : Segment) : Node → Option Node
  | ⟨inputs, outputs, items, value, fieldName, policy, dropRules⟩ =>
    (child? ⟨inputs, outputs, items, value, fieldName, policy, dropRules⟩ segment).or
      (ruleChildOfItems? segment items)

/-- The first child that one of the items has at a segment. -/
def ruleChildOfItems? (segment : Segment) : List Node → Option Node
  | [] => none
  | item :: rest => (ruleChild? segment item).or (ruleChildOfItems? segment rest)

end

/-- The node at the end of a list of segments, looking past list elements at each. -/
def ruleGet? (node : Node) : List Segment → Option Node
  | [] => some node
  | segment :: rest => (node.ruleChild? segment).bind fun child => child.ruleGet? rest

/-! ### Merging -/

mutual

/-- The node overlaid by another. -/
def merge (node : Node) : Node → Node
  | ⟨inputs, outputs, items, value, fieldName, policy, dropRules⟩ =>
    { inputs := mergeChildren node.inputs inputs
      outputs := mergeChildren node.outputs outputs
      items := mergeItems node.items items
      value := value.or node.value
      fieldName := fieldName.or node.fieldName
      policy := policy.or node.policy
      dropRules := dropRules.or node.dropRules }

/-- Named children overlaid by others. -/
def mergeChildren (children : List (String × Node)) :
    List (String × Node) → List (String × Node)
  | [] => children
  | (name, child) :: rest =>
    mergeChildren
      (Dict.alter name
        (fun
          | none => child
          | some earlier => merge earlier child)
        children)
      rest

/-- Items overlaid by others, position by position. -/
def mergeItems (items : List Node) : List Node → List Node
  | [] => items
  | item :: rest =>
    match items with
    | [] => item :: rest
    | earlier :: more => merge earlier item :: mergeItems more rest

end

/-- One more child under a name: it overlays the child that is there. -/
def putChild (children : List (String × Node)) (name : String) (child : Node) :
    List (String × Node) :=
  Dict.alter name
    (fun
      | none => child
      | some earlier => merge earlier child)
    children

/-- Named children gathered from a list in which names may repeat. -/
def gather (children : List (String × Node)) : List (String × Node) :=
  children.foldl (fun gathered (name, child) => putChild gathered name child) []

/-! ### First facts -/

/-- A leaf is a node without children. -/
theorem isLeaf_iff (node : Node) : node.isLeaf = true ↔ node.children = [] := by
  simp [isLeaf, children, and_assoc]

/-- A leaf has children of no kind. -/
theorem isLeaf_iff_parts {node : Node} :
    node.isLeaf = true ↔ node.inputs = [] ∧ node.outputs = [] ∧ node.items = [] := by
  simp [isLeaf, and_assoc]

@[simp] theorem get?_nil (node : Node) : node.get? [] = some node := rfl

theorem get?_append (node : Node) (a b : List Segment) :
    node.get? (a ++ b) = (node.get? a).bind fun child => child.get? b := by
  induction a generalizing node with
  | nil => rfl
  | cons segment rest ih =>
    simp only [List.cons_append, get?]
    cases node.child? segment with
    | none => rfl
    | some child => exact ih child

theorem get?_singleton (node : Node) (segment : Segment) :
    node.get? [segment] = node.child? segment := by
  rw [get?]
  cases node.child? segment <;> rfl

/-- What stands below a child stands below the node. -/
theorem get?_of_child? {node child : Node} {segment : Segment}
    (h : node.child? segment = some child) (segments : List Segment) :
    node.get? (segment :: segments) = child.get? segments := by
  rw [get?, h, Option.bind_some]

/-- Overlaying puts each child in turn. -/
theorem mergeChildren_cons (children : List (String × Node)) (name : String) (child : Node)
    (rest : List (String × Node)) :
    mergeChildren children ((name, child) :: rest) =
      mergeChildren (putChild children name child) rest := by
  rw [mergeChildren]; rfl

end Node

end QueryAccess
