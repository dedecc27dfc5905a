import QueryAccess.Document.Basic
import QueryAccess.Document.Nesting
import QueryAccess.Numeric.Decimal
import QueryAccess.RuleNote
import QueryAccess.Tree.Basic

/-!
# The tree of a document

A document becomes a tree (`QueryAccess.Tree.ofDocument`): a root for each kind of
operation, below it the selected fields, and below a field its arguments, with lists and
objects taken apart. Operations of one kind, fields of one response key and arguments of
one name overlay each other in the order of the text.

**Contributions.** What a selection set adds to a node is a list of named children
(`QueryAccess.Tree.contributions`), and the node gathers them. A field contributes one
child, an inline fragment what its selections do, and a spread what the selections of the
fragment do. Nothing is carried from one selection to the next, so what a selection
contributes does not depend on the ones before it.

**Depth.** Going down into the selections of a field or of a fragment takes one level of
the expansion, and there are `QueryAccess.maxDepth` of them; where none is left, nothing
is contributed. Spreads inside the fragment they name contribute nothing either. The
recursion is on the levels, and within a level on the selections.

**Notes.** A rule source is read with a root policy: every node then has a policy, its
own note merged into the inherited one. A query is read without, and its comments mean
nothing.

**Variables.** A bound variable stands for its data value, an unbound one for its default
if it has one. A default is a constant: another variable inside it stands for what is
bound to it, never for its default. A variable without either leaves a node without a
value.
-/

namespace QueryAccess

/-! ### Literals -/

namespace Literal

/-- The integer that a text writes. -/
def intOf (text : String) : Int :=
  let (negative, digits) := Decimal.splitSign text.toList
  let size : Int := Nat.ofDigitChars 10 digits 0
  if negative then -size else size

/-- The value of an integer literal: null unless it is a signed 64-bit integer. -/
def intValue (text : String) : Json :=
  let n := intOf text
  if Json.isSigned n then .int n else .null

/-- The value of a number literal with a fraction or an exponent: the nearest double, or
null beyond the finite ones. -/
def floatValue (text : String) : Json :=
  let (negative, decimal) := Decimal.ofText text.toList
  match decimal.nearest? negative with
  | some x => .float x
  | none => .null

end Literal

namespace Tree

/-! ### Nodes and their notes -/

/-- A fresh node below an inherited policy, with what the comment before it says. Without
an inherited policy comments mean nothing, and a malformed note says nothing. -/
def start (comment : Option String) (inherited : Option Policy) : Node :=
  match inherited with
  | none => .empty
  | some inherited =>
    match comment.bind (RuleNote.mergeInto? inherited) with
    | some (policy, dropRules) =>
      { Node.empty with policy := some policy, dropRules := dropRules }
    | none => { Node.empty with policy := some inherited }

/-! ### Data values as nodes -/

mutual

/-- The node with a data value in it: objects become inputs, arrays items, and everything
else is the node's value. All nodes below have the node's policy. -/
def fillData (node : Node) : Json → Node
  | .object fields => { node with inputs := Node.gather (dataInputs node.policy fields) }
  | .array items => { node with items := dataItems node.policy items }
  | scalar => { node with value := some scalar }

/-- The nodes of the fields of an object. -/
def dataInputs (policy : Option Policy) : List (String × Json) → List (String × Node)
  | [] => []
  | (name, json) :: rest => (name, fillData (.ofPolicy policy) json) :: dataInputs policy rest

/-- The nodes of the elements of an array. -/
def dataItems (policy : Option Policy) : List Json → List Node
  | [] => []
  | json :: rest => fillData (.ofPolicy policy) json :: dataItems policy rest

end

/-! ### Written values as nodes -/

section Fill

-- what to do with a variable: its name, and the node it is to fill
variable (ofVariable : String → Node → Node)

mutual

/-- The node with a written value in it. -/
def fill (node : Node) : Value → Node
  | .variable name => ofVariable name node
  | .int text => { node with value := some (Literal.intValue text) }
  | .float text => { node with value := some (Literal.floatValue text) }
  | .string text => { node with value := some (.string text) }
  | .boolean flag => { node with value := some (.bool flag) }
  | .null => { node with value := some .null }
  | .enum name => { node with value := some (.string name) }
  | .list items => { node with items := fillItems node.policy items }
  | .object fields => { node with inputs := Node.gather (fillInputs node.policy fields) }

/-- The nodes of the elements of a list. They have the policy of the list, and no notes
of their own. -/
def fillItems (policy : Option Policy) : List Value → List Node
  | [] => []
  | value :: rest => fill (.ofPolicy policy) value :: fillItems policy rest

/-- The nodes of named values, each with the note before it. -/
def fillInputs (policy : Option Policy) : List Argument → List (String × Node)
  | [] => []
  | .mk comment name value :: rest =>
    (name, fill (start comment policy) value) :: fillInputs policy rest

end

end Fill

/-! ### Variables -/

/-- Fills a node with what is bound to a variable, if anything is. -/
def fillBound (bindings : Dict Json) (name : String) (node : Node) : Node :=
  match bindings.lookup name with
  | some json => fillData node json
  | none => node

/-- The default of a variable; of several definitions with one the last counts. -/
def default? (declared : List VariableDefinition) (name : String) : Option Value :=
  declared.reverse.findSome? fun definition =>
    if definition.name = name then definition.default else none

/-- Fills a node with what is bound to a variable, or else with its default. -/
def fillVariable (bindings : Dict Json) (declared : List VariableDefinition) (name : String)
    (node : Node) : Node :=
  match bindings.lookup name with
  | some json => fillData node json
  | none =>
    match default? declared name with
    | some value => fill (fillBound bindings) node value
    | none => node

/-! ### Selections -/

/-- What the selections of an operation are read with: the data bound to variables, the
variables it declares, and the fragments of the document. -/
structure Surroundings where
  bindings : Dict Json
  declared : List VariableDefinition
  fragments : List Fragment

namespace Surroundings

/-- The selections of the fragment of that name; of several the last counts. -/
def fragment? (around : Surroundings) (name : String) : Option (List Selection) :=
  (around.fragments.reverse.find? (·.name == name)).map (·.selections)

/-- The nodes of the arguments of a field, below its policy. -/
def inputs (around : Surroundings) (policy : Option Policy) (arguments : List Argument) :
    List (String × Node) :=
  Node.gather (fillInputs (fillVariable around.bindings around.declared) policy arguments)

end Surroundings

/-- What selections contribute, given the fragments being expanded and the inherited
policy. -/
abbrev Contribute : Type :=
  List String → Option Policy → List Selection → List (String × Node)

/-- What selections contribute if no level is left for them. -/
def contributeNothing : Contribute := fun _ _ _ => []

mutual

/-- What one selection contributes. `deeper` says what the selections a level further
down contribute, if there is such a level; `active` names the fragments being
expanded. -/
def contribution (around : Surroundings) (deeper : Option Contribute) (active : List String)
    (policy : Option Policy) : Selection → List (String × Node)
  | .field comment label name arguments _ selections =>
    let node := start comment policy
    let below := (deeper.getD contributeNothing) active node.policy selections
    [(label.getD name,
      { node with
        inputs := around.inputs node.policy arguments
        outputs := Node.gather below
        fieldName := label.map fun _ => name })]
  | .inline _ _ selections => contributionsAt around deeper active policy selections
  | .spread name _ =>
    match around.fragment? name with
    | none => []
    | some selections =>
      -- a fragment inside itself would never end
      if name ∈ active then []
      else (deeper.getD contributeNothing) (name :: active) policy selections

/-- What selections contribute, one after the other. -/
def contributionsAt (around : Surroundings) (deeper : Option Contribute) (active : List String)
    (policy : Option Policy) : List Selection → List (String × Node)
  | [] => []
  | selection :: rest =>
    contribution around deeper active policy selection ++
      contributionsAt around deeper active policy rest

end

/-- What selections contribute with so many levels left. -/
def contributions (around : Surroundings) : Nat → Contribute
  | 0 => contributionsAt around none
  | levels + 1 => contributionsAt around (some (contributions around levels))

/-! ### Documents -/

/-- The root node of an operation. -/
def ofOperation (bindings : Dict Json) (fragments : List Fragment) (policy : Option Policy)
    (operation : Operation) : Node :=
  let around : Surroundings := ⟨bindings, operation.declared, fragments⟩
  let node := start operation.comment policy
  { node with
    outputs := Node.gather (contributions around maxDepth [] node.policy operation.selections) }

/-- The tree of a document, with data bound to its variables: a rule tree below a root
policy, or the tree of a query without one. -/
def ofDocument (document : Document) (bindings : Dict Json) (policy : Option Policy) : Tree :=
  ofRoots (document.operations.map fun operation =>
    (operation.kind.keyword, ofOperation bindings document.fragments policy operation))

end Tree

end QueryAccess
