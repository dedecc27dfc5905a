import QueryAccess.Proofs.Tree.Everywhere

/-!
# A client writes no policy

Comments are where rule sources write their notes, and a query may have comments too. They
mean nothing in it, and neither do its directives, the names of its operations, the type
conditions of its fragments and the types of its variables: `QueryAccess.Document.bare` takes
all of them away, and the tree of the query is the same
(`QueryAccess.Tree.ofDocument_bare`).

**Why comments count for nothing.** A comment is read where a node starts, and merged into the
policy above. The tree of a query starts without a policy; and as a node that starts below no
policy has none itself, there is none to merge a comment into at any depth. This is what the
induction carries along: wherever it comes to, the policy handed down is `none`.

Together with what `QueryAccess.Proofs.Tree.Everywhere` says of the nodes of both kinds of
trees, this separates the two ways of reading a document
(`QueryAccess.Tree.clients_write_no_policy`).
-/

namespace QueryAccess

/-! ### Bare documents -/

mutual

/-- A value without comments. -/
def Value.bare : Value → Value
  | .list items => .list (bareItems items)
  | .object fields => .object (bareArguments fields)
  | .variable name => .variable name
  | .int text => .int text
  | .float text => .float text
  | .string text => .string text
  | .boolean flag => .boolean flag
  | .null => .null
  | .enum name => .enum name

/-- Values without comments. -/
def bareItems : List Value → List Value
  | [] => []
  | value :: rest => value.bare :: bareItems rest

/-- Named values without comments. -/
def bareArguments : List Argument → List Argument
  | [] => []
  | .mk _ name value :: rest => .mk none name value.bare :: bareArguments rest

end

mutual

/-- A selection without comments, directives and type conditions. -/
def Selection.bare : Selection → Selection
  | .field _ label name arguments _ selections =>
    .field none label name (bareArguments arguments) [] (bareSelections selections)
  | .spread name _ => .spread name []
  | .inline _ _ selections => .inline none [] (bareSelections selections)

/-- Selections without comments, directives and type conditions. -/
def bareSelections : List Selection → List Selection
  | [] => []
  | selection :: rest => selection.bare :: bareSelections rest

end

/-- A variable without its type, its default without comments. -/
def VariableDefinition.bare (definition : VariableDefinition) : VariableDefinition :=
  { definition with type := .named "", default := definition.default.map Value.bare }

/-- An operation without its name, and without comments, directives, type conditions and
types of variables. -/
def Operation.bare (operation : Operation) : Operation :=
  { operation with
    comment := none
    name := none
    declared := operation.declared.map VariableDefinition.bare
    directives := []
    selections := bareSelections operation.selections }

/-- A fragment without type conditions, comments and directives. -/
def Fragment.bare (fragment : Fragment) : Fragment :=
  { fragment with
    on := ""
    directives := []
    selections := bareSelections fragment.selections }

/-- A definition without what means nothing in a query. -/
def Definition.bare : Definition → Definition
  | .operation defined => .operation defined.bare
  | .fragment defined => .fragment defined.bare

namespace Document

/-- **The document without what means nothing in a query**: comments, directives, the names
of operations, the type conditions of fragments and the types of variables. -/
def bare (document : Document) : Document := ⟨document.definitions.map Definition.bare⟩

variable (document : Document)

theorem operations_bare : document.bare.operations = document.operations.map Operation.bare := by
  rw [operations, bare, List.filterMap_map, operations, List.map_filterMap]
  refine List.filterMap_congr fun definition _ => ?_
  cases definition <;> rfl

theorem fragments_bare : document.bare.fragments = document.fragments.map Fragment.bare := by
  rw [fragments, bare, List.filterMap_map, fragments, List.map_filterMap]
  refine List.filterMap_congr fun definition _ => ?_
  cases definition <;> rfl

end Document

namespace Tree

/-! ### Values below no policy -/

/-- Two ways to fill nodes with variables agree on nodes without a policy. -/
def AgreeUnruled (ofVariable ofOther : String → Node → Node) : Prop :=
  ∀ name (node : Node), node.policy = none → ofVariable name node = ofOther name node

section Fill

variable {ofVariable ofOther : String → Node → Node}

mutual

/-- **A value fills a node without a policy the same without its comments.** -/
theorem fill_bare (h : AgreeUnruled ofVariable ofOther) {node : Node} (hnode : node.policy = none) :
    ∀ value : Value, fill ofVariable node value.bare = fill ofOther node value
  | .variable name => h name node hnode
  | .list items => by rw [Value.bare, fill, fill, hnode, fillItems_bare h items]
  | .object fields => by rw [Value.bare, fill, fill, hnode, fillInputs_bare h fields]
  | .int _ | .float _ | .string _ | .boolean _ | .null | .enum _ => rfl

theorem fillItems_bare (h : AgreeUnruled ofVariable ofOther) :
    ∀ items : List Value, fillItems ofVariable none (bareItems items) = fillItems ofOther none items
  | [] => rfl
  | value :: rest => by
    rw [bareItems, fillItems, fillItems, fill_bare h rfl value, fillItems_bare h rest]

theorem fillInputs_bare (h : AgreeUnruled ofVariable ofOther) :
    ∀ arguments : List Argument,
      fillInputs ofVariable none (bareArguments arguments) = fillInputs ofOther none arguments
  | [] => rfl
  | .mk comment name value :: rest => by
    -- with or without its comment the node starts empty
    have hvalue : fill ofVariable (start none none) value.bare =
        fill ofOther (start comment none) value := fill_bare h rfl value
    rw [bareArguments, fillInputs, fillInputs, hvalue, fillInputs_bare h rest]

end

end Fill

theorem default?_bare (declared : List VariableDefinition) (name : String) :
    default? (declared.map VariableDefinition.bare) name =
      (default? declared name).map Value.bare := by
  rw [default?, default?, ← List.map_reverse, List.findSome?_map, List.map_findSome?]
  refine congrArg (declared.reverse.findSome? ·) (funext fun definition => ?_)
  rw [Function.comp_apply, Function.comp_apply, apply_ite (Option.map Value.bare),
    Option.map_none]
  rfl

/-- Variables stand for the same below no policy, whatever their types and the comments in
their defaults. -/
theorem fillVariable_bare (bindings : Dict Json) (declared : List VariableDefinition) :
    AgreeUnruled (fillVariable bindings (declared.map VariableDefinition.bare))
      (fillVariable bindings declared) := by
  intro name node hnode
  rw [fillVariable, fillVariable, default?_bare]
  cases bindings.lookup name with
  | some json => rfl
  | none =>
    cases default? declared name with
    | some value => exact fill_bare (fun _ _ _ => rfl) hnode value
    | none => rfl

/-! ### Selections below no policy -/

namespace Surroundings

/-- The surroundings of bare selections. -/
def bare (around : Surroundings) : Surroundings :=
  ⟨around.bindings, around.declared.map VariableDefinition.bare,
    around.fragments.map Fragment.bare⟩

theorem fragment?_bare (around : Surroundings) (name : String) :
    around.bare.fragment? name = (around.fragment? name).map bareSelections := by
  rw [fragment?, fragment?, bare, ← List.map_reverse, List.find?_map, Option.map_map,
    Option.map_map]
  rfl

theorem inputs_bare (around : Surroundings) (arguments : List Argument) :
    around.bare.inputs none (bareArguments arguments) = around.inputs none arguments :=
  congrArg Node.gather
    (fillInputs_bare (fillVariable_bare around.bindings around.declared) arguments)

end Surroundings

section Contributions

variable (around : Surroundings) {deeper original : Option Contribute}

/-- Bare selections contribute as much as the original ones below no policy. -/
def ContributesBare (bare original : Contribute) : Prop :=
  ∀ active selections,
    bare active none (bareSelections selections) = original active none selections

mutual

theorem contribution_bare
    (hdeeper : ContributesBare (deeper.getD contributeNothing) (original.getD contributeNothing))
    (active : List String) : ∀ selection : Selection,
      contribution around.bare deeper active none selection.bare =
        contribution around original active none selection
  | .field comment label name arguments directives selections => by
    rw [Selection.bare, contribution, contribution]
    have hpolicy : ∀ comment, (start comment none).policy = none := fun _ => rfl
    rw [hpolicy, hpolicy, around.inputs_bare, hdeeper active selections]
    rfl
  | .inline on directives selections => by
    rw [Selection.bare, contribution, contribution,
      contributionsAt_bare hdeeper active selections]
  | .spread name directives => by
    rw [Selection.bare, contribution, contribution, around.fragment?_bare]
    cases around.fragment? name with
    | none => rfl
    | some selections =>
      simp only [Option.map_some]
      rw [hdeeper (name :: active) selections]

theorem contributionsAt_bare
    (hdeeper : ContributesBare (deeper.getD contributeNothing) (original.getD contributeNothing))
    (active : List String) : ∀ selections : List Selection,
      contributionsAt around.bare deeper active none (bareSelections selections) =
        contributionsAt around original active none selections
  | [] => rfl
  | selection :: rest => by
    rw [bareSelections, contributionsAt, contributionsAt,
      contribution_bare hdeeper active selection, contributionsAt_bare hdeeper active rest]

end

/-- **Bare selections contribute the same below no policy**, with any number of levels. -/
theorem contributions_bare (levels : Nat) :
    ContributesBare (contributions around.bare levels) (contributions around levels) := by
  induction levels with
  | zero =>
    have hnothing : ContributesBare ((none : Option Contribute).getD contributeNothing)
        ((none : Option Contribute).getD contributeNothing) := fun _ _ => rfl
    exact contributionsAt_bare around hnothing
  | succ levels ih =>
    have hdeeper : ContributesBare
        ((some (contributions around.bare levels)).getD contributeNothing)
        ((some (contributions around levels)).getD contributeNothing) := ih
    exact contributionsAt_bare around hdeeper

end Contributions

/-! ### Documents -/

theorem ofOperation_bare (bindings : Dict Json) (fragments : List Fragment)
    (operation : Operation) :
    ofOperation bindings (fragments.map Fragment.bare) none operation.bare =
      ofOperation bindings fragments none operation :=
  congrArg (fun below => { Node.empty with outputs := Node.gather below })
    (contributions_bare ⟨bindings, operation.declared, fragments⟩ maxDepth []
      operation.selections)

/-- **The tree of a query is that of the bare document.** -/
theorem ofDocument_bare (document : Document) (bindings : Dict Json) :
    ofDocument document.bare bindings none = ofDocument document bindings none := by
  rw [ofDocument, ofDocument, document.operations_bare, document.fragments_bare, List.map_map]
  refine congrArg ofRoots (List.map_congr_left fun operation _ => ?_)
  exact congrArg (operation.kind.keyword, ·)
    (ofOperation_bare bindings document.fragments operation)

/-- **A client writes no policy.** Queries that are the same but for their comments, their
directives, the names of their operations, the type conditions of their fragments and the
types of their variables have the same tree, whatever is bound to the variables, and no node
of it has a policy or drop rules. As a rule source, on the other hand, a document has a tree
in which every node has a policy, whatever the root policy. -/
theorem clients_write_no_policy {document other : Document} (h : document.bare = other.bare)
    (bindings : Dict Json) :
    ofDocument document bindings none = ofDocument other bindings none ∧
    (∀ place ∈ (ofDocument document bindings none).listing,
      place.2.policy = none ∧ place.2.dropRules = none) ∧
    ∀ root : Policy, ∀ place ∈ (ofDocument document bindings (some root)).listing,
      place.2.policy.isSome = true := by
  refine ⟨?_, query_holds_no_notes document bindings, rules_have_policies document bindings⟩
  rw [← ofDocument_bare, h, ofDocument_bare]

/-- The note that accepts everybody. -/
def acceptingNote : String := "\x7b\"ACCEPT\": \"*\"\x7d"

/-- A query that helps itself: it says of its operation, of a field and of an argument that
everybody is accepted. -/
def selfServed : Document :=
  ⟨[.operation ⟨some acceptingNote, .query, some "Mine",
      [⟨"ids", .list (.named "ID"), some (.list [.int "1"])⟩], [],
      [.field (some acceptingNote) none "books"
        [.mk (some acceptingNote) "ids" (.variable "ids")] [⟨"include", []⟩]
        [.inline (some "Book") [] [.field none none "title" [] [] []]]]⟩]⟩

/-- The same query of a client that does not. -/
def modest : Document :=
  ⟨[.operation ⟨none, .query, none, [⟨"ids", .named "Any", some (.list [.int "1"])⟩], [],
      [.field none none "books" [.mk none "ids" (.variable "ids")] []
        [.inline none [] [.field none none "title" [] [] []]]]⟩]⟩

/-- The two queries, as an instance of `QueryAccess.Tree.clients_write_no_policy`, with a list
of an object and a number bound to the variable. -/
theorem clients_write_no_policy_selfServed :
    selfServed.bare = modest.bare ∧
    ofDocument selfServed [("ids", .array [.object [("from", .int 1)], .int 2])] none =
      ofDocument modest [("ids", .array [.object [("from", .int 1)], .int 2])] none ∧
    (∀ place ∈ (ofDocument selfServed
        [("ids", .array [.object [("from", .int 1)], .int 2])] none).listing,
      place.2.policy = none ∧ place.2.dropRules = none) ∧
    ∀ root : Policy, ∀ place ∈ (ofDocument selfServed
        [("ids", .array [.object [("from", .int 1)], .int 2])] (some root)).listing,
      place.2.policy.isSome = true :=
  ⟨rfl, clients_write_no_policy rfl [("ids", .array [.object [("from", .int 1)], .int 2])]⟩

end Tree

end QueryAccess
