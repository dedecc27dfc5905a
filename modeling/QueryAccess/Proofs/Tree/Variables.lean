import QueryAccess.Proofs.Document.Expansion
import QueryAccess.Proofs.Document.Literals

/-!
# Variables are literals

A query with variables and the data bound to them is the query with the data written in their
places.

**Literals.** A literal of data fills a node as the data themselves do
(`QueryAccess.Tree.fill_of_isLiteral`): the two recursions, over written values and over data,
go the same way, for the elements of a list have no notes, and the fields of an object literal
without comments have none either.

**Substitution.** Filling a node with a value whose variables are replaced is filling it with
the value itself, provided that what stands for a variable fills a node as the variable does
(`QueryAccess.Tree.fill_substitute`). A default counts as such if there is no variable in it: it
then means the same whatever is bound.

**Documents.** No selection but the spread of a fragment depends on more than its own
arguments and selections. So a document without spreads has the tree of the document with the
data written in (`QueryAccess.Tree.variables_as_literals`).
-/

namespace QueryAccess.Tree

/-! ### Literals fill as data do -/

theorem start_none (policy : Option Policy) : start none policy = .ofPolicy policy := by
  cases policy <;> rfl

section Literals

variable {ofVariable : String → Node → Node}

mutual

/-- **A literal of data fills a node as the data do.** -/
theorem fill_of_isLiteral (node : Node) :
    ∀ {json : Json} {value : Value}, json.IsLiteral value →
      fill ofVariable node value = fillData node json
  | .null, _, h | .bool _, _, h | .string _, _, h => by
    rw [Json.IsLiteral] at h
    subst h
    rfl
  | .int _, _, h | .float _, _, h => by
    rw [Json.IsLiteral] at h
    obtain ⟨text, rfl, hread⟩ := h
    rw [fill, hread]
    rfl
  | .array items, _, h => by
    rw [Json.IsLiteral] at h
    obtain ⟨values, rfl, hvalues⟩ := h
    rw [fill, fillItems_of_areLiterals node.policy hvalues, fillData]
  | .object fields, _, h => by
    rw [Json.IsLiteral] at h
    obtain ⟨arguments, rfl, harguments⟩ := h
    rw [fill, fillInputs_of_fieldsAreLiterals node.policy harguments, fillData]

theorem fillItems_of_areLiterals (policy : Option Policy) :
    ∀ {items : List Json} {values : List Value}, Json.AreLiterals items values →
      fillItems ofVariable policy values = dataItems policy items
  | [], _, h => by
    rw [Json.AreLiterals] at h
    subst h
    rfl
  | json :: rest, _, h => by
    rw [Json.AreLiterals] at h
    obtain ⟨value, others, rfl, hvalue, hothers⟩ := h
    rw [fillItems, fill_of_isLiteral _ hvalue, fillItems_of_areLiterals policy hothers, dataItems]

theorem fillInputs_of_fieldsAreLiterals (policy : Option Policy) :
    ∀ {fields : List (String × Json)} {arguments : List Argument},
      Json.FieldsAreLiterals fields arguments →
        fillInputs ofVariable policy arguments = dataInputs policy fields
  | [], _, h => by
    rw [Json.FieldsAreLiterals] at h
    subst h
    rfl
  | (name, json) :: rest, _, h => by
    rw [Json.FieldsAreLiterals] at h
    obtain ⟨value, others, rfl, hvalue, hothers⟩ := h
    rw [fillInputs, start_none, fill_of_isLiteral _ hvalue,
      fillInputs_of_fieldsAreLiterals policy hothers, dataInputs]

end

end Literals

/-! ### What variables stand for -/

section Congr

variable {ofVariable ofOther : String → Node → Node}

mutual

/-- **A value fills a node the same way, if its variables do.** -/
theorem fill_congr (node : Node) :
    ∀ value : Value, (∀ name ∈ value.variables, ofVariable name = ofOther name) →
      fill ofVariable node value = fill ofOther node value
  | .variable name, h => congrFun (h name (.head _)) node
  | .list items, h => by rw [fill, fill, fillItems_congr node.policy items h]
  | .object fields, h => by rw [fill, fill, fillInputs_congr node.policy fields h]
  | .int _, _ | .float _, _ | .string _, _ | .boolean _, _ | .null, _ | .enum _, _ => rfl

theorem fillItems_congr (policy : Option Policy) :
    ∀ items : List Value, (∀ name ∈ variablesOfItems items, ofVariable name = ofOther name) →
      fillItems ofVariable policy items = fillItems ofOther policy items
  | [], _ => rfl
  | value :: rest, h => by
    rw [variablesOfItems, List.forall_mem_append] at h
    rw [fillItems, fillItems, fill_congr _ value h.1, fillItems_congr policy rest h.2]

theorem fillInputs_congr (policy : Option Policy) :
    ∀ arguments : List Argument,
      (∀ name ∈ variablesOfArguments arguments, ofVariable name = ofOther name) →
        fillInputs ofVariable policy arguments = fillInputs ofOther policy arguments
  | [], _ => rfl
  | .mk comment name value :: rest, h => by
    rw [variablesOfArguments, List.forall_mem_append] at h
    rw [fillInputs, fillInputs, fill_congr _ value h.1, fillInputs_congr policy rest h.2]

end

/-- A constant fills a node the same way, whatever variables stand for. -/
theorem fill_constant (node : Node) {value : Value} (h : value.variables = []) :
    fill ofVariable node value = fill ofOther node value :=
  fill_congr node value fun _ hname => absurd (h ▸ hname) List.not_mem_nil

end Congr

/-! ### Substitution -/

section Substitute

variable {meant : String → Option Value} {ofVariable ofOther : String → Node → Node}

mutual

/-- **A value with its variables replaced fills a node as the value does**, if what stands for
each variable does. -/
theorem fill_substitute
    (h : ∀ name node,
      fill ofVariable node ((meant name).getD (.variable name)) = ofOther name node)
    (node : Node) :
    ∀ value : Value, fill ofVariable node (value.substitute meant) = fill ofOther node value
  | .variable name => by rw [Value.substitute, h, fill]
  | .list items => by rw [Value.substitute, fill, fillItems_substitute h node.policy items, fill]
  | .object fields => by
    rw [Value.substitute, fill, fillInputs_substitute h node.policy fields, fill]
  | .int _ | .float _ | .string _ | .boolean _ | .null | .enum _ => rfl

theorem fillItems_substitute
    (h : ∀ name node,
      fill ofVariable node ((meant name).getD (.variable name)) = ofOther name node)
    (policy : Option Policy) :
    ∀ items : List Value,
      fillItems ofVariable policy (substituteItems meant items) = fillItems ofOther policy items
  | [] => rfl
  | value :: rest => by
    rw [substituteItems, fillItems, fill_substitute h _ value, fillItems_substitute h policy rest,
      fillItems]

theorem fillInputs_substitute
    (h : ∀ name node,
      fill ofVariable node ((meant name).getD (.variable name)) = ofOther name node)
    (policy : Option Policy) :
    ∀ arguments : List Argument,
      fillInputs ofVariable policy (substituteArguments meant arguments) =
        fillInputs ofOther policy arguments
  | [] => rfl
  | .mk comment name value :: rest => by
    rw [substituteArguments, fillInputs, fill_substitute h _ value,
      fillInputs_substitute h policy rest, fillInputs]

end

end Substitute

section Variables

variable {write : Json → Value} {bindings : Dict Json} {declared : List VariableDefinition}

/-- A default is one of the declared ones. -/
theorem default?_declared {name : String} {value : Value}
    (h : default? declared name = some value) :
    ∃ definition ∈ declared, definition.default = some value := by
  obtain ⟨definition, hdefinition, hdefault⟩ := List.exists_of_findSome?_eq_some h
  rw [Option.ite_none_right_eq_some] at hdefault
  exact ⟨definition, List.mem_reverse.1 hdefinition, hdefault.2⟩

/-- What stands for a variable fills a node as the variable does. -/
theorem fill_meaningOf (hwrite : ∀ pair ∈ bindings, pair.2.IsLiteral (write pair.2))
    (hdefaults : ∀ definition ∈ declared, ∀ value ∈ definition.default, value.variables = [])
    (name : String) (node : Node) :
    fill (fillVariable [] declared) node
        ((meaningOf write bindings declared name).getD (.variable name)) =
      fillVariable bindings declared name node := by
  rw [meaningOf, fillVariable]
  cases hbound : bindings.lookup name with
  | some json => exact fill_of_isLiteral node (hwrite _ (Dict.mem_of_lookup hbound))
  | none =>
    cases hdefault : default? declared name with
    | some value =>
      obtain ⟨definition, hdefinition, hvalue⟩ := default?_declared hdefault
      exact fill_constant node (hdefaults definition hdefinition value hvalue)
    | none =>
      simp only [Option.getD_none, fill, fillVariable, List.lookup_nil, hdefault]

end Variables

/-! ### Selections and documents -/

section Selections

variable {meant : String → Option Value} {around other : Surroundings}
  {deeper deeperOther : Option Contribute}

/-- Selections in which nothing is spread contribute as much when their variables are
replaced. -/
def ContributesSubstituted (meant : String → Option Value) (substituted original : Contribute) :
    Prop :=
  ∀ active policy selections, spreadsIn selections = [] →
    substituted active policy (substituteSelections meant selections) =
      original active policy selections

mutual

theorem contribution_substitute
    (hinputs : ∀ policy arguments,
      around.inputs policy (substituteArguments meant arguments) = other.inputs policy arguments)
    (hdeeper : ContributesSubstituted meant (deeper.getD contributeNothing)
      (deeperOther.getD contributeNothing)) (active : List String) (policy : Option Policy) :
    ∀ selection : Selection, selection.spreads = [] →
      contribution around deeper active policy (selection.substitute meant) =
        contribution other deeperOther active policy selection
  | .field comment label name arguments directives selections, hnone => by
    rw [Selection.spreads] at hnone
    rw [Selection.substitute, contribution, contribution, hinputs, hdeeper _ _ _ hnone]
  | .inline on directives selections, hnone => by
    rw [Selection.spreads] at hnone
    rw [Selection.substitute, contribution, contribution,
      contributionsAt_substitute hinputs hdeeper active policy selections hnone]
  | .spread name directives, hnone => absurd hnone (List.cons_ne_nil name [])

theorem contributionsAt_substitute
    (hinputs : ∀ policy arguments,
      around.inputs policy (substituteArguments meant arguments) = other.inputs policy arguments)
    (hdeeper : ContributesSubstituted meant (deeper.getD contributeNothing)
      (deeperOther.getD contributeNothing)) (active : List String) (policy : Option Policy) :
    ∀ selections : List Selection, spreadsIn selections = [] →
      contributionsAt around deeper active policy (substituteSelections meant selections) =
        contributionsAt other deeperOther active policy selections
  | [], _ => rfl
  | selection :: rest, hnone => by
    rw [spreadsIn, List.append_eq_nil_iff] at hnone
    rw [substituteSelections, contributionsAt, contributionsAt,
      contribution_substitute hinputs hdeeper active policy selection hnone.1,
      contributionsAt_substitute hinputs hdeeper active policy rest hnone.2]

end

/-- **Selections with their variables replaced contribute the same**, with any number of
levels, if arguments do. -/
theorem contributions_substitute
    (hinputs : ∀ policy arguments,
      around.inputs policy (substituteArguments meant arguments) = other.inputs policy arguments)
    (levels : Nat) :
    ContributesSubstituted meant (contributions around levels) (contributions other levels) := by
  induction levels with
  | zero =>
    have hnothing : ContributesSubstituted meant ((none : Option Contribute).getD contributeNothing)
        ((none : Option Contribute).getD contributeNothing) := fun _ _ _ _ => rfl
    exact contributionsAt_substitute hinputs hnothing
  | succ levels ih =>
    have hdeeper : ContributesSubstituted meant
        ((some (contributions around levels)).getD contributeNothing)
        ((some (contributions other levels)).getD contributeNothing) := ih
    exact contributionsAt_substitute hinputs hdeeper

end Selections

section Documents

variable {document : Document} {write : Json → Value} {bindings : Dict Json}

/-- The tree of a document with literals in the places of its variables. -/
theorem ofDocument_withLiterals
    (hspreads : ∀ operation ∈ document.operations, spreadsIn operation.selections = [])
    (hdefaults : ∀ operation ∈ document.operations, ∀ definition ∈ operation.declared,
      ∀ value ∈ definition.default, value.variables = [])
    (hwrite : ∀ pair ∈ bindings, pair.2.IsLiteral (write pair.2)) (policy : Option Policy) :
    ofDocument (document.withLiterals write bindings) [] policy =
      ofDocument document bindings policy := by
  rw [ofDocument, ofDocument, Document.operations_withLiterals, List.map_map]
  refine congrArg ofRoots (List.map_congr_left fun operation hoperation => ?_)
  have hinputs : ∀ policy arguments,
      Surroundings.inputs ⟨[], operation.declared, (document.withLiterals write bindings).fragments⟩
          policy (substituteArguments (meaningOf write bindings operation.declared) arguments) =
        Surroundings.inputs ⟨bindings, operation.declared, document.fragments⟩ policy arguments :=
    fun policy arguments => congrArg Node.gather
      (fillInputs_substitute (fill_meaningOf hwrite (hdefaults operation hoperation)) policy
        arguments)
  have hcontribute := contributions_substitute hinputs maxDepth []
    (start operation.comment policy).policy operation.selections (hspreads operation hoperation)
  exact congrArg
    (fun below => (operation.kind.keyword,
      { start operation.comment policy with outputs := Node.gather below })) hcontribute

/-- **Variables are literals.** Take a document in which no fragment is spread and whose
defaults are constants, and data for its variables whose integers are signed 64-bit ones. The
data can then be written as literals; and however this is done, the document with the literals
in the places of the variables – those without data replaced by their defaults – has the same
tree with nothing bound, as a rule source and as a query. -/
theorem variables_as_literals
    (hspreads : ∀ operation ∈ document.operations, spreadsIn operation.selections = [])
    (hdefaults : ∀ operation ∈ document.operations, ∀ definition ∈ operation.declared,
      ∀ value ∈ definition.default, value.variables = [])
    (hints : ∀ pair ∈ bindings, pair.2.hasSignedInts = true) :
    (∃ write : Json → Value, ∀ pair ∈ bindings, pair.2.IsLiteral (write pair.2)) ∧
    ∀ write : Json → Value, (∀ pair ∈ bindings, pair.2.IsLiteral (write pair.2)) →
      ∀ policy : Option Policy,
        ofDocument (document.withLiterals write bindings) [] policy =
          ofDocument document bindings policy :=
  ⟨⟨Json.literal, fun pair hpair => Json.isLiteral_literal pair.2 (hints pair hpair)⟩,
    fun _ hwrite => ofDocument_withLiterals hspreads hdefaults hwrite⟩

end Documents

/-- A search whose variables stand for an argument, for elements of a list and for a field of an
object. One of them has a default, and one is said nothing of. -/
def search : Document :=
  ⟨[.operation ⟨none, .query, some "Search",
      [⟨"filter", .named "Filter", none⟩, ⟨"limit", .named "Int", some (.int "20")⟩], [],
      [.field none none "books"
        [.mk none "filter" (.variable "filter"),
          .mk none "range" (.list [.variable "limit", .variable "page", .float "0.5"]),
          .mk none "options" (.object [.mk none "deep" (.variable "deep")])]
        [] [.inline (some "Book") [] [.field none none "name" [] [] []]]]⟩]⟩

/-- The data of the search; the double in them is two and a half. -/
def searchData : Dict Json :=
  [("deep", .bool true),
    ("filter", .object
      [("min", .float ⟨false, 0x4004000000000000, by decide⟩),
        ("tags", .array [.int (-3), .null, .object []])])]

/-- The search, as an instance of `QueryAccess.Tree.variables_as_literals`: below a root policy
and without, it has the tree of a search without variables but the one nothing is said of. -/
theorem variables_as_literals_search :
    (∀ operation ∈ search.operations, spreadsIn operation.selections = []) ∧
    (∀ operation ∈ search.operations, ∀ definition ∈ operation.declared,
      ∀ value ∈ definition.default, value.variables = []) ∧
    (∀ pair ∈ searchData, pair.2.hasSignedInts = true) ∧
    (∀ pair ∈ searchData, pair.2.IsLiteral pair.2.literal) ∧
    ∀ policy, ofDocument (search.withLiterals Json.literal searchData) [] policy =
      ofDocument search searchData policy := by
  have hspreads : ∀ operation ∈ search.operations, spreadsIn operation.selections = [] := by
    intro operation hoperation
    obtain rfl := List.mem_singleton.1 hoperation
    rfl
  have hdefaults : ∀ operation ∈ search.operations, ∀ definition ∈ operation.declared,
      ∀ value ∈ definition.default, value.variables = [] := by
    intro operation hoperation
    obtain rfl := List.mem_singleton.1 hoperation
    rintro definition hdefinition value hvalue
    obtain rfl | hlimit := List.mem_cons.1 hdefinition
    · exact absurd hvalue (Option.not_mem_none value)
    · obtain rfl := List.mem_singleton.1 hlimit
      obtain rfl := Option.mem_some.1 hvalue
      rfl
  have hints : ∀ pair ∈ searchData, pair.2.hasSignedInts = true := by decide
  have hliterals : ∀ pair ∈ searchData, pair.2.IsLiteral pair.2.literal :=
    fun pair hpair => Json.isLiteral_literal pair.2 (hints pair hpair)
  exact ⟨hspreads, hdefaults, hints, hliterals,
    (variables_as_literals hspreads hdefaults hints).2 Json.literal hliterals⟩

end QueryAccess.Tree
