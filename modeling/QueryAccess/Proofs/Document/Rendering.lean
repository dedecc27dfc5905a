import Mathlib.Data.List.Forall2
import QueryAccess.Document.Basic
import QueryAccess.Proofs.Document.Lexemes

/-!
# Renderings of a document

The lexemes of a document, in the order of the grammar (`QueryAccess.Document.Renders`). They
are determined by the document but for one choice: an anonymous query that declares nothing and
has no directives may be written as its bare selection set.

**Comments.** The comment of an operation, a field, an argument or an object field is asked for
before the first lexeme of it; anywhere else comments are free.

**Well-formed documents.** Not every document has a text. Some are read as others – an
enumeration value `true` as a Boolean, the spread of a fragment `on` as an inline fragment –
and selection sets that must not be left out are never empty. The predicates
`QueryAccess.Document.isWellFormed` and its like exclude these. That names are names and the
texts of numbers those of numbers is not among them: other lexemes have no spelling
(`QueryAccess.Lexeme.Spells`).
-/

namespace QueryAccess

/-! ### Lexemes -/

/-- Lexemes between two marks. -/
def enclosed (opening closing : Char) (items : List Placed) : List Placed :=
  .mark opening :: (items ++ [.mark closing])

theorem length_enclosed (opening closing : Char) (items : List Placed) :
    (enclosed opening closing items).length = items.length + 2 := by
  rw [enclosed, List.length_cons, List.length_append, List.length_singleton]

mutual

/-- The lexemes of a value. -/
def Value.lexemes : Value → List Placed
  | .variable name => [.signed '$' name]
  | .int text => [(Lexeme.number text false).plain]
  | .float text => [(Lexeme.number text true).plain]
  | .string text => [(Lexeme.string text).plain]
  | .boolean flag => [.name (if flag then "true" else "false")]
  | .null => [.name "null"]
  | .enum name => [.name name]
  | .list items => enclosed '[' ']' (lexemesOfItems items)
  | .object fields => enclosed '\x7b' '\x7d' (lexemesOfArguments fields)

/-- The lexemes of the elements of a list. -/
def lexemesOfItems : List Value → List Placed
  | [] => []
  | value :: rest => value.lexemes ++ lexemesOfItems rest

/-- The lexemes of a named value. -/
def Argument.lexemes : Argument → List Placed
  | .mk comment name value => (Lexeme.name name).after comment :: .mark ':' :: value.lexemes

/-- The lexemes of named values. -/
def lexemesOfArguments : List Argument → List Placed
  | [] => []
  | argument :: rest => argument.lexemes ++ lexemesOfArguments rest

end

/-- There is no value without a lexeme. -/
theorem Value.lexemes_ne_nil (value : Value) : value.lexemes ≠ [] := by
  cases value <;> exact List.cons_ne_nil _ _

theorem lexemesOfItems_eq (items : List Value) :
    lexemesOfItems items = items.flatMap Value.lexemes := by
  induction items with
  | nil => rfl
  | cons value rest ih => rw [lexemesOfItems, ih, List.flatMap_cons]

theorem lexemesOfArguments_eq (arguments : List Argument) :
    lexemesOfArguments arguments = arguments.flatMap Argument.lexemes := by
  induction arguments with
  | nil => rfl
  | cons argument rest ih => rw [lexemesOfArguments, ih, List.flatMap_cons]

/-- The lexemes of a part that is left out when there is nothing in it. -/
def optional {α : Type} (opening closing : Char) (lexemes : α → List Placed) (as : List α) :
    List Placed :=
  if as.isEmpty then [] else enclosed opening closing (as.flatMap lexemes)

theorem length_le_optional {α : Type} (opening closing : Char) (lexemes : α → List Placed)
    (as : List α) :
    (as.flatMap lexemes).length ≤ (optional opening closing lexemes as).length := by
  cases as with
  | nil => exact Nat.zero_le _
  | cons a as =>
    rw [optional, if_neg (by simp), length_enclosed]
    exact Nat.le_add_right _ 2

/-- The lexemes of a directive. -/
def Directive.lexemes (directive : Directive) : List Placed :=
  .signed '@' directive.name :: optional '(' ')' Argument.lexemes directive.arguments

/-- The first lexemes of a field: its label, if it has one, and its name. -/
def headOfField (comment label : Option String) (written : String) : List Placed :=
  match label with
  | none => [(Lexeme.name written).after comment]
  | some label => [(Lexeme.name label).after comment, .mark ':', .name written]

/-- The lexemes of a type condition. -/
def typeCondition : Option String → List Placed
  | none => []
  | some on => [.name "on", .name on]

mutual

/-- The lexemes of a selection. -/
def Selection.lexemes : Selection → List Placed
  | .field comment label name arguments directives selections =>
    headOfField comment label name ++ (optional '(' ')' Argument.lexemes arguments ++
      (directives.flatMap Directive.lexemes ++
        if selections.isEmpty then [] else enclosed '\x7b' '\x7d' (lexemesOfSelections selections)))
  | .spread name directives =>
    .ellipsis :: .name name :: directives.flatMap Directive.lexemes
  | .inline on directives selections =>
    .ellipsis :: (typeCondition on ++ (directives.flatMap Directive.lexemes ++
      enclosed '\x7b' '\x7d' (lexemesOfSelections selections)))

/-- The lexemes of selections. -/
def lexemesOfSelections : List Selection → List Placed
  | [] => []
  | selection :: rest => selection.lexemes ++ lexemesOfSelections rest

end

theorem lexemesOfSelections_eq (selections : List Selection) :
    lexemesOfSelections selections = selections.flatMap Selection.lexemes := by
  induction selections with
  | nil => rfl
  | cons selection rest ih => rw [lexemesOfSelections, ih, List.flatMap_cons]

/-- The lexemes of a selection set. -/
def lexemesOfSet (selections : List Selection) : List Placed :=
  enclosed '\x7b' '\x7d' (selections.flatMap Selection.lexemes)

theorem Selection.lexemes_field (comment label : Option String) (name : String)
    (arguments : List Argument) (directives : List Directive) (selections : List Selection) :
    (Selection.field comment label name arguments directives selections).lexemes =
      headOfField comment label name ++ (optional '(' ')' Argument.lexemes arguments ++
        (directives.flatMap Directive.lexemes ++
          optional '\x7b' '\x7d' Selection.lexemes selections)) := by
  rw [Selection.lexemes, lexemesOfSelections_eq]
  rfl

/-- The lexemes of a type. -/
def TypeRef.lexemes : TypeRef → List Placed
  | .named name => [.name name]
  | .list element => enclosed '[' ']' element.lexemes
  | .nonNull base => base.lexemes ++ [.mark '!']

/-- The lexemes of a default. -/
def lexemesOfDefault : Option Value → List Placed
  | none => []
  | some value => .mark '=' :: value.lexemes

/-- The lexemes of a variable definition. -/
def VariableDefinition.lexemes (definition : VariableDefinition) : List Placed :=
  .signed '$' definition.name :: .mark ':' ::
    (definition.type.lexemes ++ lexemesOfDefault definition.default)

/-- The lexemes of an operation that starts with its keyword. -/
def Operation.lexemes (operation : Operation) : List Placed :=
  (Lexeme.name operation.kind.keyword).after operation.comment ::
    (operation.name.toList.map Placed.name ++
      (optional '(' ')' VariableDefinition.lexemes operation.declared ++
        (operation.directives.flatMap Directive.lexemes ++ lexemesOfSet operation.selections)))

/-- The lexemes of a fragment definition. -/
def Fragment.lexemes (fragment : Fragment) : List Placed :=
  .name "fragment" :: .name fragment.name :: .name "on" ::
    .name fragment.on :: (fragment.directives.flatMap Directive.lexemes ++
      lexemesOfSet fragment.selections)

/-- **The lexemes of a definition**, in one of its forms. -/
inductive Definition.Renders : Definition → List Placed → Prop
  | operation (operation : Operation) : Renders (.operation operation) operation.lexemes
  | shorthand (comment : Option String) (selections : List Selection) :
      Renders (.operation ⟨comment, .query, none, [], [], selections⟩)
        ((Lexeme.mark '\x7b').after comment ::
          (selections.flatMap Selection.lexemes ++ [.mark '\x7d']))
  | fragment (fragment : Fragment) : Renders (.fragment fragment) fragment.lexemes

/-- **The lexemes of a document**: those of its definitions, one after the other. -/
def Document.Renders (document : Document) (items : List Placed) : Prop :=
  ∃ parts : List (List Placed),
    List.Forall₂ Definition.Renders document.definitions parts ∧ items = parts.flatten

/-! ### Well-formed documents -/

mutual

/-- No enumeration value in a value is a keyword. -/
def Value.isWellFormed : Value → Bool
  | .enum name => !(["true", "false", "null"].contains name)
  | .list items => areWellFormedItems items
  | .object fields => areWellFormedArguments fields
  | _ => true

/-- The elements of a list are well-formed. -/
def areWellFormedItems : List Value → Bool
  | [] => true
  | value :: rest => value.isWellFormed && areWellFormedItems rest

/-- Named values are well-formed. -/
def areWellFormedArguments : List Argument → Bool
  | [] => true
  | .mk _ _ value :: rest => value.isWellFormed && areWellFormedArguments rest

end

/-- The arguments of a directive are well-formed. -/
def Directive.isWellFormed (directive : Directive) : Bool :=
  areWellFormedArguments directive.arguments

mutual

/-- No fragment that is spread is called `on`, and no inline fragment is empty. -/
def Selection.isWellFormed : Selection → Bool
  | .field _ _ _ arguments directives selections =>
    areWellFormedArguments arguments && directives.all Directive.isWellFormed &&
      areWellFormedSelections selections
  | .spread name directives => name != "on" && directives.all Directive.isWellFormed
  | .inline _ directives selections =>
    directives.all Directive.isWellFormed && !selections.isEmpty &&
      areWellFormedSelections selections

/-- Selections are well-formed. -/
def areWellFormedSelections : List Selection → Bool
  | [] => true
  | selection :: rest => selection.isWellFormed && areWellFormedSelections rest

end

/-- A type is not marked twice as having a value. -/
def TypeRef.isWellFormed : TypeRef → Bool
  | .named _ => true
  | .list element => element.isWellFormed
  | .nonNull (.nonNull _) => false
  | .nonNull base => base.isWellFormed

/-- A variable has a well-formed type and a well-formed default. -/
def VariableDefinition.isWellFormed (definition : VariableDefinition) : Bool :=
  definition.type.isWellFormed && definition.default.all Value.isWellFormed

/-- An operation selects something, and its parts are well-formed. -/
def Operation.isWellFormed (operation : Operation) : Bool :=
  operation.declared.all VariableDefinition.isWellFormed &&
    operation.directives.all Directive.isWellFormed && !operation.selections.isEmpty &&
    areWellFormedSelections operation.selections

/-- A fragment is not called `on` and selects something, and its parts are well-formed. -/
def Fragment.isWellFormed (fragment : Fragment) : Bool :=
  fragment.name != "on" && fragment.directives.all Directive.isWellFormed &&
    !fragment.selections.isEmpty && areWellFormedSelections fragment.selections

/-- A definition is well-formed. -/
def Definition.isWellFormed : Definition → Bool
  | .operation defined => defined.isWellFormed
  | .fragment defined => defined.isWellFormed

/-- **A document that has a text**: it has a definition, and all are well-formed. -/
def Document.isWellFormed (document : Document) : Bool :=
  !document.definitions.isEmpty && document.definitions.all Definition.isWellFormed

end QueryAccess
