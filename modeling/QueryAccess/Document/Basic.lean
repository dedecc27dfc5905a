/-!
# Query documents

The executable part of GraphQL as data: operations and fragment definitions, with their
selections, arguments and values. Rule sources and client queries are both documents.

Two things of the text are kept that a query engine would drop. The *comment* standing
before an operation, a field, an argument or an object field is kept with it, trimmed –
rule sources write their notes there. And a number keeps its own text, since what it
means depends on who reads it.

Named values are one type, `QueryAccess.Argument`: an argument of a field or a directive
and a field of an object value have the same parts.
-/

namespace QueryAccess

/-- The type of a variable. -/
inductive TypeRef where
  | named (name : String)
  | list (element : TypeRef)
  | nonNull (base : TypeRef)
deriving DecidableEq, Repr

mutual

/-- A value as it is written. -/
inductive Value where
  | variable (name : String)
  | int (text : String)
  | float (text : String)
  | string (text : String)
  | boolean (flag : Bool)
  | null
  | enum (name : String)
  | list (items : List Value)
  | object (fields : List Argument)

/-- A value with a name, and the comment before it. -/
inductive Argument where
  | mk (comment : Option String) (name : String) (value : Value)

end

namespace Argument

/-- The comment before the name. -/
def comment : Argument → Option String
  | .mk comment _ _ => comment

/-- The name. -/
def name : Argument → String
  | .mk _ name _ => name

/-- The value. -/
def value : Argument → Value
  | .mk _ _ value => value

end Argument

/-- A directive: it is read, and changes nothing. -/
structure Directive where
  name : String
  arguments : List Argument

/-- A member of a selection set: a field, the spread of a named fragment, or an inline
fragment. The label of a field is its alias, under which the client asks for the answer. -/
inductive Selection where
  | field (comment label : Option String) (name : String) (arguments : List Argument)
      (directives : List Directive) (selections : List Selection)
  | spread (name : String) (directives : List Directive)
  | inline (on : Option String) (directives : List Directive) (selections : List Selection)

/-- What an operation does. -/
inductive OperationKind where
  | query
  | mutation
  | subscription
deriving DecidableEq, Repr

/-- The keyword of a kind; it is also the root of the paths of such operations. -/
def OperationKind.keyword : OperationKind → String
  | .query => "query"
  | .mutation => "mutation"
  | .subscription => "subscription"

/-- The kind with that keyword. -/
def OperationKind.ofKeyword? : String → Option OperationKind
  | "query" => some .query
  | "mutation" => some .mutation
  | "subscription" => some .subscription
  | _ => none

/-- Every kind is found under its keyword. -/
theorem OperationKind.ofKeyword?_keyword (kind : OperationKind) :
    ofKeyword? kind.keyword = some kind := by
  cases kind <;> rfl

/-- Different kinds have different keywords. -/
theorem OperationKind.keyword_injective : Function.Injective keyword := by
  intro a b h
  have hkind := congrArg ofKeyword? h
  rwa [ofKeyword?_keyword, ofKeyword?_keyword, Option.some.injEq] at hkind

/-- A variable that an operation declares. -/
structure VariableDefinition where
  name : String
  type : TypeRef
  default : Option Value

/-- An operation. -/
structure Operation where
  comment : Option String
  kind : OperationKind
  name : Option String
  declared : List VariableDefinition
  directives : List Directive
  selections : List Selection

/-- A fragment definition. -/
structure Fragment where
  name : String
  on : String
  directives : List Directive
  selections : List Selection

/-- A definition of a document. -/
inductive Definition where
  | operation (operation : Operation)
  | fragment (fragment : Fragment)

/-- A document: its definitions in the order of the text. -/
structure Document where
  definitions : List Definition

namespace Document

/-- The operations, in the order of the text. -/
def operations (document : Document) : List Operation :=
  document.definitions.filterMap fun
    | .operation operation => some operation
    | .fragment _ => none

/-- The fragment definitions, in the order of the text. -/
def fragments (document : Document) : List Fragment :=
  document.definitions.filterMap fun
    | .operation _ => none
    | .fragment fragment => some fragment

end Document

end QueryAccess
