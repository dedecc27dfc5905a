import QueryAccess.Caller
import QueryAccess.DropRule.Basic
import QueryAccess.Json.Printer
import QueryAccess.Tree.Basic

/-!
# Evaluating drop rules

A drop rule is evaluated on the tree of a query, at a *scope* – the exact path that the
clauses start from – and with the side on which their paths begin. Each clause is
compared at every place of the tree that its path means, and each comparison that holds
gives a message; a clause whose path cannot be read gives none.

What is missing counts as null: a place without a value, a reference that leads nowhere,
and a path that means no place at all, which is then compared once, as the path itself.
-/

namespace QueryAccess

namespace Operator

/-- What a message says of a comparison that holds, before the operand. -/
def wording : Operator → String
  | eq => "can't match value"
  | neq => "doesn't match expected value"
  | gt => "can't be >"
  | gte => "can't be >="
  | lt => "can't be <"
  | lte => "can't be <="

end Operator

/-- An operand as a message shows it: a string as it is, anything else as data. -/
def Json.operandText : Json → String
  | .string text => text
  | json => json.compact

namespace Clause

/-- The message of a clause that holds at a path, against an operand. -/
def report (clause : Clause) (path : TreePath) (operand : Json) : String :=
  "Input type \"" ++ path.text ++ "\" value " ++ clause.operator.wording ++ " \"" ++
    operand.operandText ++ "\""

/-- The places of a query that a relative path means, with their values: one without a
value if it means none. -/
def places (query : Tree) (scope : TreePath) (relative : List Segment) :
    List (TreePath × Json) :=
  let found :=
    match query.get? scope with
    | none => []
    | some base => base.resolve relative
  if found.isEmpty then [(scope.join relative, .null)]
  else found.map fun (segments, node) => (scope.join segments, node.value.getD .null)

/-- The messages of a clause. -/
def messages (clause : Clause) (query : Tree) (scope : TreePath) (facet : Facet)
    (caller : Caller) : List String :=
  match Segment.relative? clause.path facet with
  | none => []
  | some relative =>
    let operand := (caller.lookup? clause.reference).getD .null
    (places query scope relative).filterMap fun (path, value) =>
      if clause.operator.holds value operand then some (clause.report path operand) else none

end Clause

namespace DropRule

/-- The messages of a rule: none if it does not reach the caller. -/
def messages (rule : DropRule) (query : Tree) (scope : TreePath) (facet : Facet)
    (caller : Caller) : List String :=
  if rule.reaches caller.roles then
    rule.clauses.flatMap fun clause => clause.messages query scope facet caller
  else []

/-- The messages of several rules, in their order. -/
def evaluate (rules : List DropRule) (query : Tree) (scope : TreePath) (facet : Facet)
    (caller : Caller) : List String :=
  rules.flatMap fun rule => rule.messages query scope facet caller

end DropRule

end QueryAccess
