import QueryAccess.DropRule.Operator
import QueryAccess.RoleSet

/-!
# Drop rules

A note may ask that a request be dropped if certain comparisons hold. Such a drop rule
names the roles it is meant for and a list of clauses; each clause compares what stands
at a path of the query with what the caller brings under a reference, and a clause that
holds drops the request.

A drop rule reaches a caller whose roles *all* belong to it – one further role takes the
caller out of its reach – and a rule for the wildcard reaches everyone.
-/

namespace QueryAccess

/-- One comparison: of the value at a path, relative to where the rule is placed, with
the value the caller has under a reference. -/
structure Clause where
  operator : Operator
  path : String
  reference : String
deriving DecidableEq, Repr

/-- The comparisons on which the requests of certain callers are dropped. -/
structure DropRule where
  roles : RoleSet
  clauses : List Clause
deriving DecidableEq, Repr

namespace DropRule

/-- The key under which a note holds its drop rules. -/
def key : String := "$dropIf"

/-- Whether the rule reaches a caller with these roles. -/
def reaches (rule : DropRule) (roles : List String) : Bool :=
  rule.roles.hasWildcard || roles.all rule.roles.contains

end DropRule

end QueryAccess
