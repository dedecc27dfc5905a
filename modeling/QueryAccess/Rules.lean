import QueryAccess.Document.Reader
import QueryAccess.DropRule.Evaluation
import QueryAccess.Tree.OfDocument
import QueryAccess.Verdict

/-!
# Rules and their verdicts

A rule tree says who may see what. A query is held against it leaf by leaf: the *rule
path* of a leaf is its exact path with every key replaced by the field's own name and the
list indices left out, and the leaf is allowed if the policy at that place of the rule
tree allows the caller – or, where there is none, if the default policy accepts.

**Visits.** `QueryAccess.RuleTree.visits` goes through the tree of a query, each root and
then its children one after the other, and lists what it meets: the messages of drop
rules, and the leaves (`QueryAccess.Visit`). Drop rules on a named node are evaluated
from the node's parent, on the node's side; those on a root from the root itself, on the
side of the outputs.

**Verdicts.** `QueryAccess.RuleTree.validate` tallies the visits. A leaf that is not
allowed is denied by its exact path. A message of a drop rule counts once; a custom check
sees every leaf, and all its messages count. The request is allowed if the tally is
empty.
-/

namespace QueryAccess

/-- A compiled rule source. -/
structure RuleTree where
  tree : Tree

/-- A leaf of a query, as it is judged: its place, the place of its rule, the policy
there, who asks, and the value. -/
structure LeafContext where
  path : TreePath
  rulePath : TreePath
  policy : Option Policy
  caller : Caller
  value : Option Json

/-- A custom check: the messages it has for a leaf. -/
abbrev Check : Type := LeafContext → List String

/-- What is met on the way through a query. -/
inductive Visit where
  | dropped (messages : List String)
  | leaf (context : LeafContext)

/-- Whether a leaf is allowed, with a default where it has no policy. -/
def LeafContext.isAllowed (context : LeafContext) (default : DefaultPolicy) : Bool :=
  match context.policy with
  | some policy => policy.allows context.caller.roles
  | none => default == .accept

namespace RuleTree

/-- The rule tree without rules. -/
def empty : RuleTree := ⟨.empty⟩

/-- The rule tree of a document, below a root policy. -/
def ofDocument (document : Document) (policy : Policy) : RuleTree :=
  ⟨Tree.ofDocument document [] (some policy)⟩

/-- The rule tree of a rule source, below a root policy. -/
def ofText (text : String) (policy : Policy) : Except SyntaxError RuleTree :=
  (Document.ofText text).map fun document => ofDocument document policy

/-- Whether there are no rules. -/
def isEmpty (rules : RuleTree) : Bool := rules.tree.isEmpty

/-- The policy that rules the places of a path. -/
def policyAt? (rules : RuleTree) (path : TreePath) : Option Policy :=
  (rules.tree.ruleAt? path).bind fun node => node.policy

/-! ### Visits -/

section Visits

variable (rules : RuleTree) (query : Tree) (caller : Caller)

/-- The messages of the drop rules on a node of the rule tree. -/
def dropMessages (rule : Option Node) (scope : TreePath) (facet : Facet) : List String :=
  match rule.bind fun node => node.dropRules with
  | some dropRules => DropRule.evaluate dropRules query scope facet caller
  | none => []

/-- The visit of a node itself, if it is a leaf. -/
def leafVisit (node : Node) (exact normalized : TreePath) : List Visit :=
  if node.isLeaf then
    [.leaf ⟨exact, normalized, rules.policyAt? normalized, caller, node.value⟩]
  else []

mutual

/-- The visits below a node. -/
def visitsBelow (exact normalized : TreePath) : Node → List Visit
  | ⟨inputs, outputs, items, _, _, _, _⟩ =>
    visitsOfNamed exact normalized .input inputs ++
      visitsOfNamed exact normalized .output outputs ++
      visitsOfItems exact normalized 0 items

/-- The visits of named children and below. -/
def visitsOfNamed (exact normalized : TreePath) (facet : Facet) :
    List (String × Node) → List Visit
  | [] => []
  | (name, child) :: rest =>
    let exactChild := exact.child (.named facet name)
    let normalizedChild := normalized.child (.named facet (child.nameUnder name))
    .dropped (dropMessages query caller (rules.tree.ruleAt? normalizedChild) exact facet) ::
      (leafVisit rules caller child exactChild normalizedChild ++
        visitsBelow exactChild normalizedChild child ++
        visitsOfNamed exact normalized facet rest)

/-- The visits of items from a position on, and below. -/
def visitsOfItems (exact normalized : TreePath) (i : Nat) : List Node → List Visit
  | [] => []
  | item :: rest =>
    let exactItem := exact.child (.index i)
    leafVisit rules caller item exactItem normalized ++ visitsBelow exactItem normalized item ++
      visitsOfItems exact normalized (i + 1) rest

end

/-- The visits of a root and below. -/
def visitsOfRoot (keyword : String) (root : Node) : List Visit :=
  let path := TreePath.ofRoot keyword
  .dropped (dropMessages query caller (rules.tree.root? keyword) path .output) ::
    (leafVisit rules caller root path path ++ visitsBelow rules query caller path path root)

/-- The visits of a query. -/
def visits : List Visit :=
  query.roots.flatMap fun (keyword, root) => visitsOfRoot rules query caller keyword root

/-- The leaves of a query, as they are judged. -/
def leaves : List LeafContext :=
  (visits rules query caller).filterMap fun
    | .dropped _ => none
    | .leaf context => some context

end Visits

end RuleTree

/-! ### Verdicts -/

/-- What stands against a request: the denied places, and further messages. -/
structure Tally where
  denied : List TreePath
  failures : List String
deriving DecidableEq, Repr

namespace Tally

/-- Nothing stands against the request. -/
def empty : Tally := ⟨[], []⟩

/-- One more message, unless it is there already. -/
def addOnce (failures : List String) (message : String) : List String :=
  if message ∈ failures then failures else failures ++ [message]

/-- The tally after a visit. -/
def add (default : DefaultPolicy) (check : Option Check) (tally : Tally) : Visit → Tally
  | .dropped messages => { tally with failures := messages.foldl addOnce tally.failures }
  | .leaf context =>
    { denied :=
        if context.isAllowed default then tally.denied else tally.denied ++ [context.path]
      failures :=
        match check with
        | some check => tally.failures ++ check context
        | none => tally.failures }

/-- The sentence on the denied places. -/
def deniedMessage (roles : List String) (denied : List TreePath) : String :=
  "User with roles [" ++ String.intercalate ", " roles ++
    "] is not authorized to access resources: " ++
    String.intercalate "; " (denied.map TreePath.text) ++ "."

/-- The verdict of a tally on a caller with these roles. -/
def verdict (tally : Tally) (roles : List String) : Verdict :=
  let parts :=
    (if tally.denied = [] then [] else [deniedMessage roles tally.denied]) ++
      (if tally.failures = [] then [] else [String.intercalate "; " tally.failures])
  if parts = [] then .allowed else .denied (String.intercalate " " parts)

end Tally

namespace RuleTree

/-- The tally of the tree of a query. -/
def tally (rules : RuleTree) (query : Tree) (caller : Caller) (default : DefaultPolicy)
    (check : Option Check) : Tally :=
  (rules.visits query caller).foldl (Tally.add default check) .empty

/-- The verdict on a query, with data bound to its variables; a custom check may have its
say. -/
def validate (rules : RuleTree) (query : Document) (bindings : Dict Json) (caller : Caller)
    (default : DefaultPolicy) (check : Option Check) : Verdict :=
  (rules.tally (Tree.ofDocument query bindings none) caller default check).verdict caller.roles

end RuleTree

end QueryAccess
