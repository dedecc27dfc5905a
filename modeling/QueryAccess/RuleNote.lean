import QueryAccess.Caller
import QueryAccess.DropRule.Basic
import QueryAccess.Json.Reader
import QueryAccess.Policy

/-!
# Rule notes

A comment of a rule source may be a note: a JSON object that says who may see what stands
after it. Its `DROP` and `ACCEPT` list roles, and its `$dropIf` lists drop rules. A
comment that does not begin with a brace is just a comment.

**What must be right.** The text has to be JSON, `DROP` and `ACCEPT` may come once each,
and each has to be a list of roles or null. Anything else makes the note malformed
(`QueryAccess.RuleNote.read` has no note then).

**What may be wrong.** All other keys are optional extras, and a mistake there costs no
more than itself: `$dropIf` is dropped as a whole unless it is an array, an entry is
dropped unless it is an object with a list of `roles`, and an operator of an entry is
dropped unless it is known and has an object of texts. An entry left without operators
stays. Operators come in the order of their keys, and the paths of one operator in the
order of the paths.
-/

namespace QueryAccess

/-- What a note says: a policy, and drop rules where it has some. -/
structure RuleNote where
  policy : Policy
  dropRules : Option (List DropRule)

/-- What a comment is, read as a note. -/
inductive RuleNote.Reading where
  | plain
  | malformed
  | note (note : RuleNote)

namespace RuleNote

/-- The key of the dropped roles. -/
def dropKey : String := "DROP"

/-- The key of the accepted roles. -/
def acceptKey : String := "ACCEPT"

/-- The key of the roles that a drop rule is meant for. -/
def rolesKey : String := "roles"

/-! ### Drop rules -/

/-- The clauses of one operator: an object of texts, path to reference. -/
def clausesOf (operator : Operator) (paths : Json) : List Clause :=
  match paths.fields?.bind fun fields =>
      fields.mapM fun (path, reference) => reference.string?.map (path, ·) with
  | none => []
  | some pairs => pairs.map fun (path, reference) => ⟨operator, path, reference⟩

/-- The clauses of the fields of an entry: those of its operators. The roles are no
operator. -/
def clausesOfFields (fields : Dict Json) : List Clause :=
  fields.flatMap fun (key, paths) =>
    match Operator.ofKey? key with
    | none => []
    | some operator => clausesOf operator paths

/-- The drop rule of an entry: an object with a list of roles. -/
def dropRule? (entry : Json) : Option DropRule := do
  let fields ← entry.fields?
  let roles ← (← fields.lookup rolesKey).roleList?
  return ⟨.ofList roles, clausesOfFields fields⟩

/-- The drop rules of the entries of an array. -/
def dropRulesOf (entries : Json) : List DropRule :=
  match entries.items? with
  | none => []
  | some items => items.filterMap dropRule?

/-! ### Notes -/

/-- The only value under a key, if the key comes at most once: none when it is missing. -/
def single? (key : String) (fields : List (String × Json)) : Option (Option Json) :=
  match fields.filter fun (name, _) => name == key with
  | [] => some none
  | [(_, json)] => some (some json)
  | _ => none

/-- The set of roles under a key that comes at most once; no roles when it is missing or
null. -/
def roleSet? (key : String) (fields : List (String × Json)) : Option RoleSet := do
  match ← single? key fields with
  | none => return .empty
  | some .null => return .empty
  | some json => return .ofList (← json.roleList?)

/-- The note that fields make, in the order of the text. -/
def ofFields? (fields : List (String × Json)) : Option RuleNote := do
  let drop ← roleSet? dropKey fields
  let accept ← roleSet? acceptKey fields
  -- of several lists of drop rules the last one counts
  let rules :=
    match (Dict.ofList fields).lookup DropRule.key with
    | none => []
    | some entries => dropRulesOf entries
  return ⟨⟨drop, accept⟩, if rules = [] then none else some rules⟩

/-- Reads a comment as a note. -/
def read (comment : String) : Reading :=
  let text := Text.trim comment.toList
  if text.head? = some '\x7b' then
    match (Json.fieldsOfText? text).bind ofFields? with
    | some note => .note note
    | none => .malformed
  else .plain

/-- The policy and the drop rules after a comment, below an inherited policy; none if the
comment is a malformed note. -/
def mergeInto? (inherited : Policy) (comment : String) :
    Option (Policy × Option (List DropRule)) :=
  match read comment with
  | .plain => some (inherited, none)
  | .malformed => none
  | .note note => some (inherited.merge note.policy, note.dropRules)

end RuleNote

end QueryAccess
