import QueryAccess.Json.Basic
import QueryAccess.Text.Blank

/-!
# Callers

A caller brings *roles* and *parameters*: a data value that conditions look things up in.
The claims stand in the parameters under `userClaims`, the roles among them under `roles`.
`QueryAccess.Caller.ofRoles` starts from a list of roles, `QueryAccess.Caller.ofParams`
from parameters that come from outside and may lack what they should have.

A reference is a text of names and positions with points between them. It is followed
through objects and arrays; where it leads nowhere there is nothing to find.
-/

namespace QueryAccess

/-- Who asks. -/
structure Caller where
  roles : List String
  params : Json

/-- What may be wrong with the parameters of a caller. -/
inductive ParamsFault where
  | noClaims
  | noRoles
  | badRoles
deriving DecidableEq, Repr

/-- The wording of a fault. -/
def ParamsFault.message : ParamsFault → String
  | noClaims => "validation parameters have no `userClaims` object"
  | noRoles => "validation parameters have no `userClaims.roles`"
  | badRoles => "`userClaims.roles` must be a string or an array of strings"

/-- A list of roles as data: a string is a single role, and an array has only strings. -/
def Json.roleList? : Json → Option (List String)
  | .string role => some [role]
  | json => json.strings?

namespace Caller

/-- The key of the claims. -/
def claimsKey : String := "userClaims"

/-- The key of the roles among the claims. -/
def rolesKey : String := "roles"

/-- A caller with these roles and no other claims. -/
def ofRoles (roles : List String) : Caller :=
  { roles := roles
    params := .object [(claimsKey, .object [(rolesKey, .array (roles.map .string))])] }

/-- The claims, where the parameters have an object of them. -/
def claims? (caller : Caller) : Option (Dict Json) :=
  (caller.params.field? claimsKey).bind Json.fields?

/-- The caller with a claim, in place of one of that name. The roles stay what they are,
whatever is claimed. -/
def withClaim (caller : Caller) (name : String) (value : Json) : Caller :=
  match caller.params, caller.claims? with
  | .object fields, some claims =>
    { caller with
      params := .object (Dict.insert claimsKey (.object (Dict.insert name value claims)) fields) }
  | _, _ => caller

/-- The caller of these parameters. Roles that are null are as good as none. -/
def ofParams (params : Json) : Except ParamsFault Caller :=
  match (params.field? claimsKey).bind Json.fields? with
  | none => .error .noClaims
  | some claims =>
    match claims.lookup rolesKey with
    | none => .error .noRoles
    | some .null => .error .noRoles
    | some roles =>
      match roles.roleList? with
      | none => .error .badRoles
      | some roles => .ok ⟨roles, params⟩

/-! ### References -/

/-- The position that a part of a reference writes: digits, perhaps after a plus. -/
def position? (part : List Char) : Option Nat :=
  let digits := match part with
    | '+' :: digits => digits
    | digits => digits
  if digits ≠ [] ∧ digits.all Char.isDigit then some (Nat.ofDigitChars 10 digits 0) else none

/-- The value that one part of a reference leads to. -/
def step? (json : Json) (part : List Char) : Option Json :=
  match json with
  | .object fields => fields.lookup (String.ofList part)
  | .array items => (position? part).bind fun i => items[i]?
  | _ => none

/-- The value of the parameters that a reference leads to. -/
def lookup? (caller : Caller) (reference : String) : Option Json :=
  (Text.splitOn '.' reference.toList).foldlM step? caller.params

end Caller

end QueryAccess
