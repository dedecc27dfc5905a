import QueryAccess.Json.Basic
import QueryAccess.Policy
import QueryAccess.Text.Blank

/-!
# Verdicts and default policies

The answer to a request is a verdict: whether it is allowed, and a message if it is not.
As data it is an object with both; an array of the two is read as well.

A default policy decides where no rule does. Its text is its keyword, with blank
characters around it and in letters of either case.
-/

namespace QueryAccess

/-- The answer to a request. -/
structure Verdict where
  isAllowed : Bool
  message : String
deriving DecidableEq, Repr

namespace Verdict

/-- The verdict that allows. -/
def allowed : Verdict := ⟨true, ""⟩

/-- The verdict that denies, with a message. -/
def denied (message : String) : Verdict := ⟨false, message⟩

/-- What a caller is told who is not to know the reasons. -/
def notAuthorized : String := "Not authorized!"

/-- A verdict as data. -/
def toJson (verdict : Verdict) : Json :=
  .object [("isAllowed", .bool verdict.isAllowed), ("message", .string verdict.message)]

/-- The verdict that data stand for. Further fields of an object mean nothing. -/
def ofJson? : Json → Option Verdict
  | .object fields => do
    let isAllowed ← (← fields.lookup "isAllowed").bool?
    let message ← (← fields.lookup "message").string?
    return ⟨isAllowed, message⟩
  | .array [isAllowed, message] => do
    let isAllowed ← isAllowed.bool?
    let message ← message.string?
    return ⟨isAllowed, message⟩
  | _ => none

/-- A verdict is read back from its data. -/
theorem ofJson?_toJson (verdict : Verdict) : ofJson? verdict.toJson = some verdict := by
  obtain ⟨isAllowed, message⟩ := verdict
  rfl

end Verdict

/-- What holds where no rule does. -/
inductive DefaultPolicy where
  | drop
  | accept
deriving DecidableEq, Repr

namespace DefaultPolicy

/-- The keyword of a default policy. -/
def keyword : DefaultPolicy → String
  | drop => "DROP"
  | accept => "ACCEPT"

/-- The default policy with that keyword. -/
def ofKeyword? (keyword : String) : Option DefaultPolicy :=
  if keyword = "DROP" then some drop
  else if keyword = "ACCEPT" then some accept
  else none

/-- The policy that rule trees inherit from. -/
def rootPolicy : DefaultPolicy → Policy
  | drop => .dropAll
  | accept => .acceptAll

/-- The default policy that a text means. -/
def ofText? (text : String) : Option DefaultPolicy :=
  ofKeyword? (String.ofList ((Text.trim text.toList).map Char.toUpper))

/-- The default policy that data stand for: its keyword, or an object whose only field has
that name and is null. -/
def ofJson? : Json → Option DefaultPolicy
  | .string keyword => ofKeyword? keyword
  | .object [(keyword, .null)] => ofKeyword? keyword
  | _ => none

/-- Every default policy is found under its keyword. -/
theorem ofKeyword?_keyword (default : DefaultPolicy) :
    ofKeyword? default.keyword = some default := by
  cases default <;> decide

end DefaultPolicy

end QueryAccess
