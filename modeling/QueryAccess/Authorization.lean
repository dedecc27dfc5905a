import QueryAccess.Rules

/-!
# Authorizations

An authorization answers requests by a rule source, a default policy, a custom check, and
a flag that says whether a denial gives its reasons.

The rules are compiled below the default policy's root policy, so they are compiled anew
when either changes: from a new source when one is accepted, and from the last accepted
one when the default policy changes. A blank source changes nothing, and a setting that
is refused leaves everything as it was.
-/

namespace QueryAccess

/-- Why a setting is refused. -/
inductive ConfigError where
  | rules (e : SyntaxError)
  | badPolicy (text : String)
deriving DecidableEq, Repr

/-- The wording of a refusal. -/
def ConfigError.message : ConfigError → String
  | rules e => "invalid rules: " ++ e.report
  | badPolicy text => "invalid default policy `" ++ text ++ "`: expected \"DROP\" or \"ACCEPT\""

/-- Why a request cannot be judged. -/
inductive InvocationError where
  | query (e : SyntaxError)
  | params (fault : ParamsFault)
  | badVariables
deriving DecidableEq, Repr

/-- The wording of an error. -/
def InvocationError.message : InvocationError → String
  | query e => "invalid query: " ++ e.report
  | params fault => fault.message
  | badVariables => "query variables must be a JSON object"

/-- A request that can be judged. -/
structure Request where
  document : Document
  bindings : Dict Json
  caller : Caller

/-- Rules with their settings. -/
structure Authorization where
  /-- The last accepted rule source. -/
  source : Option Document
  rules : RuleTree
  defaultPolicy : DefaultPolicy
  debug : Bool
  check : Option Check

namespace Authorization

/-- The authorization without rules: everything is dropped, without reasons. -/
def initial : Authorization := ⟨none, .empty, .drop, false, none⟩

/-- Takes a rule source; a blank one changes nothing. -/
def setRules (gate : Authorization) (text : String) : Except ConfigError Authorization :=
  if Text.isBlankText text.toList then .ok gate
  else
    match Document.ofText text with
    | .error e => .error (.rules e)
    | .ok document =>
      .ok { gate with
        source := some document
        rules := .ofDocument document gate.defaultPolicy.rootPolicy }

/-- The authorization of a rule source, which may be blank. -/
def ofRules (text : String) : Except ConfigError Authorization := initial.setRules text

/-- Takes a default policy. -/
def setPolicy (gate : Authorization) (policy : DefaultPolicy) : Authorization :=
  { gate with
    defaultPolicy := policy
    rules :=
      match gate.source with
      | some document => .ofDocument document policy.rootPolicy
      | none => gate.rules }

/-- Takes the default policy that a text means. -/
def setPolicyText (gate : Authorization) (text : String) : Except ConfigError Authorization :=
  match DefaultPolicy.ofText? text with
  | some policy => .ok (gate.setPolicy policy)
  | none => .error (.badPolicy text)

/-- Says whether denials give their reasons. -/
def setDebug (gate : Authorization) (debug : Bool) : Authorization := { gate with debug := debug }

/-- Takes a custom check. -/
def setCheck (gate : Authorization) (check : Check) : Authorization :=
  { gate with check := some check }

/-- The verdict on a request. -/
def validateRequest (gate : Authorization) (request : Request) : Verdict :=
  let verdict :=
    gate.rules.validate request.document request.bindings request.caller gate.defaultPolicy
      gate.check
  if verdict.isAllowed || gate.debug then verdict else .denied Verdict.notAuthorized

/-- The request of a query text, data for its variables, and parameters. Of several faults
the first is the error: those of the caller, then of the variables, then of the query. -/
def request (query : String) (data params : Json) : Except InvocationError Request :=
  match Caller.ofParams params with
  | .error fault => .error (.params fault)
  | .ok caller =>
    match data.fields? with
    | none => .error .badVariables
    | some bindings =>
      match Document.ofText query with
      | .error e => .error (.query e)
      | .ok document => .ok ⟨document, bindings, caller⟩

/-- The verdict on a query text with data for its variables and parameters. -/
def validateWithVariables (gate : Authorization) (query : String) (data params : Json) :
    Except InvocationError Verdict :=
  (request query data params).map gate.validateRequest

/-- The verdict on a query text with nothing bound to its variables. -/
def validate (gate : Authorization) (query : String) (params : Json) :
    Except InvocationError Verdict :=
  gate.validateWithVariables query (.object []) params

end Authorization

end QueryAccess
