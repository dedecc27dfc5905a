import QueryAccess.Authorization
import QueryAccess.Json.Printer
import QueryAccess.Json.Reader

/-!
# The command line

The command judges one query by a file of rules and prints the verdict as data. This
module has all of it but the reading and printing: the options
(`QueryAccess.CommandLine.Options.ofArguments?`), and the outcome, given the texts of the
files and of the standard input (`QueryAccess.CommandLine.execute`).

The exit code is `0` if the query is allowed, `1` if it is denied, and `2` if there is no
verdict; the failure then says why (`QueryAccess.CommandLine.Failure`).
-/

namespace QueryAccess.CommandLine

/-! ### Options -/

/-- The options of the command. -/
structure Options where
  rules : String
  /-- The file of the query; a single hyphen is the standard input. -/
  query : String
  /-- The file of the data for variables. -/
  bindings : Option String
  params : Option String
  roles : List String
  defaultPolicy : DefaultPolicy
  debug : Bool
  verbose : Bool
deriving DecidableEq, Repr

/-- An option as it is given: a name, with a value or without. -/
inductive Given where
  | flag (name : String)
  | setting (name value : String)
deriving DecidableEq, Repr

/-- The flags: options without a value. -/
def flagNames : List String := ["debug", "verbose"]

/-- The settings: options with a value. -/
def settingNames : List String :=
  ["rules", "query", "variables", "params", "role", "default-policy"]

/-- The name that a letter stands for. -/
def nameOfLetter? : Char → Option String
  | 'r' => some "rules"
  | 'q' => some "query"
  | 'v' => some "verbose"
  | _ => none

/-- The option of an argument: its name, and the value that stands in the argument
itself. -/
def splitArgument? (argument : String) : Option (String × Option String) :=
  match argument.toList with
  | '-' :: '-' :: rest =>
    let name := String.ofList (rest.takeWhile (· != '='))
    match rest.dropWhile (· != '=') with
    | [] => some (name, none)
    | _ :: value => some (name, some (String.ofList value))
  | ['-', letter] => (nameOfLetter? letter).map fun name => (name, none)
  | '-' :: letter :: '=' :: value =>
    (nameOfLetter? letter).map fun name => (name, some (String.ofList value))
  | '-' :: letter :: value =>
    (nameOfLetter? letter).map fun name => (name, some (String.ofList value))
  | _ => none

/-- The options of a list of arguments. A setting has its value in the same argument or
in the next one, which then does not begin with a hyphen, unless it is nothing else. -/
def givenOf? : List String → Option (List Given)
  | [] => some []
  | argument :: rest =>
    match splitArgument? argument with
    | none => none
    | some (name, value) =>
      if name ∈ flagNames then
        match value with
        | none => (givenOf? rest).map (.flag name :: ·)
        | some _ => none
      else if name ∈ settingNames then
        match value, rest with
        | some value, rest => (givenOf? rest).map (.setting name value :: ·)
        | none, next :: rest =>
          if next.toList.head? = some '-' ∧ next ≠ "-" then none
          else (givenOf? rest).map (.setting name next :: ·)
        | none, [] => none
      else none

/-- The values of a setting, in their order. -/
def valuesOf (given : List Given) (name : String) : List String :=
  given.filterMap fun
    | .flag _ => none
    | .setting other value => if other = name then some value else none

/-- The value of a setting that may be given once; none when it is missing. -/
def single? (given : List Given) (name : String) : Option (Option String) :=
  match valuesOf given name with
  | [] => some none
  | [value] => some (some value)
  | _ => none

/-- Whether a flag that may be given once is given. -/
def flag? (given : List Given) (name : String) : Option Bool :=
  match given.filter (· == .flag name) with
  | [] => some false
  | [_] => some true
  | _ => none

/-- The default policy that the option for it names, in small letters. -/
def defaultPolicy? : Option String → Option DefaultPolicy
  | none => some .drop
  | some "drop" => some .drop
  | some "accept" => some .accept
  | some _ => none

/-- The options of the command's arguments. Parameters and roles exclude each other. -/
def Options.ofArguments? (arguments : List String) : Option Options := do
  let given ← givenOf? arguments
  let rules ← (← single? given "rules")
  let query ← single? given "query"
  let bindings ← single? given "variables"
  let params ← single? given "params"
  let roles := valuesOf given "role"
  let defaultPolicy ← defaultPolicy? (← single? given "default-policy")
  let debug ← flag? given "debug"
  let verbose ← flag? given "verbose"
  if params.isSome && !roles.isEmpty then none
  else
    return { rules := rules
             query := query.getD "-"
             bindings := bindings
             params := params
             roles := roles
             defaultPolicy := defaultPolicy
             debug := debug
             verbose := verbose }

/-! ### The outcome -/

/-- Why there is no verdict. -/
inductive Failure where
  | usage
  | unreadable (file : String)
  | badRules (file : String) (e : ConfigError)
  | badVariables (file : String)
  | badParams
  | noCaller
  | invocation (e : InvocationError)
deriving DecidableEq, Repr

/-- The wording of an error, with the wording of its cause. A syntax error is the cause of
the error it leads to. -/
def withCause (message : String) (cause : Option SyntaxError) : String :=
  match cause with
  | some e => message ++ ": " ++ e.report
  | none => message

/-- The syntax error behind a refused setting. -/
def causeOfConfig : ConfigError → Option SyntaxError
  | .rules e => some e
  | .badPolicy _ => none

/-- The syntax error behind a request that cannot be judged. -/
def causeOfInvocation : InvocationError → Option SyntaxError
  | .query e => some e
  | .params _ => none
  | .badVariables => none

/-- What the arguments may be. -/
def usageText : String :=
  "usage: --rules FILE [--query FILE] [--variables FILE] [--params JSON | --role ROLE ...] " ++
    "[--default-policy drop|accept] [--debug] [--verbose]"

/-- The wording of a failure. -/
def Failure.message : Failure → String
  | usage => usageText
  | unreadable file => "failed to read " ++ file
  | badRules file e =>
    "failed to compile rules from " ++ file ++ ": " ++ withCause e.message (causeOfConfig e)
  | badVariables file => "failed to parse variables in " ++ file
  | badParams => "failed to parse --params"
  | noCaller => "no caller given; pass --params or at least one --role"
  | invocation e => withCause e.message (causeOfInvocation e)

section Run

/-- The texts of the files that can be read. -/
abbrev Files : Type := String → Option String

/-- The text of a file. -/
def readFile (files : Files) (file : String) : Except Failure String :=
  match files file with
  | some text => .ok text
  | none => .error (.unreadable file)

/-- The query: a file, or the standard input. -/
def queryText (options : Options) (files : Files) (stdin : String) : Except Failure String :=
  if options.query = "-" then .ok stdin else readFile files options.query

/-- The data for variables: those of a file, or none. -/
def bindingsOf (options : Options) (files : Files) : Except Failure Json :=
  match options.bindings with
  | none => .ok (.object [])
  | some file => do
    match Json.ofText? (← readFile files file).toList with
    | some json => return json
    | none => .error (.badVariables file)

/-- The parameters: data given as such, or those of a caller with the given roles. -/
def paramsOf (options : Options) : Except Failure Json :=
  match options.params with
  | some text =>
    match Json.ofText? text.toList with
    | some json => .ok json
    | none => .error .badParams
  | none =>
    if options.roles = [] then .error .noCaller else .ok (Caller.ofRoles options.roles).params

/-- The authorization that the options ask for. With the verbose flag it looks at every
leaf, and has nothing to say. -/
def authorizationOf (options : Options) (rules : String) : Except Failure Authorization :=
  match Authorization.ofRules rules with
  | .error e => .error (.badRules options.rules e)
  | .ok gate =>
    let gate := (gate.setPolicy options.defaultPolicy).setDebug options.debug
    .ok (if options.verbose then gate.setCheck fun _ => [] else gate)

/-- The verdict that the command comes to. -/
def run (options : Options) (files : Files) (stdin : String) : Except Failure Verdict := do
  -- what is missing first in this order is the failure
  let gate ← authorizationOf options (← readFile files options.rules)
  let query ← queryText options files stdin
  let data ← bindingsOf options files
  let params ← paramsOf options
  match gate.validateWithVariables query data params with
  | .ok verdict => return verdict
  | .error e => .error (.invocation e)

/-- The outcome of the command on its arguments. -/
def execute (arguments : List String) (files : Files) (stdin : String) :
    Except Failure Verdict :=
  match Options.ofArguments? arguments with
  | none => .error .usage
  | some options => run options files stdin

end Run

/-- The exit code of an outcome. -/
def exitCode : Except Failure Verdict → UInt8
  | .ok verdict => if verdict.isAllowed then 0 else 1
  | .error _ => 2

/-- What a verdict is printed as. -/
def printed (verdict : Verdict) : String := verdict.toJson.pretty ++ "\n"

/-- What an outcome puts on the standard output: the verdict, if there is one. -/
def output : Except Failure Verdict → String
  | .ok verdict => printed verdict
  | .error _ => ""

end QueryAccess.CommandLine
