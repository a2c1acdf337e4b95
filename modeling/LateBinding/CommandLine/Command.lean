import LateBinding.CommandLine.Arguments
import LateBinding.Config

/-!
# LateBinding.CommandLine.Command

The commands of the simulator and the arguments that name them.

```
[-v] run FILE [--json] [-c FILE] [--override-lookup RULE]
[-v] vtable FILE CLASS
[-v] config
```
-/

namespace LateBinding.CommandLine

/-- A command: run a scenario, print the slot table of a class, or print the
default settings. -/
inductive Command where
  | run (file : String) (json : Bool) (config : Option String) (lookup : Option LookupRule)
  | vtable (file className : String)
  | config
  deriving DecidableEq, Repr, Inhabited

/-! ## levels -/

/-- A path must not be empty. -/
def isPath (s : String) : Bool := !s.isEmpty

/-- The options that every level knows. -/
def commonOptions : List OptionSpec :=
  [ { long := "verbose", short := some 'v', effect := .flag },
    { long := "help", short := some 'h', effect := .stop .help } ]

/-- The arguments before the command. -/
def rootLevel : Level where
  options :=
    commonOptions ++ [{ long := "version", short := some 'V', effect := .stop .version }]
  commands := ["run", "vtable", "config", "help"]

/-- The arguments of `run`. -/
def runLevel : Level where
  options :=
    commonOptions ++
      [ { long := "json", effect := .flag },
        { long := "config", short := some 'c', effect := .value isPath },
        { long := "override-lookup",
          effect := .value fun s => (LookupRule.ofName? s).isSome } ]
  operands := [isPath]

/-- The arguments of `vtable`. -/
def vtableLevel : Level where
  options := commonOptions
  operands := [isPath, fun _ => true]

/-- The arguments of `config`. -/
def configLevel : Level where
  options := commonOptions

/-! ## commands -/

/-- The command of read arguments of `run`. -/
def runCommand (a : Arguments) : Except Stop Command :=
  match a.operands with
  | [file] =>
    .ok (.run file (a.value? "json").isSome (a.value? "config")
      ((a.value? "override-lookup").bind LookupRule.ofName?))
  | _ => .error .misuse

/-- The command of read arguments of `vtable`. -/
def vtableCommand (a : Arguments) : Except Stop Command :=
  match a.operands with
  | [file, className] => .ok (.vtable file className)
  | _ => .error .misuse

/-- What `help` with the names of commands asks for. -/
def helpStop : List String → Stop
  | [] => .help
  | [name] => if rootLevel.commands.contains name then .help else .misuse
  | _ => .misuse

/-- The command that arguments stand for. -/
def Command.ofArgs (args : List String) : Except Stop Command := do
  match (← rootLevel.read args).command with
  | some ("run", rest) => runCommand (← runLevel.read rest)
  | some ("vtable", rest) => vtableCommand (← vtableLevel.read rest)
  | some ("config", rest) => do
    let _ ← configLevel.read rest
    return .config
  | some ("help", rest) => .error (helpStop rest)
  | _ => .error .misuse

end LateBinding.CommandLine
