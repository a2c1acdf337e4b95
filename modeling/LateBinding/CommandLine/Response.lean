import LateBinding.CommandLine.Command
import LateBinding.Scenario.File
import LateBinding.Scenario.Render
import LateBinding.SlotTable

/-!
# LateBinding.CommandLine.Response

What a command answers.  Files are read through a function, so that the answer is
a matter of their contents alone.

A command that cannot be carried out, and a run with an unmet expectation, ends
with code 1; misused arguments end with code 2.
-/

namespace LateBinding.CommandLine

/-- The answer to a command: exit code, standard output and the error told. -/
structure Response where
  exitCode : UInt32 := 0
  output : String := ""
  error : Option String := none
  deriving DecidableEq, Repr, Inhabited

/-- The answer of a command that cannot be carried out. -/
def Response.failure (error : String) : Response := { exitCode := 1, error := some error }

/-- The name and number of the program. -/
def versionText : String := "slot-sim 0.1.0\n"

/-- How the program is used. -/
def usageText : String :=
  "Usage: slot-sim [-v] run FILE [--json] [-c FILE] [--override-lookup RULE]\n" ++
    "       slot-sim [-v] vtable FILE CLASS\n" ++
    "       slot-sim [-v] config\n"

/-- The answer to arguments that name no command. -/
def Stop.response : Stop → Response
  | .help => { output := usageText }
  | .version => { output := versionText }
  | .misuse => { exitCode := 2 }

/-! ## commands -/

/-- The answer of `run`, given what loading the scenario and the settings gave. -/
def runResponse (file : String) (json : Bool) (s : Scenario) (config : Config) : Response :=
  match s.run config with
  | .error _ => .failure ("Failed to run scenario: " ++ file)
  | .ok r =>
    { exitCode := if r.allMet then 0 else 1
      output := if json then r.json ++ "\n" else r.text }

/-- The answer of `vtable`, given what loading the scenario gave. -/
def vtableResponse (file className : String) (s : Scenario) : Response :=
  let failure := Response.failure ("Failed to build hierarchy from " ++ file)
  match s.hierarchy with
  | .error _ => failure
  | .ok h =>
    match h.classNamed? className with
    | none => failure
    | some c => { output := SlotRow.render (h.slotRows c) }

section

variable {m : Type → Type} [Monad m]

/-- Load a scenario and go on with it. -/
def withScenario (read : String → m (Option ByteArray)) (file : String)
    (next : Scenario → m Response) : m Response := do
  match parseFile Scenario.ofToml? (← read file) with
  | .error _ => return .failure ("Failed to load scenario: " ++ file)
  | .ok s => next s

/-- Load settings, if a file is named, and go on with them. -/
def withConfig (read : String → m (Option ByteArray)) (file : Option String) (default : Config)
    (next : Config → m Response) : m Response := do
  match file with
  | none => next default
  | some file =>
    match parseFile Config.ofToml? (← read file) with
    | .error _ => return .failure ("Failed to read config file: " ++ file)
    | .ok c => next c

/-- Carry out a command. -/
def Command.respond (read : String → m (Option ByteArray)) : Command → m Response
  | .run file json configFile lookup =>
    withScenario read file fun s =>
      withConfig read configFile s.config fun c =>
        return runResponse file json s { c with lookup := lookup.getD c.lookup }
  | .vtable file className =>
    withScenario read file fun s => return vtableResponse file className s
  | .config => return { output := ({} : Config).tomlText }

/-- Answer to command-line arguments. -/
def respond (read : String → m (Option ByteArray)) (args : List String) : m Response :=
  match Command.ofArgs args with
  | .error why => return why.response
  | .ok command => command.respond read

end

end LateBinding.CommandLine
