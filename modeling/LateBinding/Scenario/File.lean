import LateBinding.Scenario.Document
import LateBinding.Toml.Reader

/-!
# LateBinding.Scenario.File

Scenarios and settings read from TOML text and from the contents of files.
-/

namespace LateBinding

/-- Why a file gives no value: it cannot be read as text, or its text is not the
document that is expected. -/
inductive FileError where
  | unreadable
  | malformed
  deriving DecidableEq, Repr

/-- A scenario written in TOML. -/
def Scenario.ofToml? (text : String) : Option Scenario :=
  (Toml.read? text).bind (·.scenario? .toml)

/-- Settings written in TOML. -/
def Config.ofToml? (text : String) : Option Config := (Toml.read? text).bind (·.config? .toml)

/-- What the content of a file is parsed to; there is no content if there is no
such file. -/
def parseFile {α : Type} (parse? : String → Option α) (content : Option ByteArray) :
    Except FileError α :=
  match content.bind String.fromUTF8? with
  | none => .error .unreadable
  | some text =>
    match parse? text with
    | some a => .ok a
    | none => .error .malformed

end LateBinding
