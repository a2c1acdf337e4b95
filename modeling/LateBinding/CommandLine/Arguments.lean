import LateBinding.Table

/-!
# LateBinding.CommandLine.Arguments

Reading one level of command-line arguments, from left to right: options, operands
and the name of a command that takes the remaining arguments.

* `--name`, `--name=value`, `--name value`: a long option.
* `-x`, `-xvalue`, `-x=value`, `-x value`: a short one; several that take no value
  may share one dash.
* `--` ends the options of a level.

No option may be given twice at one level.
-/

namespace LateBinding.CommandLine

/-- Why arguments are not read to their end: help or the version is asked for, or
they are misused. -/
inductive Stop where
  | help
  | version
  | misuse
  deriving DecidableEq, Repr

/-- What an option does: it is noted, it takes a value that must pass a test, or it
stops the reading. -/
inductive Effect where
  | flag
  | value (isValid : String → Bool)
  | stop (why : Stop)

/-- An option with its two spellings. -/
structure OptionSpec where
  long : String
  short : Option Char := none
  effect : Effect

/-- What a level admits: its options, a test for each operand in turn, and the
names of commands. -/
structure Level where
  options : List OptionSpec
  operands : List (String → Bool) := []
  commands : List String := []

/-- What was read: the options given, flags with an empty value; the operands; and
the command with the arguments left to it. -/
structure Arguments where
  options : Table String String := {}
  operands : List String := []
  command : Option (String × List String) := none
  deriving Repr, Inhabited, DecidableEq

namespace Arguments

/-- The value of an option. -/
def value? (a : Arguments) (long : String) : Option String := a.options.get? long

/-- Note an option. -/
def note (a : Arguments) (spec : OptionSpec) (value : String) : Except Stop Arguments :=
  if (a.value? spec.long).isSome then .error .misuse
  else .ok { a with options := a.options.insert spec.long value }

/-- Note an option that is given without a value at hand. -/
def noteBare (a : Arguments) (spec : OptionSpec) : Except Stop Arguments :=
  match spec.effect with
  | .flag => a.note spec ""
  | .value _ => .error .misuse
  | .stop why => .error why

/-- Note an option that is given with a value. -/
def noteValue (a : Arguments) (spec : OptionSpec) (value : String) : Except Stop Arguments :=
  match spec.effect with
  | .value isValid => if isValid value then a.note spec value else .error .misuse
  | _ => .error .misuse

/-- Note an operand. -/
def noteOperand (a : Arguments) (level : Level) (operand : String) : Except Stop Arguments :=
  match level.operands[a.operands.length]? with
  | some isValid =>
    if isValid operand then .ok { a with operands := a.operands ++ [operand] }
    else .error .misuse
  | none => .error .misuse

end Arguments

/-! ## the shape of an argument -/

/-- What an argument looks like while options are still read. -/
inductive Shape where
  | endOfOptions
  | long (name : List Char) (attached : Option (List Char))
  | short (cluster : List Char)
  | operand
  deriving DecidableEq, Repr

/-- Split a long option at its first equals sign. -/
def splitAttached (cs : List Char) : Shape :=
  match cs.dropWhile (· ≠ '=') with
  | '=' :: value => .long (cs.takeWhile (· ≠ '=')) (some value)
  | _ => .long cs none

/-- The shape of an argument; a single dash is an operand. -/
def shape (arg : String) : Shape :=
  match arg.toList with
  | ['-', '-'] => .endOfOptions
  | '-' :: '-' :: cs => splitAttached cs
  | '-' :: c :: cs => .short (c :: cs)
  | _ => .operand

/-- Whether the next argument may be the value of an option. -/
def isValue (arg : String) : Bool := shape arg == .operand

/-! ## reading -/

/-- What reading an argument leads to: to further reading, or to reading on once
the next argument has been taken as the value of an option. -/
inductive Progress where
  | done (a : Arguments)
  | awaiting (a : Arguments) (spec : OptionSpec)

/-- An option given without a value at hand may still find it in the next
argument. -/
def noteOrAwait (a : Arguments) (spec : OptionSpec) : Except Stop Progress :=
  match spec.effect with
  | .value _ => .ok (.awaiting a spec)
  | _ => (a.noteBare spec).map .done

/-- Read a long option. -/
def readLong (level : Level) (a : Arguments) (name : List Char) (attached : Option (List Char)) :
    Except Stop Progress :=
  match level.options.find? fun spec => spec.long.toList == name with
  | none => .error .misuse
  | some spec =>
    match attached with
    | some value => (a.noteValue spec (String.ofList value)).map .done
    | none => noteOrAwait a spec

/-- Read short options that share a dash.  What follows one that takes a value is
the value, with or without an equals sign. -/
def readCluster (level : Level) (a : Arguments) : List Char → Except Stop Progress
  | [] => .ok (.done a)
  | c :: cs =>
    match level.options.find? fun spec => spec.short == some c with
    | none => .error .misuse
    | some spec =>
      match spec.effect, cs with
      | .value _, [] => noteOrAwait a spec
      | .value _, '=' :: value | .value _, value =>
        (a.noteValue spec (String.ofList value)).map .done
      | _, _ =>
        match a.noteBare spec with
        | .error why => .error why
        | .ok a => readCluster level a cs

/-- Read one argument while options are still read. -/
def readOne (level : Level) (a : Arguments) (arg : String) : Except Stop Progress :=
  match shape arg with
  | .long name attached => readLong level a name attached
  | .short cluster => readCluster level a cluster
  | _ => (a.noteOperand level arg).map .done

/-- Read operands only, to the end. -/
def readOperands (level : Level) (a : Arguments) : List String → Except Stop Arguments
  | [] => .ok a
  | arg :: rest =>
    match a.noteOperand level arg with
    | .error why => .error why
    | .ok a => readOperands level a rest

/-- Read the arguments of a level, with the option that still awaits its value. -/
def readFrom (level : Level) (a : Arguments) (awaiting : Option OptionSpec) :
    List String → Except Stop Arguments
  | [] => if awaiting.isSome then .error .misuse else .ok a
  | arg :: rest =>
    match awaiting with
    | some spec =>
      if isValue arg then
        match a.noteValue spec arg with
        | .error why => .error why
        | .ok a => readFrom level a none rest
      else .error .misuse
    | none =>
      if level.commands.contains arg then .ok { a with command := some (arg, rest) }
      else if shape arg = .endOfOptions then readOperands level a rest
      else
        match readOne level a arg with
        | .error why => .error why
        | .ok (.done a) => readFrom level a none rest
        | .ok (.awaiting a spec) => readFrom level a (some spec) rest

/-- Read the arguments of a level. -/
def Level.read (level : Level) (args : List String) : Except Stop Arguments :=
  readFrom level {} none args

end LateBinding.CommandLine
