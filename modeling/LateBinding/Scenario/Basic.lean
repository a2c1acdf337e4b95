import LateBinding.Method
import LateBinding.Config

/-!
# LateBinding.Scenario.Basic

A scenario: classes with their methods, settings, and calls with what is
expected of them.
-/

namespace LateBinding

/-- A class of a scenario, with the methods to declare in it. -/
structure ClassEntry where
  name : String
  parent : Option String := none
  methods : List MethodDecl := []
  deriving DecidableEq, Repr, Inhabited

/-- A call of a scenario. -/
structure CallEntry where
  static : String
  /-- The runtime type; without one, it is the static type. -/
  runtime : Option String := none
  method : String
  args : List Primitive := []
  /-- The expected result text. -/
  expect : Option String := none
  /-- Whether to execute the call as well. -/
  trace : Bool := false
  deriving DecidableEq, Repr, Inhabited

/-- A hierarchy to declare, and the calls to run against it. -/
structure Scenario where
  config : Config := {}
  classes : List ClassEntry := []
  calls : List CallEntry := []
  deriving DecidableEq, Repr, Inhabited

end LateBinding
