/-!
# LateBinding.Config

The two settings of a run: which methods overload selection may pick, and how
deeply bodies may call one another.
-/

namespace LateBinding

/-- Where overrides take part in overload selection.  At the override, they are
candidates in their own class like any other method.  At the introduction, they
are reached only through the virtual method they override, and a class that
declares nothing but overrides of a name does not stop the walk for it. -/
inductive LookupRule where
  | atOverride
  | atIntroduction
  deriving DecidableEq, Repr, Inhabited

namespace LookupRule

/-- The word for a lookup rule. -/
def name : LookupRule → String
  | .atOverride => "at-override"
  | .atIntroduction => "at-introduction"

/-- The lookup rule that a word stands for; case counts. -/
def ofName? : String → Option LookupRule
  | "at-override" => some .atOverride
  | "at-introduction" => some .atIntroduction
  | _ => none

end LookupRule

/-- The settings of a run. -/
structure Config where
  lookup : LookupRule := .atOverride
  /-- How many levels of body calls an execution may reach below its first call. -/
  maxCallDepth : Nat := 64
  deriving DecidableEq, Repr, Inhabited

namespace Config

/-- The settings as a TOML document, one line each. -/
def tomlText (c : Config) : String :=
  "override_lookup = \"" ++ c.lookup.name ++ "\"\n" ++
    "max_call_depth = " ++ toString c.maxCallDepth ++ "\n"

end Config

end LateBinding
