/-!
# LateBinding.Document.Basic

Document values: what a scenario or a configuration is read from, and what a
report is written as.  TOML and JSON documents are both values of this one type.
`null` occurs in JSON only, `date` in TOML only.
-/

namespace LateBinding

/-- A document value.  Decimals and dates are kept as they are written, since
nothing is ever computed with them. -/
inductive Document where
  | null
  | bool (value : Bool)
  | int (value : Int)
  | decimal (text : String)
  | date (text : String)
  | string (value : String)
  | array (items : List Document)
  | table (entries : List (String × Document))
  deriving Repr, Inhabited

namespace Document

/-- A list of words. -/
def words (ws : List String) : Document := .array (ws.map .string)

/-- A value that may be absent, absent being `null`. -/
def orNull : Option Document → Document
  | some d => d
  | none => .null

end Document

end LateBinding
