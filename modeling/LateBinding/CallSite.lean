import LateBinding.Hierarchy.Query

/-!
# LateBinding.CallSite

A call as written, `((Static) object).method(arguments)`, together with the class
of the object.  A call site is only ever made for an object whose class is the
static type or a descendant of it.
-/

namespace LateBinding

/-- A method call: the static type of the receiver expression, the runtime type
of the receiver, the called name and the types of the arguments. -/
structure CallSite where
  static : ClassId
  runtime : ClassId
  method : String
  args : List Primitive
  deriving DecidableEq, Repr, Inhabited

/-- Why there is no such call site. -/
inductive CallSiteError where
  | unknownClass (name : String)
  | notADescendant (static runtime : String)
  deriving DecidableEq, Repr

namespace CallSiteError

/-- What to say about an impossible call site. -/
def message : CallSiteError → String
  | unknownClass name => "class `" ++ name ++ "` is not declared"
  | notADescendant static runtime =>
    "runtime type `" ++ runtime ++ "` is not `" ++ static ++ "` or one of its descendants"

end CallSiteError

namespace CallSite

/-! ## making call sites -/

/-- The call site for two classes given by number; the static type is looked at
first. -/
def make (h : Hierarchy) (static runtime : ClassId) (method : String) (args : List Primitive) :
    Except CallSiteError CallSite :=
  match h.class? static, h.class? runtime with
  | none, _ => .error (.unknownClass static.text)
  | some _, none => .error (.unknownClass runtime.text)
  | some s, some r =>
    if h.isSameOrDescendant runtime static then .ok ⟨static, runtime, method, args⟩
    else .error (.notADescendant s.name r.name)

/-- The call site for two classes given by name; the static type is looked up
first. -/
def ofNames (h : Hierarchy) (static runtime : String) (method : String)
    (args : List Primitive) : Except CallSiteError CallSite :=
  match h.classNamed? static, h.classNamed? runtime with
  | none, _ => .error (.unknownClass static)
  | some _, none => .error (.unknownClass runtime)
  | some s, some r => make h s r method args

/-- The call site of a receiver whose static and runtime types agree. -/
def direct (h : Hierarchy) (c : ClassId) (method : String) (args : List Primitive) :
    Except CallSiteError CallSite :=
  make h c c method args

/-! ## text -/

/-- The call as written: `Class.method(arguments)`, or
`((Static) Runtime).method(arguments)` if the two types differ. -/
def describe (h : Hierarchy) (site : CallSite) : String :=
  let receiver :=
    if site.static = site.runtime then h.className site.runtime
    else "((" ++ h.className site.static ++ ") " ++ h.className site.runtime ++ ")"
  receiver ++ "." ++ site.method ++ parenthesized site.args

end CallSite

end LateBinding
