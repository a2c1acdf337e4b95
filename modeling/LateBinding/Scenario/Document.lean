import LateBinding.Document.Decode
import LateBinding.Scenario.Basic

/-!
# LateBinding.Scenario.Document

Scenarios and settings read from documents and written as documents.

A scenario document has a table `config` and the lists `class` and `call`; only
the name of a class, the name and kind of a method, the static type and method of
a call, and the method of a body call must be given.  A written document gives
every field, `null` for what is absent.
-/

namespace LateBinding

/-! ## reading -/

namespace Document

/-- A primitive type. -/
def primitive? (dialect : Dialect) : Document → Option Primitive :=
  word? dialect Primitive.ofName?

/-- A list of primitive types. -/
def primitives? (dialect : Dialect) : Document → Option (List Primitive) :=
  list? (primitive? dialect)

/-- Settings; each has a default. -/
def config? (dialect : Dialect) (d : Document) : Option Config := do
  let field ← d.record? dialect ["override_lookup", "max_call_depth"]
  let lookup ←
    defaulted ({} : Config).lookup (word? dialect LookupRule.ofName?) (field "override_lookup")
  let maxCallDepth ← defaulted ({} : Config).maxCallDepth count? (field "max_call_depth")
  return { lookup, maxCallDepth }

/-- A call of a body. -/
def selfCall? (dialect : Dialect) (d : Document) : Option SelfCall := do
  let field ← d.record? dialect ["method", "args"]
  let method ← required string? (field "method")
  let args ← defaulted [] (primitives? dialect) (field "args")
  return { method, args }

/-- A method of a class. -/
def methodDecl? (dialect : Dialect) (d : Document) : Option MethodDecl := do
  let field ← d.record? dialect ["name", "kind", "params", "body"]
  let name ← required string? (field "name")
  let kind ← required (word? dialect MethodKind.ofName?) (field "kind")
  let params ← defaulted [] (primitives? dialect) (field "params")
  let body ← defaulted [] (list? (selfCall? dialect)) (field "body")
  return { name, kind, signature := ⟨params⟩, body }

/-- A class. -/
def scenarioClass? (dialect : Dialect) (d : Document) : Option ClassEntry := do
  let field ← d.record? dialect ["name", "parent", "methods"]
  let name ← required string? (field "name")
  let parent ← defaulted none (nullable? string?) (field "parent")
  let methods ← defaulted [] (list? (methodDecl? dialect)) (field "methods")
  return { name, parent, methods }

/-- A call. -/
def scenarioCall? (dialect : Dialect) (d : Document) : Option CallEntry := do
  let field ← d.record? dialect ["static", "runtime", "method", "args", "expect", "trace"]
  let static ← required string? (field "static")
  let runtime ← defaulted none (nullable? string?) (field "runtime")
  let method ← required string? (field "method")
  let args ← defaulted [] (primitives? dialect) (field "args")
  let expect ← defaulted none (nullable? string?) (field "expect")
  let trace ← defaulted false bool? (field "trace")
  return { static, runtime, method, args, expect, trace }

/-- A scenario. -/
def scenario? (dialect : Dialect) (d : Document) : Option Scenario := do
  let field ← d.record? dialect ["config", "class", "call"]
  let config ← defaulted {} (config? dialect) (field "config")
  let classes ← defaulted [] (list? (scenarioClass? dialect)) (field "class")
  let calls ← defaulted [] (list? (scenarioCall? dialect)) (field "call")
  return { config, classes, calls }

end Document

/-! ## writing -/

/-- A list of primitive types as a document. -/
def primitivesDocument (ps : List Primitive) : Document := .words (ps.map (·.name))

/-- Settings as a document. -/
def Config.document (c : Config) : Document :=
  .table [("override_lookup", .string c.lookup.name), ("max_call_depth", .int c.maxCallDepth)]

/-- A call of a body as a document. -/
def SelfCall.document (c : SelfCall) : Document :=
  .table [("method", .string c.method), ("args", primitivesDocument c.args)]

/-- A method as a document. -/
def MethodDecl.document (d : MethodDecl) : Document :=
  .table
    [ ("name", .string d.name), ("kind", .string d.kind.name),
      ("params", primitivesDocument d.signature.params), ("body", .array (d.body.map (·.document))) ]

/-- A class as a document. -/
def ClassEntry.document (c : ClassEntry) : Document :=
  .table
    [ ("name", .string c.name), ("parent", .orNull (c.parent.map .string)),
      ("methods", .array (c.methods.map (·.document))) ]

/-- A call as a document. -/
def CallEntry.document (c : CallEntry) : Document :=
  .table
    [ ("static", .string c.static), ("runtime", .orNull (c.runtime.map .string)),
      ("method", .string c.method), ("args", primitivesDocument c.args),
      ("expect", .orNull (c.expect.map .string)), ("trace", .bool c.trace) ]

/-- A scenario as a document. -/
def Scenario.document (s : Scenario) : Document :=
  .table
    [ ("config", s.config.document), ("class", .array (s.classes.map (·.document))),
      ("call", .array (s.calls.map (·.document))) ]

end LateBinding
