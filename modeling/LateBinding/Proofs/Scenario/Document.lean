import LateBinding.Scenario.Document
import LateBinding.Proofs.Text
import LateBinding.Proofs.Document.Record
import Mathlib.Logic.Relation

/-!
# LateBinding.Proofs.Scenario.Document

Scenarios are read back from the documents they are written as, and from documents that spell them
in another way.

Reading passes over unknown keys, fills in defaults and knows two words for hiding.  For each
record there is a list of its fields with what may happen to their values: the values of one record
may be records again, so the edits of a scenario are built from those of its classes, methods, body
calls, calls and settings.  Each decoder is unaffected by the edits of its record, from the
innermost record outwards.
-/

namespace LateBinding

theorem LookupRule.ofName?_name (r : LookupRule) : ofName? r.name = some r := by cases r <;> rfl

theorem MethodKind.ofName?_name (k : MethodKind) : ofName? k.name = some k := by cases k <;> rfl

namespace Document

variable {dialect : Dialect}

/-! ## written documents -/

theorem count?_int {n : Nat} (hn : n < countLimit) : count? (.int n) = some n := by
  simp [count?, hn]

theorem nullable?_orNull_string (s : Option String) :
    nullable? string? (.orNull (s.map .string)) = some s := by
  cases s <;> rfl

theorem primitives?_primitivesDocument (ps : List Primitive) :
    primitives? dialect (primitivesDocument ps) = some ps := by
  have hword : ∀ p : Primitive, primitive? dialect (.string p.name) = some p :=
    Primitive.ofName?_name
  simpa [primitivesDocument, words, primitives?, list?, Function.comp_def] using
    decodeAll_map hword ps

theorem config?_document {c : Config} (hdepth : c.maxCallDepth < countLimit) :
    c.document.config? dialect = some c := by
  simp [config?, Config.document, record?_table, List.lookup_cons, word?, count?_int hdepth,
    LookupRule.ofName?_name]

theorem selfCall?_document (c : SelfCall) : c.document.selfCall? dialect = some c := by
  simp [selfCall?, SelfCall.document, record?_table, List.lookup_cons, string?,
    primitives?_primitivesDocument]

theorem methodDecl?_document (m : MethodDecl) : m.document.methodDecl? dialect = some m := by
  simp [methodDecl?, MethodDecl.document, record?_table, List.lookup_cons, string?, word?, list?,
    primitives?_primitivesDocument, MethodKind.ofName?_name, decodeAll_map selfCall?_document]

theorem scenarioClass?_document (c : ClassEntry) : c.document.scenarioClass? dialect = some c := by
  simp [scenarioClass?, ClassEntry.document, record?_table, List.lookup_cons, string?, list?,
    nullable?_orNull_string, decodeAll_map methodDecl?_document]

theorem scenarioCall?_document (c : CallEntry) : c.document.scenarioCall? dialect = some c := by
  simp [scenarioCall?, CallEntry.document, record?_table, List.lookup_cons, string?, bool?,
    nullable?_orNull_string, primitives?_primitivesDocument]

/-- A scenario is read back from the document that it is written as. -/
theorem scenario?_document {s : Scenario} (hdepth : s.config.maxCallDepth < countLimit) :
    s.document.scenario? dialect = some s := by
  simp [scenario?, Scenario.document, record?_table, List.lookup_cons, list?, config?_document hdepth,
    decodeAll_map scenarioClass?_document, decodeAll_map scenarioCall?_document]

/-! ## settings that are read -/

theorem lt_countLimit_of_count? {d : Document} {n : Nat} (hn : d.count? = some n) :
    n < countLimit := by
  cases d with
  | int i =>
      simp only [count?, Option.ite_none_right_eq_some, Option.some.injEq] at hn
      omega
  | _ => simp [count?] at hn

theorem maxCallDepth_lt_of_config? {d : Document} {c : Config} (hc : d.config? dialect = some c) :
    c.maxCallDepth < countLimit := by
  simp only [config?, Option.bind_eq_bind, Option.bind_eq_some_iff, Option.pure_def,
    Option.some.injEq] at hc
  obtain ⟨field, -, lookup, -, maxCallDepth, hdepth, rfl⟩ := hc
  exact of_defaulted_eq_some (p := (· < countLimit)) (by decide)
    (fun _ _ => lt_countLimit_of_count?) hdepth

/-- Every scenario that is read is one that can be written and read back. -/
theorem maxCallDepth_lt_of_scenario? {d : Document} {s : Scenario}
    (hs : d.scenario? dialect = some s) : s.config.maxCallDepth < countLimit := by
  simp only [scenario?, Option.bind_eq_bind, Option.bind_eq_some_iff, Option.pure_def,
    Option.some.injEq] at hs
  obtain ⟨field, -, config, hconfig, classes, -, calls, -, rfl⟩ := hs
  exact of_defaulted_eq_some (p := (·.maxCallDepth < countLimit)) (by decide)
    (fun _ _ => maxCallDepth_lt_of_config?) hconfig

/-! ## edits -/

/-- No edits at all. -/
def noEdits : Edits := fun _ _ => False

/-- The other word for hiding. -/
inductive KindEdit : Edits
  | word : KindEdit (.string "hide") (.string "new")
  | key (payload : Document) : KindEdit (.table [("hide", payload)]) (.table [("new", payload)])

/-- The fields of settings. -/
def configFields (dialect : Dialect) : List Field :=
  [ .defaulted "override_lookup" ({} : Config).lookup (word? dialect LookupRule.ofName?) noEdits,
    .defaulted "max_call_depth" ({} : Config).maxCallDepth count? noEdits ]

/-- The fields of a body call. -/
def selfCallFields (dialect : Dialect) : List Field :=
  [.required "method" noEdits, .defaulted "args" [] (primitives? dialect) noEdits]

/-- The fields of a method. -/
def methodFields (dialect : Dialect) : List Field :=
  [ .required "name" noEdits, .required "kind" KindEdit,
    .defaulted "params" [] (primitives? dialect) noEdits,
    .defaulted "body" [] (list? (selfCall? dialect))
      (ListEdit (RecordEdit (selfCallFields dialect))) ]

/-- The fields of a class. -/
def classFields (dialect : Dialect) : List Field :=
  [ .required "name" noEdits, .defaulted "parent" none (nullable? string?) noEdits,
    .defaulted "methods" [] (list? (methodDecl? dialect))
      (ListEdit (RecordEdit (methodFields dialect))) ]

/-- The fields of a call. -/
def callFields (dialect : Dialect) : List Field :=
  [ .required "static" noEdits, .defaulted "runtime" none (nullable? string?) noEdits,
    .required "method" noEdits, .defaulted "args" [] (primitives? dialect) noEdits,
    .defaulted "expect" none (nullable? string?) noEdits, .defaulted "trace" false bool? noEdits ]

/-- The fields of a scenario. -/
def scenarioFields (dialect : Dialect) : List Field :=
  [ .defaulted "config" {} (config? dialect) (RecordEdit (configFields dialect)),
    .defaulted "class" [] (list? (scenarioClass? dialect))
      (ListEdit (RecordEdit (classFields dialect))),
    .defaulted "call" [] (list? (scenarioCall? dialect))
      (ListEdit (RecordEdit (callFields dialect))) ]

/-- One change to the spelling of a scenario, at any depth. -/
def ScenarioEdit (dialect : Dialect) : Edits := RecordEdit (scenarioFields dialect)

theorem unaffected_noEdits {α : Type} (decode : Document → Option α) :
    Unaffected decode noEdits := fun _ _ h => h.elim

theorem unaffected_kindEdit : Unaffected (word? dialect MethodKind.ofName?) KindEdit := by
  rintro _ _ (_ | payload) <;> rfl

theorem config?_unaffected : Unaffected (config? dialect) (RecordEdit (configFields dialect)) := by
  refine unaffected_record? (by simp [Field.names, configFields]) fun given given' hedit => ?_
  simp only [FieldsEdited, configFields, List.forall_mem_cons, Field.name_defaulted] at hedit
  obtain ⟨hlookup, hdepth, -⟩ := hedit
  rw [hlookup.defaulted_eq (unaffected_noEdits _), hdepth.defaulted_eq (unaffected_noEdits _)]

theorem selfCall?_unaffected :
    Unaffected (selfCall? dialect) (RecordEdit (selfCallFields dialect)) := by
  refine unaffected_record? (by simp [Field.names, selfCallFields]) fun given given' hedit => ?_
  simp only [FieldsEdited, selfCallFields, List.forall_mem_cons, Field.name_required,
    Field.name_defaulted] at hedit
  obtain ⟨hmethod, hargs, -⟩ := hedit
  rw [hmethod.required_eq (unaffected_noEdits _), hargs.defaulted_eq (unaffected_noEdits _)]

theorem methodDecl?_unaffected :
    Unaffected (methodDecl? dialect) (RecordEdit (methodFields dialect)) := by
  refine unaffected_record? (by simp [Field.names, methodFields]) fun given given' hedit => ?_
  simp only [FieldsEdited, methodFields, List.forall_mem_cons, Field.name_required,
    Field.name_defaulted] at hedit
  obtain ⟨hname, hkind, hparams, hbody, -⟩ := hedit
  rw [hname.required_eq (unaffected_noEdits _), hkind.required_eq unaffected_kindEdit,
    hparams.defaulted_eq (unaffected_noEdits _), hbody.defaulted_eq selfCall?_unaffected.list?]

theorem scenarioClass?_unaffected :
    Unaffected (scenarioClass? dialect) (RecordEdit (classFields dialect)) := by
  refine unaffected_record? (by simp [Field.names, classFields]) fun given given' hedit => ?_
  simp only [FieldsEdited, classFields, List.forall_mem_cons, Field.name_required,
    Field.name_defaulted] at hedit
  obtain ⟨hname, hparent, hmethods, -⟩ := hedit
  rw [hname.required_eq (unaffected_noEdits _), hparent.defaulted_eq (unaffected_noEdits _),
    hmethods.defaulted_eq methodDecl?_unaffected.list?]

theorem scenarioCall?_unaffected :
    Unaffected (scenarioCall? dialect) (RecordEdit (callFields dialect)) := by
  refine unaffected_record? (by simp [Field.names, callFields]) fun given given' hedit => ?_
  simp only [FieldsEdited, callFields, List.forall_mem_cons, Field.name_required,
    Field.name_defaulted] at hedit
  obtain ⟨hstatic, hruntime, hmethod, hargs, hexpect, htrace, -⟩ := hedit
  rw [hstatic.required_eq (unaffected_noEdits _), hruntime.defaulted_eq (unaffected_noEdits _),
    hmethod.required_eq (unaffected_noEdits _), hargs.defaulted_eq (unaffected_noEdits _),
    hexpect.defaulted_eq (unaffected_noEdits _), htrace.defaulted_eq (unaffected_noEdits _)]

theorem scenario?_unaffected : Unaffected (scenario? dialect) (ScenarioEdit dialect) := by
  refine unaffected_record? (by simp [Field.names, scenarioFields]) fun given given' hedit => ?_
  simp only [FieldsEdited, scenarioFields, List.forall_mem_cons, Field.name_defaulted] at hedit
  obtain ⟨hconfig, hclasses, hcalls, -⟩ := hedit
  rw [hconfig.defaulted_eq config?_unaffected,
    hclasses.defaulted_eq scenarioClass?_unaffected.list?,
    hcalls.defaulted_eq scenarioCall?_unaffected.list?]

/-! ## scenarios -/

/-- **Scenario documents**: a scenario whose depth is a count is read back from the document that
it is written as, so a scenario that was read is read again from its own document.  A document is
read as the same scenario after any number of changes, at any depth, that give a record an unknown
key, drop a field with its default value, or call a method new that hides. -/
theorem scenario?_faithful (dialect : Dialect) :
    (∀ s : Scenario, s.config.maxCallDepth < countLimit → s.document.scenario? dialect = some s) ∧
      (∀ (d : Document) (s : Scenario), d.scenario? dialect = some s →
        s.document.scenario? .json = some s) ∧
      ∀ d d' : Document, Relation.ReflTransGen (ScenarioEdit dialect) d d' →
        d'.scenario? dialect = d.scenario? dialect := by
  refine ⟨fun s => scenario?_document,
    fun d s hs => scenario?_document (maxCallDepth_lt_of_scenario? hs), fun d d' hedits => ?_⟩
  induction hedits with
  | refl => rfl
  | tail _ hedit ih => rw [scenario?_unaffected hedit, ih]

/-- An unknown key may be given twice, a field may not. -/
example : (scenario? .json (.table [("note", .null), ("note", .null)])).isSome ∧
    scenario? .json (.table [("call", .array []), ("call", .array [])]) = none := by
  decide

/-- A scenario with one class, which has one method. -/
def oneMethod (method : Document) : Document :=
  .table [("class", .array [.table [("name", .string "A"), ("methods", .array [method])]])]

/-- A method that hides, with its empty list of parameters. -/
def spelledOut : Document :=
  .table [("name", .string "f"), ("kind", .string "hide"), ("params", .array [])]

/-- The same method, called new, without the list and with a note. -/
def respelled : Document :=
  .table [("name", .string "f"), ("note", .int 1), ("kind", .string "new")]

theorem edit_oneMethod {m m' : Document} (hedit : RecordEdit (methodFields dialect) m m') :
    ScenarioEdit dialect (oneMethod m) (oneMethod m') := by
  have hclass : RecordEdit (classFields dialect)
      (.table [("name", .string "A"), ("methods", .array [m])])
      (.table [("name", .string "A"), ("methods", .array [m'])]) :=
    .changeEntry [_] [] (f := .defaulted "methods" _ _ _) (.tail _ (.tail _ (.head _)))
      (.item [] [] hedit)
  exact .changeEntry [] [] (f := .defaulted "class" _ _ _) (.tail _ (.head _)) (.item [] [] hclass)

theorem edits_respelled :
    Relation.ReflTransGen (RecordEdit (methodFields dialect)) spelledOut respelled := by
  have hkind : RecordEdit (methodFields dialect) spelledOut
      (.table [("name", .string "f"), ("kind", .string "new"), ("params", .array [])]) :=
    .changeEntry [_] [_] (f := .required "kind" _) (.tail _ (.head _)) .word
  have hparams : RecordEdit (methodFields dialect)
      (.table [("name", .string "f"), ("kind", .string "new"), ("params", .array [])])
      (.table [("name", .string "f"), ("kind", .string "new")]) :=
    .dropEntry [_, _] [] (f := .defaulted "params" _ _ _) (.tail _ (.tail _ (.head _))) (by simp) rfl
  have hnote : RecordEdit (methodFields dialect)
      (.table [("name", .string "f"), ("kind", .string "new")]) respelled :=
    .addKey [_] [_] (.int 1) (by simp [methodFields])
  exact .tail (.tail (.single hkind) hparams) hnote

/-- The scenario with that method. -/
def hidingScenario : Scenario where
  classes := [{ name := "A", methods := [{ name := "f", kind := .hide, signature := ⟨[]⟩ }] }]

theorem scenario?_faithful_respelled :
    hidingScenario.config.maxCallDepth < countLimit ∧
      hidingScenario.document.scenario? .json = some hidingScenario ∧
      (oneMethod spelledOut).scenario? .json = some hidingScenario ∧
      Relation.ReflTransGen (ScenarioEdit .json) (oneMethod spelledOut) (oneMethod respelled) ∧
      (oneMethod respelled).scenario? .json = (oneMethod spelledOut).scenario? .json ∧
      ∃ s, (oneMethod respelled).scenario? .json = some s ∧
        s.document.scenario? .json = some s := by
  obtain ⟨hwritten, hread, hrespelled⟩ := scenario?_faithful .json
  have hdepth : hidingScenario.config.maxCallDepth < countLimit := by decide
  have hlong : (oneMethod spelledOut).scenario? .json = some hidingScenario := by decide
  have hedits : Relation.ReflTransGen (ScenarioEdit .json) (oneMethod spelledOut)
      (oneMethod respelled) :=
    edits_respelled.lift oneMethod fun _ _ => edit_oneMethod
  have hsame := hrespelled _ _ hedits
  have hshort := hsame.trans hlong
  exact ⟨hdepth, hwritten _ hdepth, hlong, hedits, hsame, _, hshort, hread _ _ hshort⟩

/-- A method whose kind is a word with its payload, and more entries beside the word. -/
def kindKey (more : List (String × Document)) : Document :=
  .table [("name", .string "f"), ("kind", .table (("hide", .null) :: more))]

/-- A scenario with one class, as a list of its fields. -/
def classList (fields : List Document) : Document := .table [("class", .array [.array fields])]

/-- What else is no change of spelling: a word with its payload is no record, so it takes no unknown
key, and in a list of fields those after a gap are taken for others. -/
theorem scenario?_unknown_key_or_gap :
    (scenario? .json (oneMethod (kindKey []))).isSome ∧
      scenario? .json (oneMethod (kindKey [("note", .int 1)])) = none ∧
      (scenario? .json (classList [.string "A", .null, .array []])).isSome ∧
      scenario? .json (classList [.string "A", .array []]) = none := by
  decide

end Document

end LateBinding
