import LateBinding.Scenario.Run
import LateBinding.Proofs.Reordering.Resolution

/-!
# LateBinding.Proofs.Reordering.Execution

What can be seen of a call does not depend on the order of declarations: its text, its
outcome, the lines of its trace, and why it cannot be made or its execution ends early.
-/

namespace LateBinding

namespace ExecutionError

theorem message_unresolved (call : String) (cause : LookupError) :
    (unresolved call cause).message = call ++ ": " ++ cause.message := rfl

theorem message_depthExceeded (limit : Nat) (method : String) :
    (depthExceeded limit method).message =
      "call depth limit of " ++ toString limit ++ " exceeded in `" ++ method ++ "`" := rfl

end ExecutionError

/-- Traces of calls that run alike run alike one after the other. -/
theorem concatTraces_agree {E : ExecutionError → ExecutionError → Prop}
    {R : TraceEntry → TraceEntry → Prop} {run run' : SelfCall → Except ExecutionError Trace}
    (hrun : ∀ call, Agree E (List.Forall₂ R) (run call) (run' call)) (calls : List SelfCall) :
    Agree E (List.Forall₂ R) (concatTraces run calls) (concatTraces run' calls) := by
  induction calls with
  | nil => exact .ok .nil
  | cons call rest ih =>
      have hcall := hrun call
      simp only [concatTraces]
      generalize run call = x, run' call = x' at hcall ⊢
      cases hcall with
      | error he => exact .error he
      | ok hfirst =>
          generalize concatTraces run rest = y, concatTraces run' rest = y' at ih ⊢
          cases ih with
          | error he => exact .error he
          | ok hothers => exact .ok (List.rel_append hfirst hothers)

namespace Hierarchy

variable {h h' : Hierarchy} {c c' d d' r r' : ClassId} {site site' : CallSite}

/-- Entries of two traces that run counterparts at one depth. -/
structure SameEntry (h h' : Hierarchy) (e e' : TraceEntry) : Prop where
  depth_eq : e'.depth = e.depth
  call : h.SameRun h' e.call e'.call

/-- Failures of executions with one message. -/
def SameMessage (e e' : ExecutionError) : Prop := e'.message = e.message

/-- A first entry that agrees leaves what follows in agreement. -/
theorem agree_cons {e e' : TraceEntry} (he : h.SameEntry h' e e')
    (x x' : Except ExecutionError Trace) :
    Agree SameMessage (List.Forall₂ (h.SameEntry h')) x x' →
      Agree SameMessage (List.Forall₂ (h.SameEntry h'))
        (match x with
          | .error e => .error e
          | .ok below => .ok (e :: below))
        (match x' with
          | .error e => .error e
          | .ok below => .ok (e' :: below)) := by
  intro hx
  cases hx with
  | error hx => exact .error hx
  | ok hbelow => exact .ok (.cons he hbelow)

/-- The lines of traces of counterparts are the same. -/
theorem traceLines_eq {t t' : Trace} (ht : List.Forall₂ (h.SameEntry h') t t') :
    h'.traceLines t' = h.traceLines t := by
  induction ht with
  | nil => rfl
  | cons he _ ih =>
      simp only [traceLines, List.map_cons] at ih ⊢
      rw [ih, he.depth_eq, he.call.method.qualifiedName_eq]

/-- Two hierarchies that cover one another. -/
structure Mirrors (h h' : Hierarchy) : Prop extends h.Covers h' where
  reordered : ∀ e ∈ h.entries, ∃ e' ∈ h'.entries, e.Reorders e'

namespace Covers

variable (hcov : h.Covers h')

include hcov

/-! ## calls as they are made and written -/

/-- A call on twins can be made or cannot be made alike. -/
theorem make (hc : h.Twin h' c c') (hr : h.Twin h' r r') (method : String)
    (args : List Primitive) :
    Agree Eq (h.SameCall h') (CallSite.make h c r method args)
      (CallSite.make h' c' r' method args) := by
  obtain ⟨k, hk⟩ := hc.known
  obtain ⟨k', hk'⟩ := hc.known'
  obtain ⟨l, hl⟩ := hr.known
  obtain ⟨l', hl'⟩ := hr.known'
  have hkname : k'.name = k.name := by
    rw [← className_of_class? hk, ← className_of_class? hk', hc.className_eq]
  have hlname : l'.name = l.name := by
    rw [← className_of_class? hl, ← className_of_class? hl', hr.className_eq]
  have hdesc : h'.isSameOrDescendant r' c' = h.isSameOrDescendant r c := by
    rw [Bool.eq_iff_iff, isSameOrDescendant_iff, isSameOrDescendant_iff,
      hcov.mem_ancestors_iff hr hc]
  simp only [CallSite.make, hk, hl, hk', hl', hdesc]
  by_cases habove : h.isSameOrDescendant r c = true
  · rw [if_pos habove, if_pos habove]
    exact .ok ⟨hc, hr, rfl, rfl, isSameOrDescendant_iff.mp habove⟩
  · rw [if_neg habove, if_neg habove, hkname, hlname]
    exact .error rfl

/-- Calls on twins are written alike. -/
theorem describe (hs : h.SameCall h' site site') : site'.describe h' = site.describe h := by
  simp only [CallSite.describe, hcov.eq_iff hs.static hs.runtime, hs.static.className_eq,
    hs.runtime.className_eq, hs.method_eq, hs.args_eq]

/-! ## execution -/

/-- Executions that agree on the bodies of counterparts agree on calls on twins. -/
theorem agree_of_bodies (rule : LookupRule) (depth : Nat) (hs : h.SameCall h' site site')
    {run run' : Resolution → Except ExecutionError Trace}
    (hrun : ∀ r r', h.SameRun h' r r' →
      Agree SameMessage (List.Forall₂ (h.SameEntry h')) (run r) (run' r')) :
    Agree SameMessage (List.Forall₂ (h.SameEntry h'))
      (match h.resolve rule site with
        | .error e => .error (.unresolved (site.describe h) e)
        | .ok r => if r.method.body.isEmpty then .ok [⟨depth, r⟩] else run r)
      (match h'.resolve rule site' with
        | .error e => .error (.unresolved (site'.describe h') e)
        | .ok r => if r.method.body.isEmpty then .ok [⟨depth, r⟩] else run' r) := by
  have hres := hcov.resolve hs rule
  generalize h.resolve rule site = p, h'.resolve rule site' = p' at hres ⊢
  cases hres with
  | error he =>
      refine .error ?_
      rw [SameMessage, ExecutionError.message_unresolved, ExecutionError.message_unresolved,
        hcov.describe hs, he.2]
  | @ok r r' hr =>
      simp only [hr.method.body_eq]
      split
      · exact .ok (.cons ⟨rfl, hr⟩ .nil)
      · exact hrun r r' hr

/-- The calls that counterparts make on their receivers agree if calls on twins do. -/
theorem agree_inner {r r' : Resolution} (hr : h.SameRun h' r r') (hs : h.SameCall h' site site')
    {run run' : CallSite → Except ExecutionError Trace}
    (hrun : ∀ site site', h.SameCall h' site site' →
      Agree SameMessage (List.Forall₂ (h.SameEntry h')) (run site) (run' site'))
    (call : SelfCall) :
    Agree SameMessage (List.Forall₂ (h.SameEntry h'))
      (match CallSite.make h r.method.owner site.runtime call.method call.args with
        | .error e => .error (.callSite e)
        | .ok inner => run inner)
      (match CallSite.make h' r'.method.owner site'.runtime call.method call.args with
        | .error e => .error (.callSite e)
        | .ok inner => run' inner) := by
  have hmake := hcov.make hr.method.owner hs.runtime call.method call.args
  generalize CallSite.make h r.method.owner _ _ _ = x, CallSite.make h' _ _ _ _ = x' at hmake ⊢
  cases hmake with
  | error he => exact .error (by rw [he, SameMessage])
  | ok hinner => exact hrun _ _ hinner

/-- **Calls on twins execute alike**: they run counterparts in the same order and at the
same depths, or end early with one message. -/
theorem executeFrom (rule : LookupRule) (room depth : Nat) (hs : h.SameCall h' site site') :
    Agree SameMessage (List.Forall₂ (h.SameEntry h')) (h.executeFrom rule room depth site)
      (h'.executeFrom rule room depth site') := by
  induction room generalizing depth site site' with
  | zero =>
      unfold Hierarchy.executeFrom
      refine hcov.agree_of_bodies rule depth hs fun r r' hr => .error ?_
      rw [SameMessage, ExecutionError.message_depthExceeded, ExecutionError.message_depthExceeded,
        hr.method.qualifiedName_eq]
  | succ room ih =>
      unfold Hierarchy.executeFrom
      refine hcov.agree_of_bodies rule depth hs fun r r' hr => ?_
      have hbelow := concatTraces_agree
        (hcov.agree_inner hr hs fun _ _ hinner => ih (depth + 1) hinner) r.method.body
      have hentry : h.SameEntry h' ⟨depth, r⟩ ⟨depth, r'⟩ := ⟨rfl, hr⟩
      simp only [hr.method.body_eq]
      exact agree_cons hentry _ _ hbelow

/-! ## results -/

/-- **A call gives the same result on twins.** -/
theorem runEntry (config : Config) (call : CallEntry) (hs : h.SameCall h' site site') :
    h'.runEntry config call site' = h.runEntry config call site := by
  have houtcome : h'.outcome (h'.resolve config.lookup site') =
      h.outcome (h.resolve config.lookup site) := by
    have hres := hcov.resolve hs config.lookup
    generalize h.resolve config.lookup site = p, h'.resolve config.lookup site' = p' at hres ⊢
    cases hres with
    | error he => simp only [outcome, he.1, he.2]
    | ok hrun =>
        simp only [outcome, hrun.declaringClass.className_eq, hrun.method.name_eq,
          hrun.method.signature_eq, hrun.dynamic_eq]
  have htraced : h'.tracedLines config site' = h.tracedLines config site := by
    have hexec := hcov.executeFrom config.lookup config.maxCallDepth 0 hs
    unfold tracedLines execute
    generalize h.executeFrom _ _ _ _ = p, h'.executeFrom _ _ _ _ = p' at hexec ⊢
    cases hexec with
    | error he =>
        rw [SameMessage] at he
        simp only [he]
    | ok ht => exact traceLines_eq ht
  simp only [Hierarchy.runEntry, report, hcov.describe hs, houtcome, htraced]

end Covers

namespace Mirrors

variable (hmir : h.Mirrors h')

include hmir

/-! ## calls of a scenario -/

/-- A name stands for twins, or for no class on either side. -/
theorem classNamed? (name : String) :
    Option.Rel (h.Twin h') (h.classNamed? name) (h'.classNamed? name) := by
  have hix := hmir.wellFormed.indexed
  have hix' := hmir.wellFormed'.indexed
  cases hc : h.classNamed? name with
  | some c =>
      obtain ⟨k, hk, hname⟩ := Option.map_eq_some_iff.mp (hix.classNamed?_iff.mp hc)
      obtain ⟨e', he', hre⟩ := hmir.reordered _ (entryOf_mem_entries hk)
      obtain ⟨c', k', hk', rfl⟩ := class?_of_mem_entries he'
      have hname' : k'.name = name := hre.name_eq.trans hname
      rw [← hname', hix'.classNamed?_name hk']
      exact .some ⟨k, k', hk, hk', hre⟩
  | none =>
      cases hc' : h'.classNamed? name with
      | none => exact .none
      | some c' =>
          obtain ⟨k', hk', hname⟩ := Option.map_eq_some_iff.mp (hix'.classNamed?_iff.mp hc')
          obtain ⟨e, he, hre⟩ := hmir.reorders _ (entryOf_mem_entries hk')
          obtain ⟨c, k, hk, rfl⟩ := class?_of_mem_entries he
          have hname' : k.name = name := hre.name_eq.symm.trans hname
          rw [← hname', hix.classNamed?_name hk] at hc
          contradiction

/-- A call given by names can be made or cannot be made alike. -/
theorem callSite (call : CallEntry) : Agree Eq (h.SameCall h') (call.site h) (call.site h') := by
  have hc := hmir.classNamed? call.static
  have hr := hmir.classNamed? (call.runtime.getD call.static)
  unfold CallEntry.site CallSite.ofNames
  generalize h.classNamed? call.static = c, h'.classNamed? call.static = c' at hc ⊢
  generalize h.classNamed? (call.runtime.getD call.static) = r,
    h'.classNamed? (call.runtime.getD call.static) = r' at hr ⊢
  cases hc with
  | none => exact .error rfl
  | some hc =>
      cases hr with
      | none => exact .error rfl
      | some hr => exact hmir.make hc hr call.method call.args

/-- The call sites of a list of calls agree one by one, or the same call is the first that
cannot be made, for the same cause. -/
theorem callSites (index : Nat) (calls : List CallEntry) :
    Agree Eq (List.Forall₂ (h.SameCall h')) (callSites h index calls)
      (callSites h' index calls) := by
  induction calls generalizing index with
  | nil => exact .ok .nil
  | cons call rest ih =>
      have hsite := hmir.callSite call
      have hrest := ih (index + 1)
      simp only [LateBinding.callSites]
      generalize call.site h = x, call.site h' = x' at hsite ⊢
      cases hsite with
      | error he => exact .error (by rw [he])
      | ok hs =>
          generalize LateBinding.callSites h (index + 1) rest = y,
            LateBinding.callSites h' (index + 1) rest = y' at hrest ⊢
          cases hrest with
          | error he => exact .error he
          | ok hsites => exact .ok (.cons hs hsites)

/-- The results of calls are the same one by one. -/
theorem runEntries (config : Config) (calls : List CallEntry) {sites sites' : List CallSite}
    (hs : List.Forall₂ (h.SameCall h') sites sites') :
    List.zipWith (h'.runEntry config) calls sites' =
      List.zipWith (h.runEntry config) calls sites := by
  induction hs generalizing calls with
  | nil => simp
  | cons hs _ ih =>
      cases calls with
      | nil => rfl
      | cons call calls =>
          rw [List.zipWith_cons_cons, List.zipWith_cons_cons, hmir.runEntry config call hs, ih]

end Mirrors

end Hierarchy

end LateBinding
