import LateBinding.Proofs.Execution.Preorder

/-!
# LateBinding.Proofs.Execution.BodyCalls

The calls of bodies are well typed, however deep they are nested.

A body calls on its own receiver, typed with the class that declares the running method.  That
class is above the runtime type, so each such call can be made; and it binds to a method declared
at or above the class of the body, although what runs may be declared further down.

In a trace, the body that made a call is found by the depths alone: its entry is the last one
before that is less deep.
-/

namespace LateBinding

/-! ## the caller of an entry -/

namespace Trace

variable {below : Trace} {depth : Nat} {e : TraceEntry} {r : Resolution}

/-- The entry whose body makes a call that runs at this depth right after a trace: the last one
that is less deep. -/
def caller? (t : Trace) (depth : Nat) : Option TraceEntry := t.findRev? (·.depth < depth)

theorem caller?_eq_find? (t : Trace) (depth : Nat) :
    caller? t depth = t.reverse.find? (·.depth < depth) := List.findRev?_eq_find?_reverse

theorem caller?_append (t t' : Trace) (depth : Nat) :
    caller? (t ++ t') depth = (caller? t' depth).or (caller? t depth) := by
  simp only [caller?_eq_find?, List.reverse_append, List.find?_append]

theorem caller?_map_deepen (t : Trace) (depth : Nat) :
    caller? (t.map (·.deepen 1)) (depth + 1) = (caller? t depth).map (·.deepen 1) := by
  have hdepth : (fun e : TraceEntry => decide (e.depth < depth + 1)) ∘ TraceEntry.deepen 1 =
      fun e : TraceEntry => decide (e.depth < depth) := by
    funext e
    simp [TraceEntry.deepen]
  rw [caller?_eq_find?, ← List.map_reverse, List.find?_map, hdepth, caller?_eq_find?]

/-- A method makes the calls that run one level below it. -/
theorem caller?_node_one (r : Resolution) (below : Trace) :
    caller? (.node r below) 1 = some ⟨0, r⟩ := by
  have hnone : caller? (below.map (·.deepen 1)) 1 = none := by
    rw [caller?_map_deepen]
    simp [caller?]
  rw [node, ← List.singleton_append, caller?_append, hnone]
  rfl

/-- The calls further down are made by the same bodies as without the method above. -/
theorem caller?_node_succ (hcaller : caller? below depth = some e) :
    caller? (.node r below) (depth + 1) = some (e.deepen 1) := by
  rw [node, ← List.singleton_append, caller?_append, caller?_map_deepen, hcaller]
  rfl

end Trace

/-- An entry of traces that follow one another is an entry of one of them. -/
theorem flatMap_eq_append_cons {own : SelfCall → Trace} {calls : List SelfCall}
    {before after : Trace} {e : TraceEntry} (hsplit : calls.flatMap own = before ++ e :: after) :
    ∃ call ∈ calls, ∃ earlier first rest, own call = first ++ e :: rest ∧
      before = earlier ++ first := by
  induction calls generalizing before with
  | nil => simp at hsplit
  | cons call calls ih =>
      rw [List.flatMap_cons, List.append_eq_append_iff] at hsplit
      rcases hsplit with ⟨first, rfl, hsplit⟩ | ⟨rest, hown, hsplit⟩
      · obtain ⟨call', hcall', earlier, first, rest, hown, rfl⟩ := ih hsplit
        exact ⟨call', List.mem_cons_of_mem call hcall', own call ++ earlier, first, rest, hown,
          by rw [List.append_assoc]⟩
      · cases rest with
        | nil =>
            -- the entry is the first one of the traces after this one
            have hrest : calls.flatMap own = [] ++ e :: after := hsplit.symm
            obtain ⟨call', hcall', earlier, first, rest, hown', hnil⟩ := ih hrest
            obtain ⟨rfl, rfl⟩ := List.append_eq_nil_iff.mp hnil.symm
            exact ⟨call', List.mem_cons_of_mem call hcall', before, [], rest, hown', by simp⟩
        | cons e' rest =>
            obtain ⟨rfl, -⟩ := List.cons.inj hsplit
            exact ⟨call, List.mem_cons_self, [], before, rest, hown, rfl⟩

/-! ## ways to make a call -/

/-- A call site is made, in one of the ways to make one. -/
inductive CallSite.Made (h : Hierarchy) : CallSite → Prop
  | ofIds {static runtime : ClassId} {name : String} {args : List Primitive} {site : CallSite}
      (made : make h static runtime name args = .ok site) : Made h site
  | ofNames {static runtime name : String} {args : List Primitive} {site : CallSite}
      (made : ofNames h static runtime name args = .ok site) : Made h site
  | direct {c : ClassId} {name : String} {args : List Primitive} {site : CallSite}
      (made : direct h c name args = .ok site) : Made h site

/-- However it is made, a call site has a static type at or above the runtime type. -/
theorem CallSite.Made.above {h : Hierarchy} {site : CallSite} (hmade : site.Made h) :
    site.static ∈ h.ancestors site.runtime := by
  cases hmade with
  | ofIds hmade => exact (of_make hmade).2
  | direct hmade => exact (of_make hmade).2
  | ofNames hmade =>
      unfold CallSite.ofNames at hmade
      split at hmade
      · contradiction
      · contradiction
      · exact (of_make hmade).2

namespace Hierarchy

variable {h : Hierarchy} {rule : LookupRule} {site s : CallSite} {r : Resolution} {room : Nat}
  {t : Trace} {e : TraceEntry} {call : SelfCall} {runtime : ClassId}

/-! ## the calls of an execution -/

/-- The calls that the execution of a call may come to: the call itself, and those of the bodies
that it runs. -/
inductive ComesTo (h : Hierarchy) (rule : LookupRule) (site : CallSite) : CallSite → Prop
  | self : ComesTo h rule site site
  | body {s inner : CallSite} {r : Resolution} {call : SelfCall} (outer : ComesTo h rule site s)
      (resolved : h.resolve rule s = .ok r) (called : call ∈ r.method.body)
      (made : CallSite.make h r.declaringClass s.runtime call.method call.args = .ok inner) :
      ComesTo h rule site inner

/-- All calls of an execution are on one receiver, and well typed. -/
theorem ComesTo.above (hcomes : h.ComesTo rule site s)
    (habove : site.static ∈ h.ancestors site.runtime) :
    s.runtime = site.runtime ∧ s.static ∈ h.ancestors s.runtime := by
  induction hcomes with
  | self => exact ⟨rfl, habove⟩
  | body outer _ _ made ih =>
      obtain ⟨rfl, hinner⟩ := CallSite.of_make made
      exact ⟨ih.1, hinner⟩

/-! ## what a body binds to -/

/-- An entry of a trace on a receiver is there for a call in the body of another entry: it is one
level deeper, a call of that body made with the class of the body resolves to it, and the method
that this call binds to statically is declared at or above that class. -/
structure CalledBy (h : Hierarchy) (rule : LookupRule) (runtime : ClassId)
    (caller e : TraceEntry) : Prop where
  one_deeper : e.depth = caller.depth + 1
  made_and_resolved : ∃ call ∈ caller.call.method.body, ∃ site,
    CallSite.make h caller.call.declaringClass runtime call.method call.args = .ok site ∧
      h.resolve rule site = .ok e.call
  selected_above : h.isSameOrDescendant caller.call.declaringClass e.call.selected.owner = true
  static_above : e.call.binding = .static →
    h.isSameOrDescendant caller.call.declaringClass e.call.declaringClass = true

theorem CalledBy.deepen {caller : TraceEntry} (hcalled : h.CalledBy rule runtime caller e) :
    h.CalledBy rule runtime (caller.deepen 1) (e.deepen 1) :=
  { hcalled with one_deeper := congrArg (· + 1) hcalled.one_deeper }

/-- A resolved call selects a method at or above the static type; if it is bound statically, that
one runs. -/
theorem WellFormed.selected_above (hwf : h.WellFormed)
    (habove : site.static ∈ h.ancestors site.runtime) (hres : h.resolve rule site = .ok r) :
    r.selected.owner ∈ h.ancestors site.static ∧ (r.binding = .static → r.method = r.selected) := by
  obtain ⟨m, rfl, hnear, -, -⟩ := hwf.of_resolve habove hres
  rw [selected_redirect]
  exact ⟨hnear.owner_mem, method_of_static_binding⟩

/-- What a call of a body resolves to is called by that body. -/
theorem WellFormed.calledBy (hwf : h.WellFormed) (hclass : r.declaringClass = r.method.owner)
    (habove : r.method.owner ∈ h.ancestors runtime) (hcall : call ∈ r.method.body)
    {inner : Resolution} (hres : h.resolve rule (call.site r.method runtime) = .ok inner) :
    h.CalledBy rule runtime ⟨0, r⟩ ⟨1, inner⟩ := by
  obtain ⟨hselected, hstatic⟩ := hwf.selected_above habove hres
  have hmake : CallSite.make h r.declaringClass runtime call.method call.args =
      .ok (call.site r.method runtime) := hclass ▸ CallSite.make_of_mem habove
  have habove_class : inner.selected.owner ∈ h.ancestors r.declaringClass := hclass ▸ hselected
  refine ⟨rfl, ⟨call, hcall, _, hmake, hres⟩, isSameOrDescendant_iff.mpr habove_class,
    fun hbinding => isSameOrDescendant_iff.mpr ?_⟩
  change inner.declaringClass ∈ h.ancestors r.declaringClass
  rw [declaringClass_of_resolve hres, hstatic hbinding]
  exact habove_class

/-! ## the bodies of a trace -/

/-- Every entry of a trace but the first is called by the body that the depths point to. -/
def CallersFound (h : Hierarchy) (rule : LookupRule) (runtime : ClassId) (t : Trace) : Prop :=
  ∀ before e after, t = before ++ e :: after → before ≠ [] →
    ∃ caller, Trace.caller? before e.depth = some caller ∧ h.CalledBy rule runtime caller e

/-- If the callers are found in the traces of the calls of a body, and these traces start with
what the calls resolve to, then the callers are found in the trace of the method. -/
theorem WellFormed.callersFound_node (hwf : h.WellFormed) {own : SelfCall → Trace}
    (hclass : r.declaringClass = r.method.owner) (habove : r.method.owner ∈ h.ancestors runtime)
    (hown : ∀ call ∈ r.method.body, ∃ inner below, own call = .node inner below ∧
      h.resolve rule (call.site r.method runtime) = .ok inner ∧
      h.CallersFound rule runtime (own call)) :
    h.CallersFound rule runtime (.node r (r.method.body.flatMap own)) := by
  intro before e after hsplit hne
  -- all that stands before the entry is the method and a part of what is below it
  obtain ⟨lower, e, upper, rfl, rfl, hbelow⟩ : ∃ lower e₀ upper,
      before = Trace.node r lower ∧ e = TraceEntry.deepen 1 e₀ ∧
        r.method.body.flatMap own = lower ++ e₀ :: upper := by
    rcases List.cons_eq_append_iff.mp hsplit with ⟨hnil, -⟩ | ⟨before, rfl, hrest⟩
    · exact absurd hnil hne
    · obtain ⟨lower, others, hbelow, rfl, hothers⟩ := List.map_eq_append_iff.mp hrest
      obtain ⟨e₀, upper, rfl, rfl, -⟩ := List.map_eq_cons_iff.mp hothers
      exact ⟨lower, e₀, upper, rfl, rfl, hbelow⟩
  obtain ⟨call, hcall, earlier, first, rest, hfirst, rfl⟩ := flatMap_eq_append_cons hbelow
  obtain ⟨inner, below, htop, hres, hfound⟩ := hown call hcall
  cases first with
  | nil =>
      -- the entry is the method of the call itself
      obtain ⟨rfl, -⟩ := List.cons.inj (hfirst.symm.trans htop)
      exact ⟨⟨0, r⟩, Trace.caller?_node_one r _, hwf.calledBy hclass habove hcall hres⟩
  | cons e' first =>
      obtain ⟨caller, hcaller, hcalled⟩ := hfound _ e rest hfirst (List.cons_ne_nil e' first)
      have hlast : Trace.caller? (earlier ++ e' :: first) e.depth = some caller := by
        rw [Trace.caller?_append, hcaller, Option.some_or]
      exact ⟨caller.deepen 1, Trace.caller?_node_succ hlast, hcalled.deepen⟩

namespace WellFormed

variable (hwf : h.WellFormed) (habove : site.static ∈ h.ancestors site.runtime)

include hwf habove

/-- The callers are found in the trace of every call that has one. -/
theorem callersFound (ht : h.executeFrom rule room 0 site = .ok t) :
    h.CallersFound rule site.runtime t := by
  have hboth : ∃ r below, t = .node r below ∧ h.resolve rule site = .ok r ∧
      h.CallersFound rule site.runtime t := by
    refine hwf.trace_induction habove (P := fun _ site t => ∃ r below, t = .node r below ∧
      h.resolve rule site = .ok r ∧ h.CallersFound rule site.runtime t) ?_ ht
    intro _ site r own habove hres _ hown
    exact ⟨r, _, rfl, hres, hwf.callersFound_node (declaringClass_of_resolve hres)
      (hwf.runs_above habove hres).2 hown⟩
  obtain ⟨-, -, -, -, hfound⟩ := hboth
  exact hfound

/-- Every method of a trace is declared at or above the runtime type. -/
theorem declaringClass_mem_of_mem_trace (ht : h.executeFrom rule room 0 site = .ok t) :
    ∀ e ∈ t, e.call.declaringClass ∈ h.ancestors site.runtime := by
  refine hwf.trace_induction habove
    (P := fun _ site t => ∀ e ∈ t, e.call.declaringClass ∈ h.ancestors site.runtime) ?_ ht
  intro _ site r own habove hres _ hown
  refine List.forall_mem_cons.mpr ⟨hwf.declaringClass_above habove hres, ?_⟩
  simp only [List.mem_map, List.mem_flatMap]
  rintro _ ⟨e, ⟨call, hcall, he⟩, rfl⟩
  exact hown call hcall e he

end WellFormed

/-! ## every execution -/

/-- The calls that the bodies of an execution make are well typed. -/
structure BodiesWellTyped (h : Hierarchy) (config : Config) (site : CallSite) : Prop where
  never_impossible : ∀ cause, h.execute config site ≠ .error (.callSite cause)
  /-- Whatever method the execution may run is declared at or above the runtime type, and all
  calls of its body can be made. -/
  calls_possible : ∀ s r, h.ComesTo config.lookup site s → h.resolve config.lookup s = .ok r →
    h.isSameOrDescendant site.runtime r.declaringClass = true ∧
      ∀ call ∈ r.method.body, ∃ inner,
        CallSite.make h r.declaringClass site.runtime call.method call.args = .ok inner
  runs_above : ∀ t, h.execute config site = .ok t →
    ∀ e ∈ t, h.isSameOrDescendant site.runtime e.call.declaringClass = true
  callers_found : ∀ t, h.execute config site = .ok t →
    h.CallersFound config.lookup site.runtime t

/-- **The calls of bodies are well typed**, in every hierarchy that declarations make, for every
call that is made, under every configuration: no execution ends because a call cannot be made,
and no body binds statically to a method declared below its own class. -/
theorem body_calls_wellTyped (hr : h.Reachable) (hmade : site.Made h) (config : Config) :
    h.BodiesWellTyped config site := by
  have hwf := hr.wellFormed
  have habove := hmade.above
  refine ⟨fun cause hcause => ?_, fun s r hcomes hres => ?_, fun t ht e he => ?_,
    fun t ht => hwf.callersFound habove ht⟩
  · rcases hwf.execute_cases habove config.maxCallDepth with ⟨t, ht⟩ | ⟨_, _, he⟩ | ⟨_, -, he⟩
    · cases hcause.symm.trans ht
    · cases hcause.symm.trans he
    · cases hcause.symm.trans he
  · obtain ⟨hruntime, hs⟩ := hcomes.above habove
    have hclass := hwf.declaringClass_above hs hres
    rw [hruntime] at hclass
    exact ⟨isSameOrDescendant_iff.mpr hclass, fun call _ => ⟨_, CallSite.make_of_mem hclass⟩⟩
  · exact isSameOrDescendant_iff.mpr (hwf.declaringClass_mem_of_mem_trace habove ht e he)

/-- On an object of the second class, the bodies of `f()` and of `g()` run the `h()` that overrides
the one they bind to.  It is `f()` that makes the last call, past what `g()` runs. -/
theorem body_calls_wellTyped_nestedCalls :
    ∃ site f g inner last, CallSite.ofNames nestedCalls "A" "B" "f" [] = .ok site ∧
      nestedCalls.execute ⟨.atOverride, 2⟩ site = .ok [f, g, inner, last] ∧
      [f, g, inner, last].map (fun e => (e.call.selected.owner, e.call.declaringClass)) =
        [(⟨0⟩, ⟨0⟩), (⟨0⟩, ⟨0⟩), (⟨0⟩, ⟨1⟩), (⟨0⟩, ⟨1⟩)] ∧
      nestedCalls.BodiesWellTyped ⟨.atOverride, 2⟩ site ∧
      nestedCalls.CalledBy .atOverride ⟨1⟩ f last := by
  have hr : nestedCalls.Reachable := ⟨_, rfl⟩
  have hsite : CallSite.ofNames nestedCalls "A" "B" "f" [] = .ok ⟨⟨0⟩, ⟨1⟩, "f", []⟩ := rfl
  have htyped := body_calls_wellTyped hr (.ofNames hsite) ⟨.atOverride, 2⟩
  refine ⟨_, _, _, _, _, hsite, rfl, by decide, htyped, ?_⟩
  obtain ⟨caller, hcaller, hcalled⟩ :=
    htyped.callers_found _ rfl [_, _, _] _ [] rfl (List.cons_ne_nil _ _)
  cases hcaller
  exact hcalled

end Hierarchy

end LateBinding
