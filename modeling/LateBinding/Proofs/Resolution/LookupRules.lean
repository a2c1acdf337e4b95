import LateBinding.Proofs.Resolution.Redirection
import LateBinding.Proofs.Scenario.Build

/-!
# LateBinding.Proofs.Resolution.LookupRules

Where the two lookup rules agree: without overloading, they run the same method.

If all methods of a name have one signature, then a class declares at most one of them, and
static lookup has nothing to choose.  At the override, it takes the nearest one.  At the
introduction, it walks on past overrides to the nearest one that is none.  In settled
hierarchies each override on the way has the slot of the next declaration above it, so the
walk ends at a method of the same slot, and redirection leads both to the same place.
-/

namespace LateBinding

/-- Two results of one call: both fail for want of an applicable method, or both run one
method of one class, bound in one way. -/
inductive RunsAlike : Except LookupError Resolution → Except LookupError Resolution → Prop
  | noApplicable {name : String} {args : List Primitive} {c c' : Option ClassId}
      {ms ms' : List Method} :
      RunsAlike (.error (.noApplicable name args c ms)) (.error (.noApplicable name args c' ms'))
  | runs {r r' : Resolution} (method_eq : r.method = r'.method)
      (declaringClass_eq : r.declaringClass = r'.declaringClass)
      (binding_eq : r.binding = r'.binding) : RunsAlike (.ok r) (.ok r')

namespace Hierarchy

variable {h : Hierarchy} {rule : LookupRule} {c p r : ClassId} {k : ClassInfo} {m x : Method}
  {name : String} {args : List Primitive}

/-! ## one signature for a name -/

/-- The methods of a name that a class and the classes above it declare all have one
signature. -/
def OneSignature (h : Hierarchy) (c : ClassId) (name : String) : Prop :=
  ∀ a ∈ h.ancestors c, ∀ b ∈ h.ancestors c, ∀ m ∈ h.membersNamed a name,
    ∀ m' ∈ h.membersNamed b name, m.signature = m'.signature

instance (h : Hierarchy) (c : ClassId) (name : String) : Decidable (h.OneSignature c name) :=
  inferInstanceAs (Decidable (∀ a ∈ h.ancestors c, ∀ b ∈ h.ancestors c,
    ∀ m ∈ h.membersNamed a name, ∀ m' ∈ h.membersNamed b name, m.signature = m'.signature))

theorem OneSignature.parent (hone : h.OneSignature c name) (hac : h.Acyclic)
    (hk : h.class? c = some k) (hp : k.parent = some p) : h.OneSignature p name := by
  intro a ha b hb
  have hup := hac.ancestors_of_child hk hp
  exact hone a (by simp [hup, ha]) b (by simp [hup, hb])

/-- With one signature, a class declares at most one method of the name. -/
theorem OneSignature.membersNamed_cases (hone : h.OneSignature c name) (hix : h.Indexed)
    (hk : h.class? c = some k) :
    h.membersNamed c name = [] ∨ ∃ m, h.membersNamed c name = [m] := by
  have hself := mem_ancestors_self hk
  have hnodup : (h.membersNamed c name).Nodup := by
    rw [hix.membersNamed_eq, hix.members_eq]
    exact (hix.nodup_methods.filter _).filter _
  cases hms : h.membersNamed c name with
  | nil => exact .inl rfl
  | cons m ms =>
      cases ms with
      | nil => exact .inr ⟨m, rfl⟩
      | cons m' ms =>
          have hmem : m ∈ h.membersNamed c name := by simp [hms]
          have hmem' : m' ∈ h.membersNamed c name := by simp [hms]
          obtain ⟨hdecl, hname⟩ := hix.mem_membersNamed_iff.mp hmem
          obtain ⟨hdecl', hname'⟩ := hix.mem_membersNamed_iff.mp hmem'
          have hsame : m = m' := hix.distinct hdecl hdecl' (hname.trans hname'.symm)
            (hone c hself c hself m hmem m' hmem')
          rw [hms, hsame] at hnodup
          simp at hnodup

/-! ## the visible overload set, class by class -/

theorem visibleOverloads_of_candidates (hk : h.class? c = some k)
    (hne : h.candidates rule c name ≠ []) :
    h.visibleOverloads rule c name = some (c, h.candidates rule c name) :=
  visibleOverloads_eq_some_iff.mpr ⟨[], _, ancestors_eq_cons hk, by simp, rfl, hne⟩

theorem visibleOverloads_of_root (hk : h.class? c = some k) (hp : k.parent = none)
    (hnil : h.candidates rule c name = []) : h.visibleOverloads rule c name = none := by
  simp [visibleOverloads, ancestors_of_root hk hp, hnil]

theorem Acyclic.visibleOverloads_of_child (hac : h.Acyclic) (hk : h.class? c = some k)
    (hp : k.parent = some p) (hnil : h.candidates rule c name = []) :
    h.visibleOverloads rule c name = h.visibleOverloads rule p name := by
  simp [visibleOverloads, hac.ancestors_of_child hk hp, hnil]

/-! ## the only method of a name -/

/-- The only method of a name in a class is the nearest declaration from there. -/
theorem Indexed.of_sole_member (hix : h.Indexed) (hk : h.class? c = some k)
    (hms : h.membersNamed c name = [m]) :
    m ∈ h.methods ∧ m.owner = c ∧ m.name = name ∧ h.nearest? c name m.signature = some m := by
  have hmem : m ∈ h.membersNamed c name := by simp [hms]
  obtain ⟨hdecl, hname⟩ := hix.mem_membersNamed_iff.mp hmem
  obtain ⟨hall, howner⟩ := hix.mem_members_iff.mp hdecl
  have hdeclared : h.declared? c name m.signature = some m :=
    hix.declared?_eq_some_iff.mpr ⟨hdecl, hname, rfl⟩
  exact ⟨hall, howner, hname, nearest?_of_declared? hk hdeclared⟩

/-- The only method of a name in a class is what a rule that admits it sees from there. -/
theorem visibleOverloads_of_sole_member (hk : h.class? c = some k)
    (hms : h.membersNamed c name = [m]) (hadmits : rule.admits m = true) :
    h.visibleOverloads rule c name = some (c, [m]) := by
  have hcandidates : h.candidates rule c name = [m] := by simp [candidates, hms, hadmits]
  rw [visibleOverloads_of_candidates hk (by simp [hcandidates]), hcandidates]

/-! ## what the two rules see -/

/-- What the two rules see of a name from a class: neither sees anything, because nothing is
declared; or each sees one method, and both methods are the nearest one or share its slot. -/
inductive SeenAlike (h : Hierarchy) (c : ClassId) (name : String) : Prop
  | nothing (undeclared : ∀ s, h.nearest? c name s = none)
      (invisible : ∀ rule, h.visibleOverloads rule c name = none)
  | method {m x : Method} (nearest : h.nearest? c name m.signature = some m)
      (introduced : x ∈ h.methods) (signature_eq : x.signature = m.signature)
      (same_slot : x = m ∨ ∃ s, x.slot = some s ∧ m.slot = some s)
      (atOverride : h.visibleOverloads .atOverride c name = some (m.owner, [m]))
      (atIntroduction : h.visibleOverloads .atIntroduction c name = some (x.owner, [x]))

/-- A method that is no override is what either rule sees from its class, if it is the only one
of its name there. -/
theorem Indexed.seenAlike_of_not_override (hix : h.Indexed) (hk : h.class? c = some k)
    (hms : h.membersNamed c name = [m]) (hkind : m.kind ≠ .override) : h.SeenAlike c name := by
  obtain ⟨hall, rfl, -, hnear⟩ := hix.of_sole_member hk hms
  have hvisible : ∀ rule, h.visibleOverloads rule m.owner name = some (m.owner, [m]) := by
    intro rule
    refine visibleOverloads_of_sole_member hk hms ?_
    cases rule <;> simp [LookupRule.admits, hkind]
  exact .method hnear hall rfl (.inl rfl) (hvisible _) (hvisible _)

/-- A class that declares nothing of the name sees what its parent sees. -/
theorem SeenAlike.of_no_members (hseen : h.SeenAlike p name) (hac : h.Acyclic)
    (hk : h.class? c = some k) (hp : k.parent = some p) (hms : h.membersNamed c name = []) :
    h.SeenAlike c name := by
  have hvisible : ∀ rule, h.visibleOverloads rule c name = h.visibleOverloads rule p name :=
    fun rule => hac.visibleOverloads_of_child hk hp (by simp [candidates, hms])
  have hnear : ∀ s, h.nearest? c name s = h.nearest? p name s := by
    intro s
    rw [hac.nearest?_of_child hk hp, declared?, hms, List.find?_nil, Option.none_or]
  cases hseen with
  | nothing hundeclared hinvisible =>
      refine .nothing (fun s => ?_) (fun rule => ?_)
      · rw [hnear, hundeclared]
      · rw [hvisible, hinvisible]
  | method hm hx hsig hslot hov hintro =>
      exact .method ((hnear _).trans hm) hx hsig hslot ((hvisible _).trans hov)
        ((hvisible _).trans hintro)

/-- From the class of an override, the one rule sees the override.  The other one sees what it
sees from the parent, and that has the slot which the override has joined. -/
theorem SeenAlike.of_override (hseen : h.SeenAlike p name) (hwf : h.WellFormed) (hset : h.Settled)
    (hone : h.OneSignature c name) (hk : h.class? c = some k) (hp : k.parent = some p)
    (hms : h.membersNamed c name = [m]) (hkind : m.kind = .override) : h.SeenAlike c name := by
  obtain ⟨hall, rfl, hname, hnear⟩ := hwf.indexed.of_sole_member hk hms
  -- the nearest declaration above the override has its slot
  obtain ⟨s, hs⟩ : ∃ s, m.slot = some s := by
    rw [← Option.isSome_iff_exists, hwf.slotted.isSome_slot hall, hkind]
    rfl
  obtain ⟨o, ho, hos⟩ : ∃ o, h.nearest? p name m.signature = some o ∧ o.slot = some s := by
    obtain ⟨k', p', hk', hp', hvisible⟩ := hset hall hkind
    obtain rfl : k' = k := Option.some.inj (hk'.symm.trans hk)
    obtain rfl : p' = p := Option.some.inj (hp'.symm.trans hp)
    rw [hname, hs] at hvisible
    exact Option.bind_eq_some_iff.mp hvisible
  have hov : h.visibleOverloads .atOverride m.owner name = some (m.owner, [m]) :=
    visibleOverloads_of_sole_member hk hms rfl
  have hup : h.visibleOverloads .atIntroduction m.owner name =
      h.visibleOverloads .atIntroduction p name :=
    hwf.acyclic.visibleOverloads_of_child hk hp (by simp [candidates, hms, LookupRule.admits, hkind])
  cases hseen with
  | nothing hundeclared _ =>
      rw [hundeclared] at ho
      contradiction
  | @method o' x ho' hx hsig hslot _ hintro =>
      obtain ⟨hmemo, hallo, hnameo, -⟩ := hwf.indexed.of_nearest? ho'
      have hsame : o'.signature = m.signature := by
        have hmem : m ∈ h.membersNamed m.owner name := by simp [hms]
        have hmem' : o' ∈ h.membersNamed o'.owner name :=
          hwf.indexed.mem_membersNamed_iff.mpr
            ⟨hwf.indexed.mem_members_iff.mpr ⟨hallo, rfl⟩, hnameo⟩
        have habove : o'.owner ∈ h.ancestors m.owner := by
          rw [hwf.acyclic.ancestors_of_child hk hp]
          exact List.mem_cons_of_mem _ hmemo
        exact hone _ habove _ (mem_ancestors_self hk) _ hmem' _ hmem
      obtain rfl : o' = o := Option.some.inj (ho'.symm.trans (hsame ▸ ho))
      have hxs : x.slot = some s := by
        rcases hslot with rfl | ⟨s', hxs, hos'⟩
        · exact hos
        · rw [hxs, ← hos', hos]
      exact .method hnear hx (hsig.trans hsame) (.inr ⟨s, hxs, hs⟩) hov (hup.trans hintro)

/-- **The two rules see alike** from every class of a settled hierarchy, if the name has one
signature there. -/
theorem Settled.seenAlike (hset : h.Settled) (hwf : h.WellFormed) (hone : h.OneSignature c name)
    (hk : h.class? c = some k) : h.SeenAlike c name := by
  have hac := hwf.acyclic
  refine hac.induction (P := fun c => h.OneSignature c name → h.SeenAlike c name) ?_ ?_ hk hone
  · intro c k hk hp hone
    rcases hone.membersNamed_cases hwf.indexed hk with hms | ⟨m, hms⟩
    · refine .nothing (fun s => ?_) (fun rule => ?_)
      · simp [nearest?, ancestors_of_root hk hp, declared?, hms]
      · exact visibleOverloads_of_root hk hp (by simp [candidates, hms])
    · refine hwf.indexed.seenAlike_of_not_override hk hms fun hkind => ?_
      -- an override has something above it
      obtain ⟨hall, rfl, -, -⟩ := hwf.indexed.of_sole_member hk hms
      obtain ⟨k', p, hk', hp', -⟩ := hset hall hkind
      obtain rfl : k' = k := Option.some.inj (hk'.symm.trans hk)
      rw [hp] at hp'
      contradiction
  · intro c k p hk hp ih hone
    have hseen := ih (hone.parent hac hk hp)
    rcases hone.membersNamed_cases hwf.indexed hk with hms | ⟨m, hms⟩
    · exact hseen.of_no_members hac hk hp hms
    · by_cases hkind : m.kind = .override
      · exact hseen.of_override hwf hset hone hk hp hms hkind
      · exact hwf.indexed.seenAlike_of_not_override hk hms hkind

/-! ## what the two rules run -/

/-- **Without overloading, the two lookup rules run the same method.**  In a hierarchy that a
scenario builds, take a call of a name whose declarations at or above the static type all have
one signature.  Under both rules, the call has no applicable method; or under both, it runs the
same method of the same class, bound in the same way. -/
theorem rules_run_alike {scenario : Scenario} {g : Grown} (hbuild : scenario.build = .ok g)
    {static runtime : ClassId} {site : CallSite}
    (hsite : CallSite.make g.hierarchy static runtime name args = .ok site)
    (hone : g.hierarchy.OneSignature static name) :
    RunsAlike (g.hierarchy.resolve .atOverride site) (g.hierarchy.resolve .atIntroduction site) := by
  have hwf := Scenario.wellFormed_of_build hbuild
  have hset := Scenario.settled_of_build hbuild
  obtain ⟨rfl, habove⟩ := CallSite.of_make hsite
  obtain ⟨k, hk⟩ := class?_of_mem_ancestors habove
  cases hset.seenAlike hwf hone hk with
  | nothing _ hinvisible =>
      simp only [resolve, lookupStatic, hinvisible]
      exact .noApplicable
  | @method m x hnear hx hsig hslot hov hintro =>
      obtain ⟨hmem, hm, -, -⟩ := hwf.indexed.of_nearest? hnear
      have hsame : x.isApplicable args = m.isApplicable args := by
        rw [Method.isApplicable, Method.isApplicable, hsig]
      simp only [resolve, lookupStatic, hov, hintro, Overload.select_singleton]
      cases happ : m.isApplicable args with
      | false =>
          simp only [hsame, happ, Bool.false_eq_true, if_false]
          exact .noApplicable
      | true =>
          simp only [hsame, happ, if_true]
          rcases hslot with rfl | ⟨s, hxs, hms⟩
          · exact .runs rfl rfl rfl
          · obtain ⟨hmethod, hbinding⟩ := hwf.redirect_eq_of_same_slot hm hx hms hxs
              (hwf.acyclic.mem_ancestors_trans hmem habove)
            exact .runs hmethod.symm (by simp [hmethod]) hbinding.symm

/-- Three classes in a line: `f()` is virtual in the first and overridden in the others. -/
def overriddenTwice : Scenario where
  classes :=
    [ { name := "A", methods := [{ name := "f", signature := ⟨[]⟩, kind := .virtual }] },
      { name := "B", parent := some "A",
        methods := [{ name := "f", signature := ⟨[]⟩, kind := .override }] },
      { name := "C", parent := some "B",
        methods := [{ name := "f", signature := ⟨[]⟩, kind := .override }] } ]

/-- Called as a `B`, an object of `C` runs the override in `C`, whether the override in `B` or
the virtual method in `A` is selected. -/
theorem rules_run_alike_overriddenTwice :
    ∃ g site, overriddenTwice.build = .ok g ∧
      CallSite.make g.hierarchy ⟨1⟩ ⟨2⟩ "f" [] = .ok site ∧ g.hierarchy.OneSignature ⟨1⟩ "f" ∧
      RunsAlike (g.hierarchy.resolve .atOverride site) (g.hierarchy.resolve .atIntroduction site) ∧
      ∃ r r', g.hierarchy.resolve .atOverride site = .ok r ∧ r.selected.owner = ⟨1⟩ ∧
        g.hierarchy.resolve .atIntroduction site = .ok r' ∧ r'.selected.owner = ⟨0⟩ ∧
        r.method.owner = ⟨2⟩ := by
  refine ⟨_, _, rfl, rfl, by decide, ?_, _, _, rfl, rfl, rfl, rfl, rfl⟩
  exact rules_run_alike (show overriddenTwice.build = .ok _ from rfl)
    (show CallSite.make _ ⟨1⟩ ⟨2⟩ "f" [] = .ok _ from rfl) (by decide)

end Hierarchy

end LateBinding
