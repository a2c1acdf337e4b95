import LateBinding.Proofs.Hierarchy.Settled
import LateBinding.Proofs.Resolution.Redirection

/-!
# LateBinding.Proofs.Resolution.Declaration

How far a new declaration reaches.  A new class changes no call that could be made before
it.  A new method is seen by static lookup only under its own name and from its class
downwards, and by redirection only from its class downwards and through its own slot,
which it shares with known methods only if it overrides them.

So a call on another name, on an object of another branch, or from a static type of
another branch resolves as before; except that an override may take over as the method
that runs.
-/

namespace LateBinding

/-- Two results of one call, before and after the method `x` is declared, of which the
second differs from the first at most in that `x` runs. -/
inductive SameButFor (x : Method) :
    Except LookupError Resolution → Except LookupError Resolution → Prop
  | error (e : LookupError) : SameButFor x (.error e) (.error e)
  | ok {r r' : Resolution} (selected_eq : r'.selected = r.selected)
      (binding_eq : r'.binding = r.binding) (method : r'.method = r.method ∨ r'.method = x) :
      SameButFor x (.ok r) (.ok r')

namespace Hierarchy

variable {h : Hierarchy} {rule : LookupRule} {c r : ClassId} {k : ClassInfo} {m x : Method}
  {s : SlotId} {name : String} {args : List Primitive} {site : CallSite}

/-! ## hierarchies that agree on a lineage -/

/-- A visible overload set is the same in two hierarchies in which a class has one lineage and
the classes of that lineage have the same candidates. -/
theorem visibleOverloads_congr {h' : Hierarchy} (hanc : h'.ancestors c = h.ancestors c)
    (hcandidates : ∀ a ∈ h.ancestors c, h'.candidates rule a name = h.candidates rule a name) :
    h'.visibleOverloads rule c name = h.visibleOverloads rule c name := by
  rw [visibleOverloads, visibleOverloads, hanc]
  exact findSome?_congr fun a ha => by rw [hcandidates a ha]

/-- Static lookup is the same in two hierarchies in which a class has one lineage and the
classes of that lineage have the same candidates. -/
theorem lookupStatic_congr {h' : Hierarchy} (hanc : h'.ancestors c = h.ancestors c)
    (hcandidates : ∀ a ∈ h.ancestors c, h'.candidates rule a name = h.candidates rule a name) :
    h'.lookupStatic rule c name args = h.lookupStatic rule c name args := by
  rw [lookupStatic, visibleOverloads_congr hanc hcandidates, lookupStatic]

/-- The most derived implementation of a slot is the same in two hierarchies in which a
class has one lineage and the classes of that lineage implement the slot alike. -/
theorem mostDerived?_congr {h' : Hierarchy} (hanc : h'.ancestors r = h.ancestors r)
    (himpl : ∀ a ∈ h.ancestors r, h'.implementation? a s = h.implementation? a s) :
    h'.mostDerived? r s = h.mostDerived? r s := by
  rw [mostDerived?, mostDerived?, hanc]
  exact findSome?_congr himpl

/-! ## a new class -/

/-- A new class changes no call that can already be made. -/
theorem WellFormed.resolve_addClass (hwf : h.WellFormed) {n : String} {parentName : Option String}
    {parent : Option ClassId} (hacc : h.AcceptsClass n parentName parent)
    (habove : site.static ∈ h.ancestors site.runtime) :
    (h.addClass n parent).resolve rule site = h.resolve rule site := by
  have hanc : ∀ {c k}, h.class? c = some k → (h.addClass n parent).ancestors c = h.ancestors c :=
    fun hk => hwf.acyclic.ancestors_addClass (hacc.parent_lt hwf.indexed) hk
  obtain ⟨ks, hks⟩ := class?_of_mem_ancestors habove
  obtain ⟨kr, hkr⟩ := class?_of_ancestors_mem habove
  have hlookup : (h.addClass n parent).lookupStatic rule site.static site.method site.args =
      h.lookupStatic rule site.static site.method site.args :=
    lookupStatic_congr (hanc hks) fun a _ => by rw [candidates, membersNamed_addClass, candidates]
  have hderived : ∀ s, (h.addClass n parent).mostDerived? site.runtime s =
      h.mostDerived? site.runtime s :=
    fun s => mostDerived?_congr (hanc hkr) fun a _ => implementation?_addClass n parent a s
  simp only [resolve, hlookup, redirect, hderived]

/-! ## a new method in static lookup -/

/-- A new method is one more candidate of its name in its class, if the rule admits it. -/
theorem candidates_addMethod (hk : h.class? m.owner = some k) (a : ClassId) :
    (h.addMethod m).candidates rule a name =
      if a = m.owner ∧ name = m.name ∧ rule.admits m = true then h.candidates rule a name ++ [m]
      else h.candidates rule a name := by
  rw [candidates, membersNamed_addMethod hk, candidates]
  by_cases hplace : a = m.owner ∧ name = m.name
  · rw [if_pos hplace, List.filter_append]
    cases hadmits : rule.admits m <;> simp [hplace, hadmits]
  · rw [if_neg hplace, if_neg fun hall => hplace ⟨hall.1, hall.2.1⟩]

/-- A new method is seen only under its name, from its class downwards, and if the rule admits
it. -/
theorem visibleOverloads_addMethod_of_unseen (hk : h.class? m.owner = some k)
    (hunseen : ¬ (m.owner ∈ h.ancestors c ∧ name = m.name ∧ rule.admits m = true)) :
    (h.addMethod m).visibleOverloads rule c name = h.visibleOverloads rule c name := by
  refine visibleOverloads_congr (ancestors_addMethod m c) fun a ha => ?_
  rw [candidates_addMethod hk, if_neg]
  rintro ⟨rfl, hplace⟩
  exact hunseen ⟨ha, hplace⟩

/-- Static lookup sees a new method only under its name, and from its class downwards. -/
theorem lookupStatic_addMethod (hk : h.class? m.owner = some k)
    (haway : name ≠ m.name ∨ m.owner ∉ h.ancestors c) :
    (h.addMethod m).lookupStatic rule c name args = h.lookupStatic rule c name args := by
  rw [lookupStatic, visibleOverloads_addMethod_of_unseen hk, lookupStatic]
  rintro ⟨hmem, hname, -⟩
  exact haway.elim (fun hne => hne hname) (fun hnot => hnot hmem)

/-! ## a new method in redirection -/

/-- Redirection sees a new method only through its slot, and from its class downwards. -/
theorem mostDerived?_addMethod_of_away (hk : h.class? m.owner = some k)
    (haway : m.slot ≠ some s ∨ m.owner ∉ h.ancestors r) :
    (h.addMethod m).mostDerived? r s = h.mostDerived? r s := by
  refine mostDerived?_congr (ancestors_addMethod m r) fun a ha => ?_
  rw [implementation?_addMethod hk, if_neg]
  rintro ⟨rfl, hs⟩
  exact haway.elim (fun hne => hne hs) (fun hnot => hnot ha)

/-- A search finds the same with a function that differs from another only where it
finds `b`, or it finds `b`. -/
theorem findSome?_eq_or {α β : Type} {f g : α → Option β} {b : β} {l : List α}
    (hfg : ∀ a, f a = g a ∨ f a = some b) : l.findSome? f = l.findSome? g ∨
      l.findSome? f = some b := by
  induction l with
  | nil => exact .inl rfl
  | cons a l ih =>
      rw [List.findSome?_cons, List.findSome?_cons]
      rcases hfg a with ha | ha
      · rw [ha]
        cases g a with
        | none => exact ih
        | some y => exact .inl rfl
      · rw [ha]
        exact .inr rfl

/-- The most derived implementation of a slot is the one from before, or the new method. -/
theorem mostDerived?_addMethod (hk : h.class? m.owner = some k) :
    (h.addMethod m).mostDerived? r s = h.mostDerived? r s ∨
      (h.addMethod m).mostDerived? r s = some m := by
  rw [mostDerived?, mostDerived?, ancestors_addMethod]
  refine findSome?_eq_or fun a => ?_
  rw [implementation?_addMethod hk]
  split
  · exact .inr rfl
  · exact .inl rfl

/-- A new method has the slot of a known one only if it is an override of its name. -/
theorem AcceptsMethod.override_of_slot_eq (hacc : h.AcceptsMethod k m) (hwf : h.WellFormed)
    (hx : x ∈ h.methods) (hs : x.slot = some s) (hms : m.slot = some s) :
    m.kind = .override ∧ m.name = x.name := by
  cases hkind : m.kind with
  | virtual =>
      -- the slot that it opens is not the slot of any known method
      obtain ⟨o, ho, -⟩ := hwf.slotted.shares hx hs
      rw [hacc.slot_of_virtual hkind] at hms
      obtain rfl := Option.some.inj hms
      exact absurd (index_lt_of_origin? ho) (Nat.lt_irrefl _)
  | override =>
      obtain ⟨p, o, s', -, hnear, hos, hms'⟩ := hacc.slot_of_override hkind
      obtain rfl : s' = s := Option.some.inj (hms'.symm.trans hms)
      obtain ⟨-, ho, hname, -⟩ := hwf.indexed.of_nearest? hnear
      exact ⟨rfl, hname.symm.trans (hwf.slotted.same_signature ho hx hos hs).1⟩
  | hide | plain =>
      rw [hacc.slot_of_static (by rw [hkind]; rfl)] at hms
      contradiction

/-- A known method is redirected as before, unless the new one is an override of its name
in the lineage of the runtime type. -/
theorem AcceptsMethod.redirect_addMethod (hacc : h.AcceptsMethod k m) (hwf : h.WellFormed)
    (hx : x ∈ h.methods)
    (haway : m.kind ≠ .override ∨ m.name ≠ x.name ∨ m.owner ∉ h.ancestors r) :
    (h.addMethod m).redirect x r = h.redirect x r := by
  unfold redirect
  cases hs : x.slot with
  | none => rfl
  | some s =>
      have haway' : m.slot ≠ some s ∨ m.owner ∉ h.ancestors r := by
        rw [Classical.or_iff_not_imp_left, ne_eq, Classical.not_not]
        intro hms
        obtain ⟨hkind, hname⟩ := hacc.override_of_slot_eq hwf hx hs hms
        exact (haway.resolve_left fun hne => hne hkind).resolve_left fun hne => hne hname
      simp only [mostDerived?_addMethod_of_away hacc.owner haway']

/-- After a new method, redirection runs the method from before or the new one, and binds
as before. -/
theorem redirect_addMethod_or (hk : h.class? m.owner = some k) :
    SameButFor m (.ok (h.redirect x r)) (.ok ((h.addMethod m).redirect x r)) := by
  cases hkind : x.kind.isDynamic with
  | false =>
      rw [redirect_of_static hkind, redirect_of_static hkind]
      exact .ok rfl rfl (.inl rfl)
  | true =>
      cases hs : x.slot with
      | none =>
          simp only [redirect, hs]
          exact .ok rfl rfl (.inl rfl)
      | some s =>
          rw [redirect_of_dynamic hkind hs, redirect_of_dynamic hkind hs]
          refine .ok rfl rfl ?_
          rcases mostDerived?_addMethod (r := r) (s := s) hk with hsame | hnew
          · exact .inl (by rw [hsame])
          · exact .inr (by rw [hnew, Option.getD_some])

/-! ## a new method in both steps -/

/-- A call resolves as before on another name, on an object that the class of the new
method is not above, or from a static type that it is not above if the method is no
override. -/
theorem AcceptsMethod.resolve_addMethod (hacc : h.AcceptsMethod k m) (hwf : h.WellFormed)
    (habove : site.static ∈ h.ancestors site.runtime)
    (haway : site.method ≠ m.name ∨ m.owner ∉ h.ancestors site.runtime ∨
      m.owner ∉ h.ancestors site.static ∧ m.kind ≠ .override) :
    (h.addMethod m).resolve rule site = h.resolve rule site := by
  have hlookup : site.method ≠ m.name ∨ m.owner ∉ h.ancestors site.static := by
    rcases haway with hname | hruntime | ⟨hstatic, -⟩
    · exact .inl hname
    · exact .inr fun hstatic => hruntime (hwf.acyclic.mem_ancestors_trans hstatic habove)
    · exact .inr hstatic
  simp only [resolve, lookupStatic_addMethod hacc.owner hlookup]
  cases hl : h.lookupStatic rule site.static site.method site.args with
  | error e => rfl
  | ok x =>
      have hnear := (hwf.indexed.of_lookupStatic hl).1
      have hx := (hwf.indexed.mem_members_iff.mp hnear.declared).1
      have hredirect :
          m.kind ≠ .override ∨ m.name ≠ x.name ∨ m.owner ∉ h.ancestors site.runtime := by
        rcases haway with hname | hruntime | ⟨-, hkind⟩
        · exact .inr (.inl fun heq => hname (hnear.name_eq.symm.trans heq.symm))
        · exact .inr (.inr hruntime)
        · exact .inl hkind
      simp only [hacc.redirect_addMethod hwf hx hredirect]

/-- From a static type that the class of the new method is not above, a call selects and
binds as before, and runs the method from before or the new one. -/
theorem resolve_addMethod_or (hk : h.class? m.owner = some k)
    (hstatic : m.owner ∉ h.ancestors site.static) :
    SameButFor m (h.resolve rule site) ((h.addMethod m).resolve rule site) := by
  simp only [resolve, lookupStatic_addMethod hk (.inr hstatic)]
  cases h.lookupStatic rule site.static site.method site.args with
  | error e => exact .error e
  | ok x => exact redirect_addMethod_or hk

/-! ## declarations and calls -/

theorem not_mem_ancestors_iff : c ∉ h.ancestors r ↔ h.isSameOrDescendant r c = false := by
  rw [Bool.eq_false_iff, ne_eq, isSameOrDescendant_iff]

/-- **A new declaration changes only the calls that it may change.**  A call that can be made
can still be made after a declaration.  After a method is declared, it resolves to the same
result if it is on another name, on an object of no class at or below that of the method, or
from a static type that is no such class, unless the method is an override; and then still
everything but the method that runs is the same, and that is the one from before or the new
one.  After a class is declared, every call resolves to the same result. -/
theorem resolve_after_declaration (hr : h.Reachable) {static runtime : ClassId}
    (hsite : CallSite.make h static runtime name args = .ok site) (rule : LookupRule) :
    (∀ c d a, h.declareMethod c d = .ok a →
      CallSite.make a.hierarchy static runtime name args = .ok site ∧
      (name ≠ d.name ∨ h.isSameOrDescendant runtime c = false ∨
          h.isSameOrDescendant static c = false ∧ d.kind ≠ .override →
        a.hierarchy.resolve rule site = h.resolve rule site) ∧
      (d.kind = .override → h.isSameOrDescendant static c = false →
        SameButFor a.method (h.resolve rule site) (a.hierarchy.resolve rule site))) ∧
    ∀ n parent c h', h.declareClass n parent = .ok (c, h') →
      CallSite.make h' static runtime name args = .ok site ∧
        h'.resolve rule site = h.resolve rule site := by
  have hwf := hr.wellFormed
  obtain ⟨rfl, habove⟩ := CallSite.of_make hsite
  constructor
  · intro c d a hok
    obtain ⟨⟨k, hacc⟩, rfl, rfl, heq⟩ := acceptsMethod_of_declareMethod hok
    rw [heq]
    refine ⟨CallSite.make_of_mem ?_, fun haway => ?_, fun _ hstatic => ?_⟩
    · rwa [ancestors_addMethod]
    · simp only [← not_mem_ancestors_iff] at haway
      exact hacc.resolve_addMethod hwf habove haway
    · exact resolve_addMethod_or hacc.owner (not_mem_ancestors_iff.mpr hstatic)
  · intro n parentName c h' hok
    obtain ⟨-, parent, hacc, rfl⟩ := acceptsClass_of_declareClass hok
    obtain ⟨kr, hkr⟩ := class?_of_ancestors_mem habove
    refine ⟨CallSite.make_of_mem ?_, hwf.resolve_addClass hacc habove⟩
    rwa [hwf.acyclic.ancestors_addClass (hacc.parent_lt hwf.indexed) hkr]

/-- Called as an `A`, an object of the middle one of three classes runs `f(long)` of the
first.  A `g(int)` in the middle class changes nothing, and an override of `f(long)` there is
what runs from then on. -/
theorem resolve_after_declaration_threeGenerations :
    ∃ site before, CallSite.make threeGenerations ⟨0⟩ ⟨1⟩ "f" [.int] = .ok site ∧
      threeGenerations.resolve .atOverride site = .ok before ∧
      (∃ a, threeGenerations.declareMethod ⟨1⟩
          { name := "g", signature := ⟨[.int]⟩, kind := .virtual } = .ok a ∧
        a.hierarchy.resolve .atOverride site = .ok before) ∧
      ∃ a after, threeGenerations.declareMethod ⟨1⟩
          { name := "f", signature := ⟨[.long]⟩, kind := .override } = .ok a ∧
        a.hierarchy.resolve .atOverride site = .ok after ∧ after.method = a.method ∧
        SameButFor a.method (.ok before) (.ok after) := by
  have hsite : CallSite.make threeGenerations ⟨0⟩ ⟨1⟩ "f" [.int] =
      .ok ⟨⟨0⟩, ⟨1⟩, "f", [.int]⟩ := rfl
  have hkept := (resolve_after_declaration reachable_threeGenerations hsite .atOverride).1 ⟨1⟩
  refine ⟨_, _, hsite, rfl, ⟨_, rfl, ?_⟩, ⟨_, _, rfl, rfl, rfl, ?_⟩⟩
  · exact (hkept { name := "g", signature := ⟨[.int]⟩, kind := .virtual } _ rfl).2.1
      (.inl (by decide))
  · exact (hkept { name := "f", signature := ⟨[.long]⟩, kind := .override } _ rfl).2.2 rfl rfl

end Hierarchy

end LateBinding
