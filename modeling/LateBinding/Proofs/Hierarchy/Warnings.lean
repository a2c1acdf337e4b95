import LateBinding.Resolution
import LateBinding.Proofs.Hierarchy.Bindings
import LateBinding.Proofs.Hierarchy.Names
import LateBinding.Proofs.Hierarchy.Rejection

/-!
# LateBinding.Proofs.Hierarchy.Warnings

Which declarations come with a warning about hiding, and with which one.

A method that hides without saying so is judged by its name and signature, at the nearest method
above; a method that means to hide is judged by its name alone, in all classes above.  The two
walks are separate, and so are the places where the warnings are given.  `WarnsExactly` puts them
together: at most one warning comes of a declaration, each kind of warning for its own cause.
-/

namespace LateBinding

namespace Hierarchy

variable {h : Hierarchy} {c : ClassId} {k : ClassInfo} {d : MethodDecl} {a : Accepted}
  {name : String}

/-! ## what a class sees under a name -/

/-- At the override, every method of a name is a candidate. -/
theorem candidates_atOverride (h : Hierarchy) (c : ClassId) (name : String) :
    h.candidates .atOverride c name = h.membersNamed c name := by
  simp [candidates, LookupRule.admits]

/-- At the override, nothing is visible under a name that no class of the lineage declares. -/
theorem visibleOverloads_atOverride_eq_none_iff :
    h.visibleOverloads .atOverride c name = none ↔
      ∀ b ∈ h.ancestors c, h.membersNamed b name = [] := by
  simp [visibleOverloads, candidates_atOverride]

/-- Nothing is visible under a name above a class: the class is a root, or its parent sees no
overload set. -/
def NothingVisibleAbove (h : Hierarchy) (c : ClassId) (name : String) : Prop :=
  ∀ k p, h.class? c = some k → k.parent = some p → h.visibleOverloads .atOverride p name = none

theorem nothingVisibleAbove_iff (hk : h.class? c = some k) :
    h.NothingVisibleAbove c name ↔
      ∀ p, k.parent = some p → h.visibleOverloads .atOverride p name = none := by
  constructor
  · intro hnothing p hp
    exact hnothing k p hk hp
  · intro hnothing k' p hk' hp
    obtain rfl : k = k' := Option.some.inj (hk.symm.trans hk')
    exact hnothing p hp

/-- The walk over all classes above finds no method of a name exactly if nothing is visible
there. -/
theorem inheritsName_eq_false_iff (hk : h.class? c = some k) :
    h.inheritsName k name = false ↔ h.NothingVisibleAbove c name := by
  rw [nothingVisibleAbove_iff hk]
  cases hp : k.parent with
  | none => simp [inheritsName, hp]
  | some p => simp [inheritsName, hp, visibleOverloads_atOverride_eq_none_iff]

/-! ## the warnings about a method -/

/-- The warnings about a method declared in a class: one at most, of the nearest method above if
the method hides it without saying so, or of a name that is not visible above if the method means
to hide. -/
structure WarnsExactly (h : Hierarchy) (c : ClassId) (d : MethodDecl) (ws : List Warning) :
    Prop where
  at_most_one : ws.length ≤ 1
  hidesImplicitly_iff : ∀ className method signature hidden,
    .hidesImplicitly className method signature hidden ∈ ws ↔
      (d.kind = .virtual ∨ d.kind = .plain) ∧
        ∃ o, h.NearestAbove c d.name d.signature o ∧ className = h.className c ∧
          method = d.name ∧ signature = d.signature ∧ hidden = h.qualifiedName o
  hidesNothing_iff : ∀ className method, .hidesNothing className method ∈ ws ↔
    d.kind = .hide ∧ h.NothingVisibleAbove c d.name ∧ className = h.className c ∧ method = d.name

/-- The warnings that are given are those. -/
theorem WellFormed.warnsExactly (hwf : h.WellFormed) (hk : h.class? c = some k) :
    h.WarnsExactly c d (h.hidingWarnings k d (h.inherited? k d)) where
  at_most_one := by
    unfold hidingWarnings
    split
    · split <;> simp
    all_goals simp
  hidesImplicitly_iff className method signature hidden := by
    simp only [← hwf.inherited?_eq_some_iff hk, className_of_class? hk]
    cases hkind : d.kind <;> cases h.inherited? k d <;>
      simp [hidingWarnings, hkind]
  hidesNothing_iff className method := by
    rw [← inheritsName_eq_false_iff hk, className_of_class? hk]
    cases hkind : d.kind <;> cases h.inherited? k d <;> cases hname : h.inheritsName k d.name <;>
      simp [hidingWarnings, hkind, hname]

/-- The method that a new method hides: the nearest one above, but none for an override. -/
structure HidesNearest (h : Hierarchy) (m : Method) : Prop where
  override : m.kind = .override → m.hides = none
  other : m.kind ≠ .override → ∀ i, m.hides = some i ↔
    ∃ o, h.NearestAbove m.owner m.name m.signature o ∧ o.id = i

theorem AcceptsMethod.hidesNearest {m : Method} (hacc : h.AcceptsMethod k m) (hwf : h.WellFormed) :
    h.HidesNearest m where
  override := by
    intro hkind
    have hplaced := hacc.placed
    simp only [hkind, placement, Option.map_eq_some_iff, Prod.mk.injEq] at hplaced
    obtain ⟨s, -, -, hhides⟩ := hplaced
    exact hhides.symm
  other := by
    intro hkind i
    rw [hacc.boundTo_inherited.hides hkind, Option.map_eq_some_iff]
    simp only [hwf.inherited?_eq_some_iff hacc.owner]

/-- An accepted declaration gives the warnings of its method. -/
theorem warnings_of_declareMethod (hk : h.class? c = some k) (hok : h.declareMethod c d = .ok a) :
    a.warnings = h.hidingWarnings k d (h.inherited? k d) := by
  simp only [declareMethod, hk] at hok
  split at hok
  · contradiction
  · split at hok
    · contradiction
    · exact congrArg Accepted.warnings (Except.ok.inj hok).symm

end Hierarchy

/-! ## declarations in place -/

namespace Declaring

open Hierarchy

variable {g g' : Grown} {c : ClassId} {d : MethodDecl} {id : MethodId}

/-- What an accepted declaration leaves: the new method, which hides the nearest one above, and
after the warnings that there were, exactly those that the new method gives cause for. -/
structure LeavesWarned (g : Grown) (c : ClassId) (d : MethodDecl) (id : MethodId) (g' : Grown) :
    Prop where
  method : ∃ m, g'.hierarchy.method? id = some m ∧ m.toMethodDecl = d ∧ m.owner = c ∧
    g.hierarchy.HidesNearest m
  warnings : ∃ ws, g'.warnings = g.warnings ++ ws ∧ g.hierarchy.WarnsExactly c d ws

theorem leavesWarned_of_run (hwf : g.hierarchy.WellFormed)
    (hrun : (declareMethod c d).run g = .ok id g') : LeavesWarned g c d id g' := by
  rw [run_declareMethod hwf] at hrun
  cases hok : g.hierarchy.declareMethod c d with
  | error e =>
      rw [hok] at hrun
      contradiction
  | ok a =>
      simp only [hok, EStateM.Result.ok.injEq] at hrun
      obtain ⟨rfl, rfl⟩ := hrun
      obtain ⟨⟨k, hacc⟩, hdecl, howner, hentered⟩ := acceptsMethod_of_declareMethod hok
      have hk : g.hierarchy.class? c = some k := howner ▸ hacc.owner
      constructor
      · refine ⟨a.method, ?_, hdecl, howner, hacc.hidesNearest hwf⟩
        simp [method?, hentered, hacc.id_eq]
      · exact ⟨a.warnings, rfl, warnings_of_declareMethod hk hok ▸ hwf.warnsExactly hk⟩

/-- **Warnings about hiding are exact.**  In every hierarchy that declarations make, an accepted
declaration of a method gives at most one warning: that it hides the nearest method above, if
there is one and the method is virtual or plain; that it hides nothing, if it means to hide and
nothing of its name is visible above.  The new method hides that nearest one, unless it is an
override.  The declaration of a class gives no warning. -/
theorem hiding_warnings_exact (hr : g.hierarchy.Reachable) :
    (∀ c d id g', (declareMethod c d).run g = .ok id g' → LeavesWarned g c d id g') ∧
      ∀ name parent c g', (declareClass name parent).run g = .ok c g' →
        g'.warnings = g.warnings := by
  refine ⟨fun c d id g' hrun => leavesWarned_of_run hr.wellFormed hrun, ?_⟩
  intro name parent c g' hrun
  rw [run_declareClass] at hrun
  cases hok : g.hierarchy.declareClass name parent with
  | error e =>
      rw [hok] at hrun
      contradiction
  | ok r =>
      simp only [hok, EStateM.Result.ok.injEq] at hrun
      rw [← hrun.2]

/-- In the last of the three classes, a virtual `f(int)` hides the `f(int)` of the second, an
`f(string)` that means to hide finds other methods of its name above, and a `g()` that means to
hide finds none. -/
theorem hiding_warnings_exact_threeGenerations :
    threeGenerations.Reachable ∧
      (∃ id g', (declareMethod ⟨2⟩ { name := "f", signature := ⟨[.int]⟩, kind := .virtual }).run
          ⟨threeGenerations, []⟩ = .ok id g' ∧
        LeavesWarned ⟨threeGenerations, []⟩ ⟨2⟩
          { name := "f", signature := ⟨[.int]⟩, kind := .virtual } id g' ∧
        g'.warnings = [.hidesImplicitly "C" "f" ⟨[.int]⟩ "B.f(int)"]) ∧
      (∃ id g', (declareMethod ⟨2⟩ { name := "f", signature := ⟨[.string]⟩, kind := .hide }).run
          ⟨threeGenerations, []⟩ = .ok id g' ∧ g'.warnings = []) ∧
      ∃ id g', (declareMethod ⟨2⟩ { name := "g", signature := ⟨[]⟩, kind := .hide }).run
          ⟨threeGenerations, []⟩ = .ok id g' ∧ g'.warnings = [.hidesNothing "C" "g"] := by
  have hexact := hiding_warnings_exact
    (show Reachable (Grown.hierarchy ⟨threeGenerations, []⟩) from reachable_threeGenerations)
  exact ⟨reachable_threeGenerations, ⟨_, _, rfl, hexact.1 _ _ _ _ rfl, by decide⟩,
    ⟨_, _, rfl, by decide⟩, _, _, rfl, by decide⟩

end Declaring

end LateBinding
