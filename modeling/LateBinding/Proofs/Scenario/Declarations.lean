import LateBinding.Proofs.Hierarchy.Rejection
import LateBinding.Proofs.Scenario.Build

/-!
# LateBinding.Proofs.Scenario.Declarations

The declarations of a scenario, one after the other as they stand in the document, and what is made
of them: each class is followed by its methods, and the first declaration that is rejected ends it.

`AcceptsAll` and `FirstRejects` say this with the causes of rejection alone.  A scenario builds
class by class, and gives each class the number under which the methods are declared; this comes
to the same, because no class is passed over.
-/

namespace LateBinding

/-! ## declarations in the order of the document -/

/-- The declarations of a class entry: the class, which gets this number, then its methods. -/
def ClassEntry.declarations (e : ClassEntry) (c : ClassId) : List Declaration :=
  .newClass e.name e.parent :: e.methods.map (.newMethod c)

/-- The declarations of class entries that are numbered from `n` on. -/
def ClassEntry.declarationsFrom (n : Nat) : List ClassEntry → List Declaration
  | [] => []
  | e :: es => e.declarations ⟨n⟩ ++ declarationsFrom (n + 1) es

/-- The declarations of a scenario, as they stand in the document. -/
def Scenario.declarations (s : Scenario) : List Declaration := ClassEntry.declarationsFrom 0 s.classes

namespace Hierarchy

variable {h h' : Hierarchy} {x : Declaration} {xs ys : List Declaration} {e : DeclarationError}

/-- A hierarchy accepts these declarations, made in turn, and they leave another one. -/
inductive AcceptsAll : Hierarchy → List Declaration → Hierarchy → Prop
  | nil (h : Hierarchy) : AcceptsAll h [] h
  | cons {h h' : Hierarchy} {x : Declaration} {xs : List Declaration}
      (first : ∀ e, ¬ h.Rejects x e) (rest : AcceptsAll (h.after x) xs h') :
      AcceptsAll h (x :: xs) h'

/-- Of these declarations, made in turn, some are rejected, and the first of them for this cause. -/
inductive FirstRejects : Hierarchy → List Declaration → DeclarationError → Prop
  | here {h : Hierarchy} {x : Declaration} {xs : List Declaration} {e : DeclarationError}
      (first : h.Rejects x e) : FirstRejects h (x :: xs) e
  | later {h : Hierarchy} {x : Declaration} {xs : List Declaration} {e : DeclarationError}
      (first : ∀ e, ¬ h.Rejects x e) (rest : FirstRejects (h.after x) xs e) :
      FirstRejects h (x :: xs) e

/-! ## stopping at the first rejection -/

/-- Make a declaration. -/
def declare (h : Hierarchy) : Declaration → Except DeclarationError Hierarchy
  | .newClass name parent => (h.declareClass name parent).map (·.2)
  | .newMethod c d => (h.declareMethod c d).map (·.hierarchy)

/-- Make declarations in turn, up to the first one that is rejected. -/
def declareAll (h : Hierarchy) : List Declaration → Except DeclarationError Hierarchy
  | [] => .ok h
  | x :: xs =>
    match h.declare x with
    | .error e => .error e
    | .ok h' => h'.declareAll xs

theorem declareAll_append :
    h.declareAll (xs ++ ys) = (h.declareAll xs).bind fun h' => h'.declareAll ys := by
  induction xs generalizing h with
  | nil => rfl
  | cons x xs ih =>
      simp only [List.cons_append, declareAll]
      cases h.declare x with
      | error e => rfl
      | ok h' => exact ih

/-- An accepted declaration leaves the hierarchy after it. -/
theorem after_of_declare (hok : h.declare x = .ok h') : h.after x = h' := by
  cases x with
  | newClass name parent =>
      rw [after]
      cases hclass : h.declareClass name parent with
      | error e => rw [declare, hclass] at hok; contradiction
      | ok r => rw [declare, hclass] at hok; exact Except.ok.inj hok
  | newMethod c d =>
      rw [after]
      cases hmethod : h.declareMethod c d with
      | error e => rw [declare, hmethod] at hok; contradiction
      | ok a => rw [declare, hmethod] at hok; exact Except.ok.inj hok

/-- A declaration is rejected for exactly the causes that there are. -/
theorem WellFormed.declare_eq_error_iff (hwf : h.WellFormed) :
    h.declare x = .error e ↔ h.Rejects x e := by
  cases x with
  | newClass name parent =>
      rw [hwf.indexed.rejects_newClass_iff, declare]
      cases h.declareClass name parent <;> simp [Except.map]
  | newMethod c d =>
      rw [hwf.rejects_newMethod_iff, declare]
      cases h.declareMethod c d <;> simp [Except.map]

/-- A rejected declaration stops those after it. -/
theorem WellFormed.declareAll_of_rejects (hwf : h.WellFormed) (hrej : h.Rejects x e) :
    h.declareAll (x :: xs) = .error e := by
  simp only [declareAll, hwf.declare_eq_error_iff.mpr hrej]

/-- After an accepted declaration, the others are made. -/
theorem WellFormed.declareAll_of_accepts (hwf : h.WellFormed) (hacc : ∀ e, ¬ h.Rejects x e) :
    h.declareAll (x :: xs) = (h.after x).declareAll xs := by
  cases hx : h.declare x with
  | error e => exact absurd (hwf.declare_eq_error_iff.mp hx) (hacc e)
  | ok h' => simp only [declareAll, hx, after_of_declare hx]

theorem FirstRejects.declareAll_eq (hfirst : h.FirstRejects xs e) (hr : h.Reachable) :
    h.declareAll xs = .error e := by
  induction hfirst with
  | here hrej => exact hr.wellFormed.declareAll_of_rejects hrej
  | later hacc _ ih =>
      rw [hr.wellFormed.declareAll_of_accepts hacc]
      exact ih (hr.after _)

theorem AcceptsAll.declareAll_eq (hall : h.AcceptsAll xs h') (hr : h.Reachable) :
    h.declareAll xs = .ok h' := by
  induction hall with
  | nil h => rfl
  | cons hacc _ ih =>
      rw [hr.wellFormed.declareAll_of_accepts hacc]
      exact ih (hr.after _)

theorem AcceptsAll.reachable (hall : h.AcceptsAll xs h') (hr : h.Reachable) : h'.Reachable := by
  induction hall with
  | nil h => exact hr
  | cons _ _ ih => exact ih (hr.after _)

/-- Of declarations in turn, there is a first rejected one, or all are accepted. -/
theorem firstRejects_or_acceptsAll (h : Hierarchy) (xs : List Declaration) :
    (∃ e, h.FirstRejects xs e) ∨ ∃ h', h.AcceptsAll xs h' := by
  induction xs generalizing h with
  | nil => exact .inr ⟨h, .nil h⟩
  | cons x xs ih =>
      by_cases hrej : ∃ e, h.Rejects x e
      · obtain ⟨e, hrej⟩ := hrej
        exact .inl ⟨e, .here hrej⟩
      · rcases ih (h.after x) with ⟨e, hfirst⟩ | ⟨h', hall⟩
        · exact .inl ⟨e, .later (not_exists.mp hrej) hfirst⟩
        · exact .inr ⟨h', .cons (not_exists.mp hrej) hall⟩

/-- Declarations in turn are stopped for the cause of the first rejected one. -/
theorem Reachable.declareAll_eq_error_iff (hr : h.Reachable) :
    h.declareAll xs = .error e ↔ h.FirstRejects xs e := by
  refine ⟨fun herr => ?_, fun hfirst => hfirst.declareAll_eq hr⟩
  rcases h.firstRejects_or_acceptsAll xs with ⟨e', hfirst⟩ | ⟨h', hall⟩
  · obtain rfl := Except.error.inj (herr.symm.trans (hfirst.declareAll_eq hr))
    exact hfirst
  · rw [hall.declareAll_eq hr] at herr
    contradiction

/-- Declarations in turn leave a hierarchy if all of them are accepted. -/
theorem Reachable.declareAll_eq_ok_iff (hr : h.Reachable) :
    h.declareAll xs = .ok h' ↔ h.AcceptsAll xs h' := by
  refine ⟨fun hok => ?_, fun hall => hall.declareAll_eq hr⟩
  rcases h.firstRejects_or_acceptsAll xs with ⟨e, hfirst⟩ | ⟨h₁, hall⟩
  · rw [hfirst.declareAll_eq hr] at hok
    contradiction
  · obtain rfl := Except.ok.inj (hok.symm.trans (hall.declareAll_eq hr))
    exact hall

end Hierarchy

/-! ## what a scenario builds -/

open Hierarchy

/-- The hierarchy that a build leaves, or the cause of its end. -/
def Grown.made : Except Rejection Grown → Except DeclarationError Hierarchy
  | .ok g => .ok g.hierarchy
  | .error r => .error r.cause

theorem Grown.made_declareMethods (g : Grown) (c : ClassId) (ds : List MethodDecl) :
    made (g.declareMethods c ds) = g.hierarchy.declareAll (ds.map (.newMethod c)) := by
  induction ds generalizing g with
  | nil => rfl
  | cons d ds ih =>
      simp only [declareMethods, List.map_cons, declareAll, Hierarchy.declare]
      cases g.hierarchy.declareMethod c d with
      | error e => rfl
      | ok a => exact ih _

/-- The methods of a class add no class. -/
theorem Grown.length_classes_of_declareMethods {g g' : Grown} {c : ClassId} {ds : List MethodDecl}
    (hok : g.declareMethods c ds = .ok g') :
    g'.hierarchy.classes.length = g.hierarchy.classes.length := by
  induction ds generalizing g with
  | nil =>
      obtain rfl := Except.ok.inj hok
      rfl
  | cons d ds ih =>
      obtain ⟨k, m, ws, -, -, -, hok⟩ := of_declareMethods_cons hok
      rw [ih hok, length_classes_addMethod]

/-- Classes with their methods are declared as their declarations in turn are. -/
theorem Grown.made_declareClasses (g : Grown) (es : List ClassEntry) :
    made (g.declareClasses es) =
      g.hierarchy.declareAll (ClassEntry.declarationsFrom g.hierarchy.classes.length es) := by
  induction es generalizing g with
  | nil => rfl
  | cons e es ih =>
      simp only [declareClasses, ClassEntry.declarationsFrom, ClassEntry.declarations,
        List.cons_append, declareAll, Hierarchy.declare]
      cases hclass : g.hierarchy.declareClass e.name e.parent with
      | error cause => rfl
      | ok r =>
          obtain ⟨c, h'⟩ := r
          obtain ⟨rfl, parent, -, rfl⟩ := acceptsClass_of_declareClass hclass
          have hmade := made_declareMethods
            ⟨g.hierarchy.addClass e.name parent, g.warnings⟩ ⟨g.hierarchy.classes.length⟩ e.methods
          simp only [Except.map, declareAll_append, ← hmade]
          cases hmethods : declareMethods ⟨g.hierarchy.addClass e.name parent, g.warnings⟩
              ⟨g.hierarchy.classes.length⟩ e.methods with
          | error r => rfl
          | ok g₁ =>
              have hlength := length_classes_of_declareMethods hmethods
              rw [length_classes_addClass] at hlength
              exact (ih g₁).trans (by rw [hlength]; rfl)

namespace Scenario

variable {s : Scenario} {h : Hierarchy} {e : DeclarationError}

theorem hierarchy_eq_declareAll (s : Scenario) :
    s.hierarchy = Hierarchy.empty.declareAll s.declarations :=
  Grown.made_declareClasses {} s.classes

/-- A scenario is rejected for the cause of its first declaration that is rejected. -/
theorem hierarchy_eq_error_iff :
    s.hierarchy = .error e ↔ Hierarchy.empty.FirstRejects s.declarations e := by
  rw [hierarchy_eq_declareAll, reachable_empty.declareAll_eq_error_iff]

/-- A scenario makes a hierarchy if all its declarations are accepted. -/
theorem hierarchy_eq_ok_iff :
    s.hierarchy = .ok h ↔ Hierarchy.empty.AcceptsAll s.declarations h := by
  rw [hierarchy_eq_declareAll, reachable_empty.declareAll_eq_ok_iff]

/-- What a scenario makes, declarations make. -/
theorem reachable_of_hierarchy (hbuild : s.hierarchy = .ok h) : h.Reachable :=
  (hierarchy_eq_ok_iff.mp hbuild).reachable reachable_empty

end Scenario

end LateBinding
