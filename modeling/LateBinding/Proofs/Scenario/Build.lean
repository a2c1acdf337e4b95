import LateBinding.Scenario.Run
import LateBinding.Proofs.Hierarchy.Settled

/-!
# LateBinding.Proofs.Scenario.Build

The hierarchies that scenarios build.  A scenario declares its classes one after
the other, each with its methods, so a method always goes into the newest class;
`Scenario.build_induction` reduces what holds of every built hierarchy to what such
entries preserve.
-/

namespace LateBinding

open Hierarchy

variable {P : Hierarchy → Prop}

@[simp] theorem Hierarchy.length_classes_addMethod (h : Hierarchy) (m : Method) :
    (h.addMethod m).classes.length = h.classes.length := by simp [Hierarchy.addMethod]

@[simp] theorem Hierarchy.length_classes_addClass (h : Hierarchy) (name : String)
    (parent : Option ClassId) : (h.addClass name parent).classes.length = h.classes.length + 1 := by
  simp [Hierarchy.addClass]

/-! ## one declaration of a build -/

/-- Methods that are all accepted in a class start with one that is, and the rest is
accepted after it. -/
theorem Grown.of_declareMethods_cons {g g' : Grown} {c : ClassId} {d : MethodDecl}
    {ds : List MethodDecl} (hok : g.declareMethods c (d :: ds) = .ok g') :
    ∃ k m ws, g.hierarchy.AcceptsMethod k m ∧ m.toMethodDecl = d ∧ m.owner = c ∧
      declareMethods ⟨g.hierarchy.addMethod m, ws⟩ c ds = .ok g' := by
  simp only [declareMethods] at hok
  cases hd : g.hierarchy.declareMethod c d with
  | error e => simp only [hd] at hok; contradiction
  | ok a =>
      simp only [hd] at hok
      obtain ⟨⟨k, hacc⟩, hdecl, howner, heq⟩ := acceptsMethod_of_declareMethod hd
      rw [heq] at hok
      exact ⟨k, a.method, _, hacc, hdecl, howner, hok⟩

/-- Classes that are all accepted start with one that is, with its methods, and the rest
is accepted after it. -/
theorem Grown.of_declareClasses_cons {g g' : Grown} {e : ClassEntry} {es : List ClassEntry}
    (hok : g.declareClasses (e :: es) = .ok g') :
    ∃ parent g₁, g.hierarchy.AcceptsClass e.name e.parent parent ∧
      declareMethods ⟨g.hierarchy.addClass e.name parent, g.warnings⟩ ⟨g.hierarchy.classes.length⟩
        e.methods = .ok g₁ ∧ g₁.declareClasses es = .ok g' := by
  simp only [declareClasses] at hok
  cases hclass : g.hierarchy.declareClass e.name e.parent with
  | error cause => simp only [hclass] at hok; contradiction
  | ok r =>
      obtain ⟨c, h'⟩ := r
      simp only [hclass] at hok
      obtain ⟨rfl, parent, hacc, rfl⟩ := acceptsClass_of_declareClass hclass
      cases hmethods : declareMethods ⟨g.hierarchy.addClass e.name parent, g.warnings⟩
          ⟨g.hierarchy.classes.length⟩ e.methods with
      | error r => simp only [hmethods] at hok; contradiction
      | ok g₁ =>
          simp only [hmethods] at hok
          exact ⟨parent, g₁, hacc, hmethods, hok⟩

/-! ## induction over a build -/

/-- What every method entry in the newest class keeps, the methods of one class keep. -/
theorem Grown.declareMethods_induction
    (addMethod : ∀ h k m, P h → h.AcceptsMethod k m → m.owner.index + 1 = h.classes.length →
      P (h.addMethod m))
    {g g' : Grown} {c : ClassId} {ds : List MethodDecl} (hg : P g.hierarchy)
    (hc : c.index + 1 = g.hierarchy.classes.length) (hok : g.declareMethods c ds = .ok g') :
    P g'.hierarchy := by
  induction ds generalizing g with
  | nil =>
      obtain rfl : g = g' := Except.ok.inj hok
      exact hg
  | cons d ds ih =>
      obtain ⟨k, m, ws, hacc, -, rfl, hok⟩ := of_declareMethods_cons hok
      refine ih (addMethod _ k m hg hacc hc) ?_ hok
      rw [length_classes_addMethod]
      exact hc

/-- Methods of the newest class leave a hierarchy well-formed and settled. -/
theorem Grown.settled_of_declareMethods {g g' : Grown} {c : ClassId} {ds : List MethodDecl}
    (hwf : g.hierarchy.WellFormed) (hset : g.hierarchy.Settled)
    (hc : c.index + 1 = g.hierarchy.classes.length) (hok : g.declareMethods c ds = .ok g') :
    g'.hierarchy.WellFormed ∧ g'.hierarchy.Settled := by
  refine declareMethods_induction (P := fun h => h.WellFormed ∧ h.Settled) ?_ ⟨hwf, hset⟩ hc hok
  intro h k m hp hacc hnewest
  exact ⟨hp.1.addMethod hacc, hp.2.addMethod hp.1 hacc hnewest⟩

/-- What every class entry and every method entry in the newest class keep, the
declaration of classes with their methods keeps. -/
theorem Grown.declareClasses_induction
    (addClass : ∀ h name parentName parent, P h → h.AcceptsClass name parentName parent →
      P (h.addClass name parent))
    (addMethod : ∀ h k m, P h → h.AcceptsMethod k m → m.owner.index + 1 = h.classes.length →
      P (h.addMethod m))
    {g g' : Grown} {es : List ClassEntry} (hg : P g.hierarchy) (hok : g.declareClasses es = .ok g') :
    P g'.hierarchy := by
  induction es generalizing g with
  | nil =>
      obtain rfl : g = g' := Except.ok.inj hok
      exact hg
  | cons e es ih =>
      obtain ⟨parent, g₁, hacc, hmethods, hok⟩ := of_declareClasses_cons hok
      refine ih (declareMethods_induction addMethod ?_ (by simp) hmethods) hok
      exact addClass _ e.name e.parent parent hg hacc

namespace Scenario

variable {s : Scenario} {g : Grown}

/-- What holds of the empty hierarchy and is kept by every class entry and every
method entry in the newest class holds of every hierarchy that a scenario builds. -/
theorem build_induction (empty : P .empty)
    (addClass : ∀ h name parentName parent, P h → h.AcceptsClass name parentName parent →
      P (h.addClass name parent))
    (addMethod : ∀ h k m, P h → h.AcceptsMethod k m → m.owner.index + 1 = h.classes.length →
      P (h.addMethod m))
    (hbuild : s.build = .ok g) : P g.hierarchy :=
  Grown.declareClasses_induction addClass addMethod empty hbuild

theorem wellFormed_of_build (hbuild : s.build = .ok g) : g.hierarchy.WellFormed :=
  build_induction wellFormed_empty (fun _ _ _ _ hwf hacc => hwf.addClass hacc)
    (fun _ _ _ hwf hacc _ => hwf.addMethod hacc) hbuild

/-- Every hierarchy that a scenario builds is settled. -/
theorem settled_of_build (hbuild : s.build = .ok g) : g.hierarchy.Settled := by
  have hboth : g.hierarchy.WellFormed ∧ g.hierarchy.Settled := by
    refine build_induction (P := fun h => h.WellFormed ∧ h.Settled) ?_ ?_ ?_ hbuild
    · exact ⟨wellFormed_empty, settled_empty⟩
    · intro h name parentName parent hp hacc
      exact ⟨hp.1.addClass hacc, hp.2.addClass hp.1 hacc⟩
    · intro h k m hp hacc hnewest
      exact ⟨hp.1.addMethod hacc, hp.2.addMethod hp.1 hacc hnewest⟩
  exact hboth.2

end Scenario

end LateBinding
