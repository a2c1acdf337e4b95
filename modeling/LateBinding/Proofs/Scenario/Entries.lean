import LateBinding.Proofs.Hierarchy.Names
import LateBinding.Proofs.Scenario.Build

/-!
# LateBinding.Proofs.Scenario.Entries

A hierarchy read back as the class entries of a scenario.  What a scenario builds reads
back as the entries that it declares: nothing is lost, added or moved on the way.
-/

namespace LateBinding

namespace ClassEntry

/-- The entry with more methods. -/
def addMethods (e : ClassEntry) (ds : List MethodDecl) : ClassEntry :=
  { e with methods := e.methods ++ ds }

@[simp] theorem addMethods_nil (e : ClassEntry) : e.addMethods [] = e := by simp [addMethods]

@[simp] theorem addMethods_addMethods (e : ClassEntry) (ds ds' : List MethodDecl) :
    (e.addMethods ds).addMethods ds' = e.addMethods (ds ++ ds') := by simp [addMethods]

end ClassEntry

namespace Hierarchy

variable {h : Hierarchy} {c : ClassId} {k : ClassInfo}

/-- The entry that declares a class: its name, the name of its parent, and its methods as
they are declared. -/
def entryOf (h : Hierarchy) (k : ClassInfo) : ClassEntry where
  name := k.name
  parent := k.parent.map h.className
  methods := k.methods.map (·.toMethodDecl)

/-- The entries that declare the classes of a hierarchy, in order. -/
def entries (h : Hierarchy) : List ClassEntry := h.classes.map h.entryOf

theorem getElem?_entries (h : Hierarchy) (i : Nat) :
    h.entries[i]? = (h.class? ⟨i⟩).map h.entryOf := by
  simp [entries, class?]

@[simp] theorem length_entries (h : Hierarchy) : h.entries.length = h.classes.length := by
  simp [entries]

/-- Every entry that is read back is that of a class. -/
theorem class?_of_mem_entries {e : ClassEntry} (he : e ∈ h.entries) :
    ∃ c k, h.class? c = some k ∧ h.entryOf k = e := by
  obtain ⟨i, hi⟩ := List.mem_iff_getElem?.mp he
  rw [getElem?_entries, Option.map_eq_some_iff] at hi
  obtain ⟨k, hk, hentry⟩ := hi
  exact ⟨⟨i⟩, k, hk, hentry⟩

theorem entryOf_mem_entries (hk : h.class? c = some k) : h.entryOf k ∈ h.entries :=
  List.mem_map_of_mem (List.mem_of_getElem? hk)

/-! ## names of entries -/

/-- A name stands for a class exactly if it is the name of an entry. -/
theorem Indexed.isSome_classNamed?_iff (hix : h.Indexed) {name : String} :
    (h.classNamed? name).isSome ↔ name ∈ h.entries.map (·.name) := by
  rw [Option.isSome_iff_exists, List.mem_map]
  constructor
  · rintro ⟨c, hc⟩
    obtain ⟨k, hk, hname⟩ := Option.map_eq_some_iff.mp (hix.classNamed?_iff.mp hc)
    exact ⟨h.entryOf k, entryOf_mem_entries hk, hname⟩
  · rintro ⟨e, he, rfl⟩
    obtain ⟨c, k, hk, rfl⟩ := class?_of_mem_entries he
    exact ⟨c, hix.classNamed?_name hk⟩

/-- No two entries have the same name. -/
theorem Indexed.nodup_names (hix : h.Indexed) : (h.entries.map (·.name)).Nodup := by
  rw [List.Nodup, List.pairwise_map, List.pairwise_iff_getElem]
  intro i j hi hj hij heq
  simp only [length_entries] at hi hj
  have hki : h.class? ⟨i⟩ = some h.classes[i] := List.getElem?_eq_getElem hi
  have hkj : h.class? ⟨j⟩ = some h.classes[j] := List.getElem?_eq_getElem hj
  have hsame := hix.eq_of_name_eq hki hkj (by simpa [entries, entryOf] using heq)
  rw [ClassId.mk.injEq] at hsame
  omega

/-! ## entries of a growing hierarchy -/

theorem Acyclic.entryOf_addClass (hac : h.Acyclic) {name : String} {parent : Option ClassId}
    (hk : h.class? c = some k) : (h.addClass name parent).entryOf k = h.entryOf k := by
  unfold entryOf
  cases hp : k.parent with
  | none => rfl
  | some p =>
      obtain ⟨kp, hkp⟩ := hac.class?_parent hk hp
      rw [Option.map_some, Option.map_some, className_addClass_of_some hkp]

/-- A new class adds an entry without methods. -/
theorem WellFormed.entries_addClass (hwf : h.WellFormed) {name : String}
    {parentName : Option String} {parent : Option ClassId}
    (hacc : h.AcceptsClass name parentName parent) :
    (h.addClass name parent).entries = h.entries ++ [⟨name, parentName, []⟩] := by
  have hold : ∀ k ∈ h.classes, (h.addClass name parent).entryOf k = h.entryOf k := by
    intro k hk
    obtain ⟨i, hi⟩ := List.mem_iff_getElem?.mp hk
    exact hwf.acyclic.entryOf_addClass (c := ⟨i⟩) hi
  have hparent : parent.map (h.addClass name parent).className = parentName := by
    have hnamed := hacc.parent_named
    cases parent with
    | none => cases parentName <;> simp_all
    | some p =>
        cases parentName with
        | none => simp at hnamed
        | some n =>
            have hp : h.classNamed? n = some p := by simpa using hnamed
            obtain ⟨k, hk, -⟩ := Option.map_eq_some_iff.mp (hwf.indexed.classNamed?_iff.mp hp)
            rw [Option.map_some, className_addClass_of_some hk,
              hwf.indexed.className_of_classNamed? hp]
  rw [entries, Hierarchy.addClass, List.map_append, List.map_singleton]
  congr 1
  · exact List.map_congr_left hold
  · exact congrArg (fun n => [(⟨name, n, []⟩ : ClassEntry)]) hparent

/-- A new method is added to the entry of its class. -/
theorem entries_addMethod (h : Hierarchy) (m : Method) :
    (h.addMethod m).entries =
      h.entries.modify m.owner.index (·.addMethods [m.toMethodDecl]) := by
  apply List.ext_getElem?
  intro i
  rw [getElem?_entries, List.getElem?_modify, getElem?_entries, class?_addMethod]
  have hnames : (h.addMethod m).className = h.className := funext (className_addMethod m)
  by_cases hi : m.owner.index = i
  · have howner : (⟨i⟩ : ClassId) = m.owner := ClassId.eq_iff_index_eq.mpr hi.symm
    rw [if_pos howner]
    cases h.class? ⟨i⟩ <;> simp [hi, entryOf, ClassInfo.addMethod, ClassEntry.addMethods, hnames]
  · have hne : (⟨i⟩ : ClassId) ≠ m.owner := fun heq => hi (by rw [← heq])
    rw [if_neg hne]
    cases h.class? ⟨i⟩ <;> simp [hi, entryOf, hnames]

end Hierarchy

/-! ## entries of what is built -/

open Hierarchy

theorem Grown.entries_of_declareMethods {g g' : Grown} {c : ClassId} {ds : List MethodDecl}
    (hok : g.declareMethods c ds = .ok g') :
    g'.hierarchy.entries = g.hierarchy.entries.modify c.index (·.addMethods ds) := by
  induction ds generalizing g with
  | nil =>
      obtain rfl : g = g' := Except.ok.inj hok
      simp only [ClassEntry.addMethods_nil]
      exact (List.modify_id _ _).symm
  | cons d ds ih =>
      obtain ⟨k, m, ws, -, rfl, rfl, hok⟩ := of_declareMethods_cons hok
      rw [ih hok, entries_addMethod, List.modify_modify_eq]
      congr 1
      funext e
      simp

/-- A class that is declared with its methods adds the entry of both. -/
theorem Grown.entries_of_newClass {h : Hierarchy} {g : Grown} {e : ClassEntry}
    {parent : Option ClassId} {ws : List Warning} (hwf : h.WellFormed)
    (hacc : h.AcceptsClass e.name e.parent parent)
    (hok : declareMethods ⟨h.addClass e.name parent, ws⟩ ⟨h.classes.length⟩ e.methods = .ok g) :
    g.hierarchy.entries = h.entries ++ [e] := by
  rw [entries_of_declareMethods hok, hwf.entries_addClass hacc, ← length_entries,
    modify_concat]
  simp [ClassEntry.addMethods]

theorem Grown.entries_of_declareClasses {g g' : Grown} {es : List ClassEntry}
    (hwf : g.hierarchy.WellFormed) (hok : g.declareClasses es = .ok g') :
    g'.hierarchy.entries = g.hierarchy.entries ++ es := by
  induction es generalizing g with
  | nil =>
      obtain rfl : g = g' := Except.ok.inj hok
      simp
  | cons e es ih =>
      obtain ⟨parent, g₁, hacc, hmethods, hok⟩ := of_declareClasses_cons hok
      have hwf₁ : g₁.hierarchy.WellFormed :=
        declareMethods_induction (fun _ _ _ hwf hacc _ => hwf.addMethod hacc)
          (hwf.addClass hacc) (by simp) hmethods
      rw [ih hwf₁ hok, entries_of_newClass hwf hacc hmethods, List.append_assoc]
      rfl

/-- **What a scenario builds reads back as its entries.** -/
theorem Scenario.entries_of_build {s : Scenario} {g : Grown} (hbuild : s.build = .ok g) :
    g.hierarchy.entries = s.classes :=
  Grown.entries_of_declareClasses wellFormed_empty hbuild

end LateBinding
