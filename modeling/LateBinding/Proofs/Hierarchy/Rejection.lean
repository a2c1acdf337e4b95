import LateBinding.Proofs.Hierarchy.InPlace

/-!
# LateBinding.Proofs.Hierarchy.Rejection

Which declarations are rejected, for what cause, and what a rejection leaves behind.

`Rejects` lists the causes, each under the condition that the causes before it do not apply.  It
speaks of classes and methods alone: a name is taken if some class has it, and what an override
finds above is `NearestAbove`, the method below which no other of its name and signature lies.
A declaration that is worked out write by write is rejected for exactly these causes, as if it
had never been made; so a run of declarations is a run of the accepted ones.
-/

namespace LateBinding

namespace Hierarchy

variable {h : Hierarchy} {c p : ClassId} {k : ClassInfo} {d : MethodDecl} {o : Method}
  {name : String} {s : Signature}

/-! ## what is declared already -/

/-- Some class has this name. -/
def HasClass (h : Hierarchy) (name : String) : Prop := ∃ k ∈ h.classes, k.name = name

/-- A class declares a method of this name and signature. -/
def Declares (h : Hierarchy) (c : ClassId) (name : String) (s : Signature) : Prop :=
  ∃ m ∈ h.methods, m.owner = c ∧ m.name = name ∧ m.signature = s

theorem Indexed.hasClass_iff (hix : h.Indexed) :
    h.HasClass name ↔ (h.classNamed? name).isSome = true := by
  rw [Option.isSome_iff_exists]
  constructor
  · rintro ⟨k, hk, rfl⟩
    obtain ⟨i, hi⟩ := List.mem_iff_getElem?.mp hk
    exact ⟨⟨i⟩, hix.classNamed?_iff.mpr (by simp [class?, hi])⟩
  · rintro ⟨c, hc⟩
    obtain ⟨k, hk, hname⟩ := Option.map_eq_some_iff.mp (hix.classNamed?_iff.mp hc)
    exact ⟨k, List.mem_of_getElem? hk, hname⟩

theorem Indexed.declares_iff (hix : h.Indexed) :
    h.Declares c name s ↔ (h.declared? c name s).isSome = true := by
  rw [Option.isSome_iff_exists]
  simp only [hix.declared?_eq_some_iff, hix.mem_members_iff, Declares, and_assoc]

/-! ## what is inherited -/

/-- A class is above another one and not the same. -/
def ProperAncestor (h : Hierarchy) (a c : ClassId) : Prop :=
  a ≠ c ∧ h.isSameOrDescendant c a = true

/-- The nearest method of a name and signature in the classes properly above a class: every
other one is declared at or above its class. -/
structure NearestAbove (h : Hierarchy) (c : ClassId) (name : String) (s : Signature)
    (o : Method) : Prop where
  declared : o ∈ h.methods
  name_eq : o.name = name
  signature_eq : o.signature = s
  above : h.ProperAncestor o.owner c
  nearest : ∀ m ∈ h.methods, m.name = name → m.signature = s → h.ProperAncestor m.owner c →
    h.isSameOrDescendant o.owner m.owner = true

/-- The classes properly above a class are those at or above its parent. -/
theorem Acyclic.properAncestor_iff (hac : h.Acyclic) (hk : h.class? c = some k)
    (hp : k.parent = some p) {a : ClassId} : h.ProperAncestor a c ↔ a ∈ h.ancestors p := by
  rw [ProperAncestor, isSameOrDescendant_iff, hac.ancestors_of_child hk hp, List.mem_cons]
  constructor
  · rintro ⟨hne, heq | hmem⟩
    · exact absurd heq hne
    · exact hmem
  · intro hmem
    refine ⟨?_, .inr hmem⟩
    rintro rfl
    exact hac.not_mem_ancestors_parent hk hp hmem

/-- Nothing is properly above a root. -/
theorem not_properAncestor_of_root (hk : h.class? c = some k) (hp : k.parent = none)
    {a : ClassId} : ¬ h.ProperAncestor a c := by
  rintro ⟨hne, hmem⟩
  rw [isSameOrDescendant_iff, ancestors_of_root hk hp, List.mem_singleton] at hmem
  exact hne hmem

/-- There is at most one nearest method. -/
theorem WellFormed.eq_of_nearestAbove (hwf : h.WellFormed) {o' : Method}
    (ho : h.NearestAbove c name s o) (ho' : h.NearestAbove c name s o') : o = o' := by
  have hle := ho.nearest o' ho'.declared ho'.name_eq ho'.signature_eq ho'.above
  have hge := ho'.nearest o ho.declared ho.name_eq ho.signature_eq ho.above
  have howner : o.owner = o'.owner :=
    hwf.acyclic.eq_of_mem_ancestors (isSameOrDescendant_iff.mp hge) (isSameOrDescendant_iff.mp hle)
  exact hwf.indexed.eq_of_same_signature ho.declared ho'.declared howner
    (ho.name_eq.trans ho'.name_eq.symm) (ho.signature_eq.trans ho'.signature_eq.symm)

/-- The walk up from a class stops at the nearest method of a name and signature: every other one
that it could meet is declared at or above the class of that method. -/
theorem WellFormed.mem_ancestors_of_nearest? (hwf : h.WellFormed)
    (ho : h.nearest? c name s = some o) {m : Method} (hm : m ∈ h.methods) (hname : m.name = name)
    (hsig : m.signature = s) (hmem : m.owner ∈ h.ancestors c) : m.owner ∈ h.ancestors o.owner := by
  obtain ⟨below, a, above, hsplit, hdecl, hbelow⟩ := List.findSome?_eq_some_iff.mp ho
  have howner := (hwf.indexed.mem_members_iff.mp (hwf.indexed.declared?_eq_some_iff.mp hdecl).1).2
  rw [howner, hwf.acyclic.ancestors_eq_of_split hsplit]
  rw [hsplit, List.mem_append] at hmem
  rcases hmem with hlower | hupper
  · -- the walk has passed the lower classes, so none of them declares such a method
    have hnone := hwf.indexed.declared?_eq_none_iff.mp (hbelow _ hlower)
    exact absurd hsig (hnone m (hwf.indexed.mem_members_iff.mpr ⟨hm, rfl⟩) hname)
  · exact hupper

/-- What the walk up from the parent finds is the nearest method. -/
theorem WellFormed.nearestAbove_of_inherited? (hwf : h.WellFormed) (hk : h.class? c = some k)
    (ho : h.inherited? k d = some o) : h.NearestAbove c d.name d.signature o := by
  obtain ⟨p, hp, hnear⟩ := Option.bind_eq_some_iff.mp ho
  obtain ⟨hmem, hall, hname, hsig⟩ := hwf.indexed.of_nearest? hnear
  refine ⟨hall, hname, hsig, (hwf.acyclic.properAncestor_iff hk hp).mpr hmem, ?_⟩
  intro m hm hmname hmsig hproper
  rw [hwf.acyclic.properAncestor_iff hk hp] at hproper
  rw [isSameOrDescendant_iff]
  exact hwf.mem_ancestors_of_nearest? hnear hm hmname hmsig hproper

/-- A class inherits under a name and signature the nearest method above it. -/
theorem WellFormed.inherited?_eq_some_iff (hwf : h.WellFormed) (hk : h.class? c = some k) :
    h.inherited? k d = some o ↔ h.NearestAbove c d.name d.signature o := by
  refine ⟨hwf.nearestAbove_of_inherited? hk, fun ho => ?_⟩
  cases hp : k.parent with
  | none => exact absurd ho.above (not_properAncestor_of_root hk hp)
  | some p =>
      cases hinh : h.inherited? k d with
      | some o' => rw [hwf.eq_of_nearestAbove ho (hwf.nearestAbove_of_inherited? hk hinh)]
      | none =>
          -- the walk meets the class of the nearest method
          have hmem := (hwf.acyclic.properAncestor_iff hk hp).mp ho.above
          rw [inherited?, hp, Option.bind_some, nearest?, List.findSome?_eq_none_iff] at hinh
          have hnone := hwf.indexed.declared?_eq_none_iff.mp (hinh _ hmem)
          exact absurd ho.signature_eq
            (hnone o (hwf.indexed.mem_members_iff.mpr ⟨ho.declared, rfl⟩) ho.name_eq)

/-! ## causes -/

/-- There is nothing for an override to join: no method of its name and signature lies above, or
the nearest one is statically bound. -/
def NothingToOverride (h : Hierarchy) (c : ClassId) (d : MethodDecl) : Prop :=
  (¬ ∃ o, h.NearestAbove c d.name d.signature o) ∨
    ∃ o, h.NearestAbove c d.name d.signature o ∧ (o.kind = .hide ∨ o.kind = .plain)

/-- The causes for which a hierarchy rejects a declaration. -/
inductive Rejects (h : Hierarchy) : Declaration → DeclarationError → Prop
  | duplicateClass {name : String} {parent : Option String} (taken : h.HasClass name) :
      Rejects h (.newClass name parent) (.duplicateClass name)
  | unknownParent {name parent : String} (new : ¬ h.HasClass name)
      (unknown : ¬ h.HasClass parent) :
      Rejects h (.newClass name (some parent)) (.unknownParent name parent)
  | unknownClass {c : ClassId} {d : MethodDecl} (unknown : h.classes.length ≤ c.index) :
      Rejects h (.newMethod c d) (.unknownClass c.text)
  | duplicateSignature {c : ClassId} {k : ClassInfo} {d : MethodDecl}
      (known : h.class? c = some k) (declared : h.Declares c d.name d.signature) :
      Rejects h (.newMethod c d) (.duplicateSignature k.name d.name d.signature)
  | invalidOverride {c : ClassId} {k : ClassInfo} {d : MethodDecl} (known : h.class? c = some k)
      (new : ¬ h.Declares c d.name d.signature) (kind : d.kind = .override)
      (nothing : h.NothingToOverride c d) :
      Rejects h (.newMethod c d) (.invalidOverride k.name d.name d.signature)

/-- A hierarchy rejects the declaration of a class for exactly the causes that it names. -/
theorem Indexed.rejects_newClass_iff (hix : h.Indexed) {parent : Option String}
    {e : DeclarationError} :
    h.Rejects (.newClass name parent) e ↔ h.declareClass name parent = .error e := by
  unfold declareClass
  constructor
  · intro hrej
    cases hrej with
    | duplicateClass taken => rw [if_pos (hix.hasClass_iff.mp taken)]
    | unknownParent new unknown =>
        rw [hix.hasClass_iff, Option.not_isSome_iff_eq_none] at unknown
        rw [if_neg (new ∘ hix.hasClass_iff.mpr)]
        simp only [unknown]
  · intro herr
    by_cases htaken : (h.classNamed? name).isSome = true
    · rw [if_pos htaken, Except.error.injEq] at herr
      exact herr ▸ .duplicateClass (hix.hasClass_iff.mpr htaken)
    · rw [if_neg htaken] at herr
      cases parent with
      | none => contradiction
      | some p =>
          cases hp : h.classNamed? p with
          | some id => simp only [hp] at herr; contradiction
          | none =>
              simp only [hp, Except.error.injEq] at herr
              exact herr ▸ .unknownParent (htaken ∘ hix.hasClass_iff.mp)
                (by rw [hix.hasClass_iff, hp]; simp)

/-- There is no place for a method exactly if it is an override with nothing to override. -/
theorem WellFormed.placement_eq_none_iff (hwf : h.WellFormed) (hk : h.class? c = some k) :
    h.placement (h.inherited? k d) d.kind = none ↔
      d.kind = .override ∧ h.NothingToOverride c d := by
  cases hkind : d.kind with
  | virtual | hide | plain => simp [placement]
  | override =>
      rw [placement, Option.map_eq_none_iff, Option.bind_eq_none_iff]
      simp only [hwf.inherited?_eq_some_iff hk, true_and, NothingToOverride]
      have hstatic : ∀ o, h.NearestAbove c d.name d.signature o →
          (o.slot = none ↔ o.kind = .hide ∨ o.kind = .plain) := by
        intro o ho
        rw [← Option.not_isSome_iff_eq_none, hwf.slotted.isSome_slot_iff ho.declared]
        cases o.kind <;> simp
      constructor
      · intro hnone
        by_cases hex : ∃ o, h.NearestAbove c d.name d.signature o
        · obtain ⟨o, ho⟩ := hex
          exact .inr ⟨o, ho, (hstatic o ho).mp (hnone o ho)⟩
        · exact .inl hex
      · rintro (hnot | ⟨o', ho', hkind'⟩) o ho
        · exact absurd ⟨o, ho⟩ hnot
        · rw [hwf.eq_of_nearestAbove ho ho']
          exact (hstatic o' ho').mpr hkind'

/-- A hierarchy rejects the declaration of a method for exactly the causes that it names. -/
theorem WellFormed.rejects_newMethod_iff (hwf : h.WellFormed) {e : DeclarationError} :
    h.Rejects (.newMethod c d) e ↔ h.declareMethod c d = .error e := by
  unfold declareMethod
  constructor
  · intro hrej
    cases hrej with
    | unknownClass unknown => simp only [class?, List.getElem?_eq_none unknown]
    | duplicateSignature known declared =>
        rw [hwf.indexed.declares_iff] at declared
        simp only [known, declared, if_true]
    | invalidOverride known new kind nothing =>
        have hnone := (hwf.placement_eq_none_iff known).mpr ⟨kind, nothing⟩
        simp only [known, if_neg (new ∘ hwf.indexed.declares_iff.mpr), hnone]
  · intro herr
    cases hk : h.class? c with
    | none =>
        simp only [hk, Except.error.injEq] at herr
        exact herr ▸ .unknownClass (List.getElem?_eq_none_iff.mp hk)
    | some k =>
        simp only [hk] at herr
        by_cases hdecl : (h.declared? c d.name d.signature).isSome = true
        · rw [if_pos hdecl, Except.error.injEq] at herr
          exact herr ▸ .duplicateSignature hk (hwf.indexed.declares_iff.mpr hdecl)
        · rw [if_neg hdecl] at herr
          cases hplace : h.placement (h.inherited? k d) d.kind with
          | some place => simp only [hplace] at herr; contradiction
          | none =>
              simp only [hplace, Except.error.injEq] at herr
              obtain ⟨hkind, hnothing⟩ := (hwf.placement_eq_none_iff hk).mp hplace
              exact herr ▸ .invalidOverride hk (hdecl ∘ hwf.indexed.declares_iff.mp) hkind hnothing

/-- A rejected declaration leaves the hierarchy as it was. -/
theorem WellFormed.after_of_rejects (hwf : h.WellFormed) {x : Declaration} {e : DeclarationError}
    (hrej : h.Rejects x e) : h.after x = h := by
  cases x with
  | newClass name parent => simp only [after, hwf.indexed.rejects_newClass_iff.mp hrej]
  | newMethod c d => simp only [after, hwf.rejects_newMethod_iff.mp hrej]

end Hierarchy

/-! ## declarations in place -/

/-- The number that an accepted declaration is given. -/
inductive Issued where
  | classId (c : ClassId)
  | methodId (m : MethodId)
  deriving DecidableEq, Repr

namespace Declaring

open Hierarchy

variable {g g' : Grown} {x : Declaration} {e : DeclarationError}

/-- Make a declaration. -/
def declare : Declaration → Declaring Issued
  | .newClass name parent => return .classId (← declareClass name parent)
  | .newMethod c d => return .methodId (← declareMethod c d)

/-- The number that a hierarchy gives next. -/
def nextNumber (h : Hierarchy) : Declaration → Issued
  | .newClass _ _ => .classId ⟨h.classes.length⟩
  | .newMethod _ _ => .methodId ⟨h.methods.length⟩

/-- A declaration for whose rejection there is a cause is rejected for it, and nothing is
written. -/
theorem run_declare_of_rejects (hwf : g.hierarchy.WellFormed) (hrej : g.hierarchy.Rejects x e) :
    (declare x).run g = .error e g := by
  cases x with
  | newClass name parent =>
      rw [declare, EStateM.run_bind, run_declareClass, hwf.indexed.rejects_newClass_iff.mp hrej]
  | newMethod c d =>
      rw [declare, EStateM.run_bind, run_declareMethod hwf, hwf.rejects_newMethod_iff.mp hrej]

/-- A declaration for whose rejection there is no cause is accepted under the next number. -/
theorem run_declare_of_not_rejects (hwf : g.hierarchy.WellFormed)
    (hacc : ∀ e, ¬ g.hierarchy.Rejects x e) :
    ∃ ws, (declare x).run g =
      .ok (nextNumber g.hierarchy x) ⟨g.hierarchy.after x, g.warnings ++ ws⟩ := by
  cases x with
  | newClass name parent =>
      cases hdecl : g.hierarchy.declareClass name parent with
      | error e => exact absurd (hwf.indexed.rejects_newClass_iff.mpr hdecl) (hacc e)
      | ok r =>
          obtain ⟨c, h'⟩ := r
          obtain ⟨rfl, -⟩ := acceptsClass_of_declareClass hdecl
          refine ⟨[], ?_⟩
          simp only [declare, EStateM.run_bind, run_declareClass, hdecl, EStateM.run_pure,
            nextNumber, Hierarchy.after, List.append_nil]
  | newMethod c d =>
      cases hdecl : g.hierarchy.declareMethod c d with
      | error e => exact absurd (hwf.rejects_newMethod_iff.mpr hdecl) (hacc e)
      | ok a =>
          obtain ⟨⟨k, haccepts⟩, -, -, -⟩ := acceptsMethod_of_declareMethod hdecl
          refine ⟨a.warnings, ?_⟩
          simp only [declare, EStateM.run_bind, run_declareMethod hwf, hdecl, EStateM.run_pure,
            nextNumber, Hierarchy.after, haccepts.id_eq]

/-! ## runs of declarations -/

/-- Make declarations in turn, each where the one before has left off, whether it was accepted
or not: the answers and what is there in the end. -/
def answers : List Declaration → Grown → List (Except DeclarationError Issued) × Grown
  | [], g => ([], g)
  | x :: xs, g =>
    match (declare x).run g with
    | .ok id g' => (.ok id :: (answers xs g').1, (answers xs g').2)
    | .error e g' => (.error e :: (answers xs g').1, (answers xs g').2)

/-- The declarations of a run that are accepted. -/
def accepted (xs : List Declaration) (g : Grown) : List Declaration :=
  ((xs.zip (answers xs g).1).filter (·.2.isOk)).map (·.1)

section Rejected

variable {xs : List Declaration} (hrun : (declare x).run g = .error e g)

include hrun

/-- A rejected declaration is answered, and the run goes on from where it was. -/
theorem answers_cons_of_rejected :
    answers (x :: xs) g = (.error e :: (answers xs g).1, (answers xs g).2) := by
  simp only [answers, hrun]

theorem accepted_cons_of_rejected : accepted (x :: xs) g = accepted xs g := by
  rw [accepted, answers_cons_of_rejected hrun]
  rfl

end Rejected

section Accepted

variable {xs : List Declaration} {id : Issued} (hrun : (declare x).run g = .ok id g')

include hrun

theorem answers_cons_of_accepted :
    answers (x :: xs) g = (.ok id :: (answers xs g').1, (answers xs g').2) := by
  simp only [answers, hrun]

theorem accepted_cons_of_accepted : accepted (x :: xs) g = x :: accepted xs g' := by
  rw [accepted, answers_cons_of_accepted hrun]
  rfl

end Accepted

/-- A run of declarations leaves the hierarchy that they make when a rejected one is just passed
over. -/
theorem hierarchy_answers (hr : g.hierarchy.Reachable) (xs : List Declaration) :
    (answers xs g).2.hierarchy = g.hierarchy.afterAll xs := by
  induction xs generalizing g with
  | nil => rfl
  | cons x xs ih =>
      by_cases hrej : ∃ e, g.hierarchy.Rejects x e
      · obtain ⟨e, hrej⟩ := hrej
        rw [answers_cons_of_rejected (run_declare_of_rejects hr.wellFormed hrej), ih hr, afterAll,
          afterAll, List.foldl_cons, hr.wellFormed.after_of_rejects hrej]
      · obtain ⟨ws, hrun⟩ := run_declare_of_not_rejects hr.wellFormed (not_exists.mp hrej)
        rw [answers_cons_of_accepted hrun, ih (hr.after x)]
        rfl

/-- The accepted declarations of a run, made alone, are answered as in the run, and leave the
same. -/
theorem answers_accepted (hr : g.hierarchy.Reachable) (xs : List Declaration) :
    answers (accepted xs g) g = ((answers xs g).1.filter (·.isOk), (answers xs g).2) := by
  induction xs generalizing g with
  | nil => rfl
  | cons x xs ih =>
      by_cases hrej : ∃ e, g.hierarchy.Rejects x e
      · obtain ⟨e, hrej⟩ := hrej
        have hrun := run_declare_of_rejects hr.wellFormed hrej
        rw [accepted_cons_of_rejected hrun, answers_cons_of_rejected hrun, ih hr]
        rfl
      · obtain ⟨ws, hrun⟩ := run_declare_of_not_rejects hr.wellFormed (not_exists.mp hrej)
        rw [accepted_cons_of_accepted hrun, answers_cons_of_accepted hrun,
          answers_cons_of_accepted hrun, ih (hr.after x)]
        rfl

/-- **A declaration is rejected exactly for the causes of `Rejects`, and then as if it had not
been made**: hierarchy and warnings stay as they were, although a declaration is checked and
written in turns.  Any other declaration is accepted under the next number.  So a run of
declarations gives the same numbers and leaves the same as its accepted declarations alone. -/
theorem rejections_leave_no_trace (hr : g.hierarchy.Reachable) :
    (∀ x e g', (declare x).run g = .error e g' ↔ g.hierarchy.Rejects x e ∧ g' = g) ∧
      (∀ x, (∃ g', (declare x).run g = .ok (nextNumber g.hierarchy x) g') ↔
        ∀ e, ¬ g.hierarchy.Rejects x e) ∧
      ∀ xs, answers (accepted xs g) g = ((answers xs g).1.filter (·.isOk), (answers xs g).2) ∧
        (answers xs g).2.hierarchy = g.hierarchy.afterAll xs := by
  have hwf := hr.wellFormed
  refine ⟨?_, ?_, fun xs => ⟨answers_accepted hr xs, hierarchy_answers hr xs⟩⟩
  · intro x e g'
    constructor
    · intro herr
      by_cases hrej : ∃ e, g.hierarchy.Rejects x e
      · obtain ⟨e', hrej⟩ := hrej
        rw [run_declare_of_rejects hwf hrej, EStateM.Result.error.injEq] at herr
        exact ⟨herr.1 ▸ hrej, herr.2.symm⟩
      · obtain ⟨ws, hrun⟩ := run_declare_of_not_rejects hwf (not_exists.mp hrej)
        rw [hrun] at herr
        contradiction
    · rintro ⟨hrej, rfl⟩
      exact run_declare_of_rejects hwf hrej
  · intro x
    constructor
    · rintro ⟨g', hok⟩ e hrej
      rw [run_declare_of_rejects hwf hrej] at hok
      contradiction
    · intro hacc
      obtain ⟨ws, hrun⟩ := run_declare_of_not_rejects hwf hacc
      exact ⟨_, hrun⟩

/-- Two virtual methods, and between them an override of a plain method and a class below an
unknown one, for the hierarchy of three classes. -/
def mixedRun : List Declaration :=
  [ .newMethod ⟨1⟩ { name := "f", signature := ⟨[.long]⟩, kind := .virtual },
    .newMethod ⟨2⟩ { name := "f", signature := ⟨[.int]⟩, kind := .override },
    .newClass "D" (some "E"),
    .newMethod ⟨2⟩ { name := "g", signature := ⟨[]⟩, kind := .virtual } ]

/-- In the hierarchy of three classes, the last cannot override the plain `f(int)` of the second.
The run that tries it comes to its two virtual methods alone. -/
theorem rejections_leave_no_trace_threeGenerations :
    threeGenerations.Rejects
        (.newMethod ⟨2⟩ { name := "f", signature := ⟨[.int]⟩, kind := .override })
        (.invalidOverride "C" "f" ⟨[.int]⟩) ∧
      answers
          [ .newMethod ⟨1⟩ { name := "f", signature := ⟨[.long]⟩, kind := .virtual },
            .newMethod ⟨2⟩ { name := "g", signature := ⟨[]⟩, kind := .virtual } ]
          ⟨threeGenerations, []⟩ =
        ([.ok (.methodId ⟨3⟩), .ok (.methodId ⟨4⟩)], (answers mixedRun ⟨threeGenerations, []⟩).2) :=
  have htrace := rejections_leave_no_trace
    (show Reachable (Grown.hierarchy ⟨threeGenerations, []⟩) from reachable_threeGenerations)
  ⟨((htrace.1 _ _ _).mp rfl).1, (htrace.2.2 mixedRun).1⟩

end Declaring

end LateBinding
