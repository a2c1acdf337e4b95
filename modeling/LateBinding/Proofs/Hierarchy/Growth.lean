import LateBinding.Hierarchy.Declare

/-!
# LateBinding.Proofs.Hierarchy.Growth

How hierarchies come about: by declarations made in turn on the empty one, in
any order, where a rejected declaration changes nothing.

Both ways of declaring are described by what they accept.  `AcceptsClass` and
`AcceptsMethod` say when a class or a method is accepted and which entry is made
of it; `Reachable.induction` then reduces what holds of every hierarchy to what
`addClass` and `addMethod` preserve.
-/

namespace LateBinding

/-! ## declarations in turn -/

/-- A declaration handed to a hierarchy. -/
inductive Declaration where
  | newClass (name : String) (parent : Option String)
  | newMethod (owner : ClassId) (decl : MethodDecl)
  deriving DecidableEq, Repr

namespace Hierarchy

/-- The hierarchy after a declaration; a rejected one leaves it as it was. -/
def after (h : Hierarchy) : Declaration → Hierarchy
  | .newClass name parent =>
    match h.declareClass name parent with
    | .ok (_, h') => h'
    | .error _ => h
  | .newMethod c d =>
    match h.declareMethod c d with
    | .ok a => a.hierarchy
    | .error _ => h

/-- The hierarchy after declarations made in turn. -/
def afterAll (h : Hierarchy) (ds : List Declaration) : Hierarchy := ds.foldl after h

/-- A hierarchy that some declarations make of the empty one. -/
def Reachable (h : Hierarchy) : Prop := ∃ ds, empty.afterAll ds = h

/-! ## what is accepted -/

/-- A class of this name and with this parent may be entered, given how the
parent is named in the declaration. -/
structure AcceptsClass (h : Hierarchy) (name : String) (parentName : Option String)
    (parent : Option ClassId) : Prop where
  new : h.classNamed? name = none
  parent_named : parentName.map h.classNamed? = parent.map some

/-- A method may be entered: it has the next number, its class is known and
declares no method of its name and signature, and its slot and the method it
hides are those that its kind gives it below what its class inherits. -/
structure AcceptsMethod (h : Hierarchy) (k : ClassInfo) (m : Method) : Prop where
  id_eq : m.id = ⟨h.methods.length⟩
  owner : h.class? m.owner = some k
  new : h.declared? m.owner m.name m.signature = none
  placed : h.placement (h.inherited? k m.toMethodDecl) m.kind = some (m.slot, m.hides)

/-- An accepted class is entered under the next number, below the class that its
declaration names. -/
theorem acceptsClass_of_declareClass {h h' : Hierarchy} {name : String}
    {parentName : Option String} {c : ClassId}
    (hok : h.declareClass name parentName = .ok (c, h')) :
    c = ⟨h.classes.length⟩ ∧
      ∃ parent, h.AcceptsClass name parentName parent ∧ h' = h.addClass name parent := by
  unfold declareClass at hok
  cases hname : h.classNamed? name with
  | some id =>
      simp only [hname, Option.isSome_some, if_true] at hok
      contradiction
  | none =>
      simp only [hname, Option.isSome_none, Bool.false_eq_true, if_false] at hok
      cases parentName with
      | none =>
          simp only [Except.ok.injEq, Prod.mk.injEq] at hok
          exact ⟨hok.1.symm, none, ⟨hname, rfl⟩, hok.2.symm⟩
      | some p =>
          cases hp : h.classNamed? p with
          | none => simp only [hp] at hok; contradiction
          | some id =>
              simp only [hp, Except.ok.injEq, Prod.mk.injEq] at hok
              exact ⟨hok.1.symm, some id, ⟨hname, by simp [hp]⟩, hok.2.symm⟩

/-- A class that may be entered is accepted when it is declared. -/
theorem declareClass_of_acceptsClass {h : Hierarchy} {name : String} {parentName : Option String}
    {parent : Option ClassId} (hacc : h.AcceptsClass name parentName parent) :
    h.declareClass name parentName = .ok (⟨h.classes.length⟩, h.addClass name parent) := by
  have hparent := hacc.parent_named
  unfold declareClass
  simp only [hacc.new, Option.isSome_none, Bool.false_eq_true, if_false]
  cases parentName with
  | none =>
      have : parent = none := by simpa using hparent.symm
      rw [this]
  | some p =>
      cases parent with
      | none => simp at hparent
      | some id =>
          have hp : h.classNamed? p = some id := by simpa using hparent
          simp only [hp]

/-- An accepted method is entered with the slot and the hidden method that its
kind gives it. -/
theorem acceptsMethod_of_declareMethod {h : Hierarchy} {c : ClassId} {d : MethodDecl}
    {a : Accepted} (hok : h.declareMethod c d = .ok a) :
    (∃ k, h.AcceptsMethod k a.method) ∧ a.method.toMethodDecl = d ∧ a.method.owner = c ∧
      a.hierarchy = h.addMethod a.method := by
  unfold declareMethod at hok
  cases hk : h.class? c with
  | none => simp only [hk] at hok; contradiction
  | some k =>
      simp only [hk] at hok
      cases hnew : h.declared? c d.name d.signature with
      | some m =>
          simp only [hnew, Option.isSome_some, if_true] at hok
          contradiction
      | none =>
          simp only [hnew, Option.isSome_none, Bool.false_eq_true, if_false] at hok
          cases hp : h.placement (h.inherited? k d) d.kind with
          | none => simp only [hp] at hok; contradiction
          | some p =>
              obtain ⟨slot, hides⟩ := p
              simp only [hp, Except.ok.injEq] at hok
              subst hok
              exact ⟨⟨k, rfl, hk, hnew, hp⟩, rfl, rfl, rfl⟩

/-- A method that may be entered is accepted when it is declared. -/
theorem declareMethod_of_acceptsMethod {h : Hierarchy} {k : ClassInfo} {m : Method}
    (hacc : h.AcceptsMethod k m) :
    ∃ ws, h.declareMethod m.owner m.toMethodDecl = .ok ⟨m, h.addMethod m, ws⟩ := by
  have hm : { m.toMethodDecl with
      id := ⟨h.methods.length⟩, owner := m.owner, slot := m.slot, hides := m.hides : Method } = m := by
    rw [← hacc.id_eq]
  refine ⟨h.hidingWarnings k m.toMethodDecl (h.inherited? k m.toMethodDecl), ?_⟩
  unfold declareMethod
  simp only [hacc.owner, hacc.new, hacc.placed, Option.isSome_none, Bool.false_eq_true, if_false, hm]

/-! ## the slot of an accepted method -/

/-- A virtual method opens the next slot. -/
theorem AcceptsMethod.slot_of_virtual {h : Hierarchy} {k : ClassInfo} {m : Method}
    (hacc : h.AcceptsMethod k m) (hkind : m.kind = .virtual) : m.slot = some ⟨h.slots.length⟩ := by
  have := hacc.placed
  simp only [hkind, placement, Option.some.injEq, Prod.mk.injEq] at this
  exact this.1.symm

/-- An override joins the slot of the method that its class inherits under its
name and signature. -/
theorem AcceptsMethod.slot_of_override {h : Hierarchy} {k : ClassInfo} {m : Method}
    (hacc : h.AcceptsMethod k m) (hkind : m.kind = .override) :
    ∃ p o s, k.parent = some p ∧ h.nearest? p m.name m.signature = some o ∧ o.slot = some s ∧
      m.slot = some s := by
  have hplaced := hacc.placed
  simp only [hkind, placement, Option.map_eq_some_iff, Prod.mk.injEq] at hplaced
  obtain ⟨s, hs, hslot, -⟩ := hplaced
  obtain ⟨o, ho, hos⟩ := Option.bind_eq_some_iff.mp hs
  obtain ⟨p, hp, hnear⟩ := Option.bind_eq_some_iff.mp ho
  exact ⟨p, o, s, hp, hnear, hos, hslot.symm⟩

/-- A statically bound method has no slot. -/
theorem AcceptsMethod.slot_of_static {h : Hierarchy} {k : ClassInfo} {m : Method}
    (hacc : h.AcceptsMethod k m) (hkind : m.kind.isDynamic = false) : m.slot = none := by
  have := hacc.placed
  cases hm : m.kind with
  | virtual => simp [hm, MethodKind.isDynamic] at hkind
  | override => simp [hm, MethodKind.isDynamic] at hkind
  | hide | plain =>
      simp only [hm, placement, Option.some.injEq, Prod.mk.injEq] at this
      exact this.1.symm

/-! ## what holds of every hierarchy -/

/-- What holds of the empty hierarchy and is kept by every entry of a class and
of a method holds of every hierarchy that declarations make. -/
theorem Reachable.induction {P : Hierarchy → Prop} (empty : P .empty)
    (addClass : ∀ h name parentName parent, P h → h.AcceptsClass name parentName parent →
      P (h.addClass name parent))
    (addMethod : ∀ h k m, P h → h.AcceptsMethod k m → P (h.addMethod m))
    {h : Hierarchy} (hr : h.Reachable) : P h := by
  have step : ∀ h d, P h → P (h.after d) := by
    intro h d hp
    cases d with
    | newClass name parentName =>
        simp only [after]
        cases hok : h.declareClass name parentName with
        | error e => exact hp
        | ok r =>
            obtain ⟨c, h'⟩ := r
            obtain ⟨-, parent, hacc, rfl⟩ := acceptsClass_of_declareClass hok
            exact addClass h name parentName parent hp hacc
    | newMethod c d =>
        simp only [after]
        cases hok : h.declareMethod c d with
        | error e => exact hp
        | ok a =>
            obtain ⟨⟨k, hacc⟩, -, -, heq⟩ := acceptsMethod_of_declareMethod hok
            simp only [heq]
            exact addMethod h k a.method hp hacc
  have run : ∀ ds h, P h → P (h.afterAll ds) := by
    intro ds
    induction ds with
    | nil => intro h hp; exact hp
    | cons d ds ih => intro h hp; exact ih (h.after d) (step h d hp)
  obtain ⟨ds, rfl⟩ := hr
  exact run ds .empty empty

theorem reachable_empty : empty.Reachable := ⟨[], rfl⟩

/-- One more declaration stays within the reachable hierarchies. -/
theorem Reachable.after {h : Hierarchy} (hr : h.Reachable) (d : Declaration) :
    (h.after d).Reachable := by
  obtain ⟨ds, rfl⟩ := hr
  exact ⟨ds ++ [d], by simp [afterAll]⟩

/-- Three classes in a line: `f(long)` is virtual in the first and overridden in the
last, after the second has declared `f(int)` beside it. -/
def threeGenerations : Hierarchy :=
  empty.afterAll
    [ .newClass "A" none, .newClass "B" (some "A"), .newClass "C" (some "B"),
      .newMethod ⟨0⟩ { name := "f", signature := ⟨[.long]⟩, kind := .virtual },
      .newMethod ⟨2⟩ { name := "f", signature := ⟨[.long]⟩, kind := .override },
      .newMethod ⟨1⟩ { name := "f", signature := ⟨[.int]⟩, kind := .plain } ]

theorem reachable_threeGenerations : threeGenerations.Reachable := ⟨_, rfl⟩

end Hierarchy

end LateBinding
