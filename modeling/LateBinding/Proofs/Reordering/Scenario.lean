import LateBinding.Proofs.Reordering.Execution

/-!
# LateBinding.Proofs.Reordering.Scenario

A scenario with its declarations in another order.  As long as every class comes after
its parent, the reordered declarations are all accepted again, since what a declaration
needs is a matter of names and signatures, and every call gives the same result.
-/

namespace LateBinding

/-- The name and signature under which a method is declared. -/
def MethodDecl.key (d : MethodDecl) : String × Signature := (d.name, d.signature)

/-- Whether every entry comes after the class that it names as its parent, given the names
of classes that come before all of them. -/
def parentsFirst (above : List String) : List ClassEntry → Bool
  | [] => true
  | e :: es => e.parent.all (above.contains ·) && parentsFirst (above ++ [e.name]) es

namespace Hierarchy

variable {h h' : Hierarchy} {c : ClassId} {k : ClassInfo}

/-! ## what an accepted class keeps to -/

/-- The methods of a class are declared under different names or signatures. -/
theorem Indexed.nodup_keys (hix : h.Indexed) (hk : h.class? c = some k) :
    ((h.entryOf k).methods.map (·.key)).Nodup := by
  have hmembers := members_of_class? hk
  have hnodup : k.methods.Nodup := by
    rw [← hmembers, hix.members_eq]
    exact hix.nodup_methods.filter _
  rw [entryOf, List.map_map, List.Nodup, List.pairwise_map]
  refine List.Pairwise.imp_of_mem ?_ hnodup
  intro m m' hm hm' hne heq
  obtain ⟨hname, hsig⟩ := Prod.mk.inj heq
  exact hne (hix.distinct (hmembers ▸ hm) (hmembers ▸ hm') hname hsig)

/-- Of counterparts, both have a slot or neither has. -/
theorem Covers.isSome_slot_eq (hcov : h.Covers h') {m m' : Method} (hm : m ∈ h.methods)
    (hm' : m' ∈ h'.methods) (hcp : h.Counterpart h' m m') : m'.slot.isSome = m.slot.isSome := by
  rw [hcov.wellFormed.slotted.isSome_slot hm, hcov.wellFormed'.slotted.isSome_slot hm', hcp.kind_eq]

/-- What a class overrides is inherited with a slot, also by the twins of its parent. -/
theorem Covers.inherits_slot (hcov : h.Covers h') (hk : h.class? c = some k) {d : MethodDecl}
    (hd : d ∈ (h.entryOf k).methods) (hkind : d.kind = .override) :
    ∃ p, k.parent = some p ∧ ∀ p', h.Twin h' p p' →
      ∃ o s, h'.nearest? p' d.name d.signature = some o ∧ o.slot = some s := by
  have hix := hcov.wellFormed.indexed
  have hmembers := members_of_class? hk
  obtain ⟨m, hm, rfl⟩ := List.mem_map.mp hd
  obtain ⟨hall, howner⟩ := hix.mem_members_iff.mp (hmembers.symm ▸ hm)
  obtain ⟨l, p, hl, hp, hslot⟩ := hcov.settled hall hkind
  obtain rfl : l = k := Option.some.inj (hl.symm.trans (howner ▸ hk))
  have hisSome : (h.visibleSlot? p m.name m.signature).isSome = true := by
    rw [hslot, hcov.wellFormed.slotted.isSome_slot hall, hkind]
    rfl
  obtain ⟨s, hs⟩ := Option.isSome_iff_exists.mp hisSome
  obtain ⟨o, ho, hos⟩ := Option.bind_eq_some_iff.mp hs
  refine ⟨p, hp, fun p' ht => ?_⟩
  have hnear := hcov.nearest? ht m.name m.signature
  cases ho' : h'.nearest? p' m.name m.signature with
  | none => rw [ho, ho'] at hnear; cases hnear
  | some o' =>
      rw [ho, ho'] at hnear
      cases hnear with
      | some hcp =>
          have hslot' := hcov.isSome_slot_eq (hix.of_nearest? ho).2.1
            (hcov.wellFormed'.indexed.of_nearest? ho').2.1 hcp
          rw [hos, Option.isSome_some, Option.isSome_iff_exists] at hslot'
          obtain ⟨s', hs'⟩ := hslot'
          exact ⟨o', s', rfl, hs'⟩

/-! ## what is accepted again -/

/-- A class with a new name below a named class, or below none, may be entered. -/
theorem Indexed.exists_acceptsClass (hix : h.Indexed) {name : String}
    {parentName : Option String} (hnew : name ∉ h.entries.map (·.name))
    (hparent : ∀ p, parentName = some p → p ∈ h.entries.map (·.name)) :
    ∃ parent, h.AcceptsClass name parentName parent := by
  have hnone : h.classNamed? name = none := by
    rw [← hix.isSome_classNamed?_iff, Option.not_isSome_iff_eq_none] at hnew
    exact hnew
  cases parentName with
  | none => exact ⟨none, hnone, rfl⟩
  | some p =>
      obtain ⟨c, hc⟩ := Option.isSome_iff_exists.mp (hix.isSome_classNamed?_iff.mpr (hparent p rfl))
      exact ⟨some c, hnone, by simp [hc]⟩

/-- A declaration that is new in its class may be entered, an override if a slot is
inherited for it. -/
theorem exists_acceptsMethod {d : MethodDecl} (hk : h.class? c = some k)
    (hnew : h.declared? c d.name d.signature = none)
    (hslot : d.kind = .override → ∃ p, k.parent = some p ∧
      ∃ o s, h.nearest? p d.name d.signature = some o ∧ o.slot = some s) :
    ∃ m, h.AcceptsMethod k m ∧ m.toMethodDecl = d ∧ m.owner = c := by
  have hplaced : ∃ placed, h.placement (h.inherited? k d) d.kind = some placed := by
    cases hkind : d.kind with
    | override =>
        obtain ⟨p, hp, o, s, ho, hs⟩ := hslot hkind
        simp [placement, inherited?, hp, ho, hs]
    | virtual | hide | plain => exact ⟨_, rfl⟩
  obtain ⟨⟨slot, hides⟩, hplaced⟩ := hplaced
  exact ⟨⟨d, ⟨h.methods.length⟩, c, slot, hides⟩, ⟨rfl, hk, hnew, hplaced⟩, rfl, rfl⟩

end Hierarchy

namespace Grown

open Hierarchy

variable {h : Hierarchy}

/-- Methods of different names or signatures are accepted in a class, if a slot is
inherited for every override among them. -/
theorem exists_declareMethods {g : Grown} {c : ClassId} {k : ClassInfo} {ds : List MethodDecl}
    (hwf : g.hierarchy.WellFormed) (hk : g.hierarchy.class? c = some k)
    (hkeys : (k.methods.map (·.key) ++ ds.map (·.key)).Nodup)
    (hslots : ∀ d ∈ ds, d.kind = .override → ∃ p, k.parent = some p ∧
      ∃ o s, g.hierarchy.nearest? p d.name d.signature = some o ∧ o.slot = some s) :
    ∃ g', g.declareMethods c ds = .ok g' := by
  induction ds generalizing g k with
  | nil => exact ⟨g, rfl⟩
  | cons d ds ih =>
      have hnew : g.hierarchy.declared? c d.name d.signature = none := by
        rw [hwf.indexed.declared?_eq_none_iff]
        intro m hm hname hsig
        have hmem : d.key ∈ k.methods.map (·.key) := by
          rw [members_of_class? hk] at hm
          exact List.mem_map.mpr ⟨m, hm, Prod.ext hname hsig⟩
        exact (List.nodup_append.mp hkeys).2.2 _ hmem d.key (by simp) rfl
      obtain ⟨m, hacc, rfl, rfl⟩ := exists_acceptsMethod hk hnew (hslots d List.mem_cons_self)
      obtain ⟨ws, hok⟩ := declareMethod_of_acceptsMethod hacc
      simp only [declareMethods, hok]
      refine ih (k := k.addMethod m) (hwf.addMethod hacc) ?_ ?_ ?_
      · rw [class?_addMethod, if_pos rfl, hk, Option.map_some]
      · simpa [ClassInfo.addMethod] using hkeys
      · intro d hd hkind
        obtain ⟨p, hp, o, s, ho, hs⟩ := hslots d (List.mem_cons_of_mem _ hd) hkind
        refine ⟨p, hp, o, s, ?_, hs⟩
        -- the class is not above its own parent, so what it inherits stays
        rwa [nearest?_addMethod_of_not_mem hk (hwf.acyclic.not_mem_ancestors_parent hk hp)]

/-- The methods of an entry that reorders a covering class are accepted in its class. -/
theorem exists_declareMethods_of_reorders {h' : Hierarchy} (hcov : h.Covers h') {e e' : ClassEntry}
    (he : e ∈ h.entries) (hre : e.Reorders e') {parent : Option ClassId}
    (hacc : h'.AcceptsClass e'.name e'.parent parent) (ws : List Warning) :
    ∃ g, declareMethods ⟨h'.addClass e'.name parent, ws⟩ ⟨h'.classes.length⟩ e'.methods = .ok g := by
  obtain ⟨c, k, hk, rfl⟩ := class?_of_mem_entries he
  have hclass : (h'.addClass e'.name parent).class? ⟨h'.classes.length⟩ =
      some { name := e'.name, parent } := by rw [class?_addClass, if_pos rfl]
  have hkeys : (e'.methods.map (·.key)).Nodup :=
    (hre.methods_perm.map _).nodup_iff.mpr (hcov.wellFormed.indexed.nodup_keys hk)
  refine exists_declareMethods (hcov.wellFormed'.addClass hacc) hclass (by simpa using hkeys) ?_
  intro d hd hkind
  obtain ⟨p, hp, hnear⟩ := hcov.inherits_slot hk (hre.methods_perm.mem_iff.mp hd) hkind
  obtain ⟨p', hp', htwin⟩ := hcov.exists_twin_parent hk hp hre.parent_eq hacc
  obtain ⟨kp', hkp'⟩ := htwin.known'
  obtain ⟨o, s, ho, hs⟩ := hnear p' htwin
  refine ⟨p', hp', o, s, ?_, hs⟩
  have hparent := hacc.parent_lt hcov.wellFormed'.indexed
  rwa [hcov.wellFormed'.acyclic.nearest?_addClass hparent hkp']

/-- Classes that reorder classes of a settled hierarchy are accepted with their methods,
if they have different names and each comes after its parent. -/
theorem exists_declareClasses (hwf : h.WellFormed) (hset : h.Settled) {g : Grown}
    {es : List ClassEntry} (hwf' : g.hierarchy.WellFormed) (hset' : g.hierarchy.Settled)
    (hcovers : ∀ e' ∈ g.hierarchy.entries ++ es, ∃ e ∈ h.entries, e.Reorders e')
    (hnames : ((g.hierarchy.entries ++ es).map (·.name)).Nodup)
    (hparents : parentsFirst (g.hierarchy.entries.map (·.name)) es = true) :
    ∃ g', g.declareClasses es = .ok g' := by
  induction es generalizing g with
  | nil => exact ⟨g, rfl⟩
  | cons e' es ih =>
      rw [parentsFirst, Bool.and_eq_true] at hparents
      obtain ⟨hparent, hparents⟩ := hparents
      have hnew : e'.name ∉ g.hierarchy.entries.map (·.name) := by
        rw [List.map_append, List.map_cons] at hnames
        intro hmem
        exact (List.nodup_append.mp hnames).2.2 _ hmem _ List.mem_cons_self rfl
      have hparent : ∀ p, e'.parent = some p → p ∈ g.hierarchy.entries.map (·.name) := by
        intro p hp
        simpa [hp] using hparent
      obtain ⟨parent, hacc⟩ := hwf'.indexed.exists_acceptsClass hnew hparent
      have hcov : h.Covers g.hierarchy :=
        ⟨hwf, hset, hwf', hset', fun e he => hcovers e (List.mem_append_left _ he)⟩
      obtain ⟨e, he, hre⟩ := hcovers e' (by simp)
      obtain ⟨g₁, hmethods⟩ := exists_declareMethods_of_reorders hcov he hre hacc g.warnings
      obtain ⟨hwf₁, hset₁⟩ := settled_of_declareMethods (hwf'.addClass hacc)
        (hset'.addClass hwf' hacc) (by simp) hmethods
      -- the entry has moved from those to come to those that are there
      have hentries := entries_of_newClass hwf' hacc hmethods
      have hsplit : g₁.hierarchy.entries ++ es = g.hierarchy.entries ++ e' :: es := by
        rw [hentries, List.append_assoc]
        rfl
      obtain ⟨g', hok⟩ := ih hwf₁ hset₁ (hsplit ▸ hcovers) (hsplit ▸ hnames) (by
        rwa [hentries, List.map_append])
      refine ⟨g', ?_⟩
      simp only [declareClasses, declareClass_of_acceptsClass hacc, hmethods, hok]

end Grown

/-! ## reordered scenarios -/

/-- Reordered entries have the same names. -/
theorem ClassEntry.names_eq {es es' : List ClassEntry} (hes : List.Forall₂ Reorders es es') :
    es'.map (·.name) = es.map (·.name) := by
  induction hes with
  | nil => rfl
  | cons he _ ih => rw [List.map_cons, List.map_cons, he.name_eq, ih]

namespace Scenario

open Hierarchy

/-- The second scenario makes the calls of the first, on its classes and methods declared
in another order, each class after its parent. -/
structure Reorders (s t : Scenario) : Prop where
  calls_eq : t.calls = s.calls
  classes : ∃ es, es.Perm s.classes ∧ List.Forall₂ ClassEntry.Reorders es t.classes
  parents_first : parentsFirst [] t.classes = true

variable {s t : Scenario} {g g' : Grown}

theorem Reorders.exists_left (hst : s.Reorders t) :
    ∀ e' ∈ t.classes, ∃ e ∈ s.classes, e.Reorders e' := by
  obtain ⟨es, hperm, hes⟩ := hst.classes
  intro e' he'
  obtain ⟨e, he, hre⟩ := forall₂_exists_left hes he'
  exact ⟨e, hperm.mem_iff.mp he, hre⟩

theorem Reorders.exists_right (hst : s.Reorders t) :
    ∀ e ∈ s.classes, ∃ e' ∈ t.classes, e.Reorders e' := by
  obtain ⟨es, hperm, hes⟩ := hst.classes
  intro e he
  exact forall₂_exists_right hes (hperm.mem_iff.mpr he)

theorem Reorders.names_perm (hst : s.Reorders t) :
    (t.classes.map (·.name)).Perm (s.classes.map (·.name)) := by
  obtain ⟨es, hperm, hes⟩ := hst.classes
  rw [ClassEntry.names_eq hes]
  exact hperm.map _

/-- A reordered scenario builds if the scenario does. -/
theorem Reorders.exists_build (hst : s.Reorders t) (hbuild : s.build = .ok g) :
    ∃ g', t.build = .ok g' := by
  have hwf := wellFormed_of_build hbuild
  have hentries := entries_of_build hbuild
  refine Grown.exists_declareClasses hwf (settled_of_build hbuild) wellFormed_empty settled_empty
    ?_ ?_ hst.parents_first
  · rw [hentries]
    exact hst.exists_left
  · have hnodup := hwf.indexed.nodup_names
    rw [hentries] at hnodup
    exact hst.names_perm.nodup_iff.mpr hnodup

/-- What a scenario and a reordered one build cover one another. -/
theorem Reorders.mirrors (hst : s.Reorders t) (hbuild : s.build = .ok g)
    (hbuild' : t.build = .ok g') : g.hierarchy.Mirrors g'.hierarchy := by
  have hentries := entries_of_build hbuild
  have hentries' := entries_of_build hbuild'
  refine ⟨⟨wellFormed_of_build hbuild, settled_of_build hbuild, wellFormed_of_build hbuild',
    settled_of_build hbuild', ?_⟩, ?_⟩
  · rw [hentries, hentries']
    exact hst.exists_left
  · rw [hentries, hentries']
    exact hst.exists_right

/-- **The order of declarations cannot be observed**: a scenario that builds also builds
with its classes and methods in another order, as long as every class comes after its
parent, and then every run of it gives the same results, or fails at the same call for
the same cause. -/
theorem run_eq_of_reorders (hst : s.Reorders t) (hbuild : s.build = .ok g) :
    (∃ g', t.build = .ok g') ∧ ∀ config, t.run config = s.run config := by
  obtain ⟨g', hbuild'⟩ := hst.exists_build hbuild
  have hmir := hst.mirrors hbuild hbuild'
  refine ⟨⟨g', hbuild'⟩, fun config => ?_⟩
  have hsites := hmir.callSites 0 s.calls
  simp only [run, hierarchy, hbuild, hbuild', hst.calls_eq]
  generalize callSites g.hierarchy 0 s.calls = x, callSites g'.hierarchy 0 s.calls = x' at hsites ⊢
  cases hsites with
  | error he => rw [he]
  | ok hs => simp only [hmir.runEntries config s.calls hs]

/-- Two classes below one with two overloads of `f`; one of them overrides `f(int)` and
calls it from `g()`. -/
def twoBranches : Scenario where
  classes :=
    [ { name := "A"
        methods :=
          [ { name := "f", signature := ⟨[.int]⟩, kind := .virtual },
            { name := "f", signature := ⟨[.long]⟩, kind := .plain } ] },
      { name := "B", parent := some "A" },
      { name := "C", parent := some "A"
        methods :=
          [ { name := "g", signature := ⟨[]⟩, kind := .plain, body := [⟨"f", [.int]⟩] },
            { name := "f", signature := ⟨[.int]⟩, kind := .override } ] } ]
  calls :=
    [ { static := "A", runtime := some "B", method := "f", args := [.int],
        expect := some "A.f(int)" },
      { static := "C", method := "g", trace := true } ]

/-- The same with the branches and the methods of both other classes exchanged. -/
def twoBranchesExchanged : Scenario where
  classes :=
    [ { name := "A"
        methods :=
          [ { name := "f", signature := ⟨[.long]⟩, kind := .plain },
            { name := "f", signature := ⟨[.int]⟩, kind := .virtual } ] },
      { name := "C", parent := some "A"
        methods :=
          [ { name := "f", signature := ⟨[.int]⟩, kind := .override },
            { name := "g", signature := ⟨[]⟩, kind := .plain, body := [⟨"f", [.int]⟩] } ] },
      { name := "B", parent := some "A" } ]
  calls := twoBranches.calls

theorem reorders_twoBranches : twoBranches.Reorders twoBranchesExchanged where
  calls_eq := rfl
  classes := ⟨_, .cons _ (.swap _ _ _),
    .cons ⟨rfl, rfl, .swap _ _ _⟩ (.cons ⟨rfl, rfl, .swap _ _ _⟩ (.cons ⟨rfl, rfl, .nil⟩ .nil))⟩
  parents_first := by decide

/-- What both come to: a `B` runs the inherited `f(int)`, and a `C` its own out of `g()`. -/
def twoBranchesRun : Run where
  entries :=
    [ { report := ⟨"((A) B).f(int)", .resolved "A" "f" ⟨[.int]⟩ true⟩
        expected := some "A.f(int)"
        trace := [] },
      { report := ⟨"C.g()", .resolved "C" "g" ⟨[]⟩ false⟩
        expected := none
        trace := ["C.g()", "  C.f(int)"] } ]

/-- Exchanging the branches and the methods in them changes no result. -/
theorem run_eq_of_reorders_twoBranches :
    twoBranches.Reorders twoBranchesExchanged ∧
      ∃ g, twoBranches.build = .ok g ∧ (∃ g', twoBranchesExchanged.build = .ok g') ∧
        twoBranchesExchanged.run {} = twoBranches.run {} ∧ twoBranches.run {} = .ok twoBranchesRun :=
  have hbuild : twoBranches.build = .ok _ := rfl
  have hrun := run_eq_of_reorders reorders_twoBranches hbuild
  ⟨reorders_twoBranches, _, hbuild, hrun.1, hrun.2 {}, by decide +kernel⟩

end Scenario

end LateBinding
