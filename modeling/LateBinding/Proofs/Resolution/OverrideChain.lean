import LateBinding.Proofs.Hierarchy.Slots
import LateBinding.Proofs.Resolution.Redirection
import LateBinding.Proofs.Scenario.Build

/-!
# LateBinding.Proofs.Resolution.OverrideChain

Dynamic dispatch without slots: overriding continues a chain, any other declaration
of the same name and signature breaks it.

From the class of a dynamically dispatched method down to the runtime type, look at
the classes that declare the name and signature again.  As long as these are overrides
they carry the method on; the first that is not one starts something of its own.  In
settled hierarchies, and so in all that scenarios build, the method that runs is the
last of the leading overrides.
-/

namespace LateBinding.Hierarchy

variable {h : Hierarchy} {c d p r : ClassId} {k : ClassInfo} {m : Method} {s : SlotId}
  {name : String} {sig : Signature}

/-! ## the chain of overrides -/

/-- The methods of one name and signature that the classes below `d`, down to `r`,
declare, the topmost first. -/
def declarationsBelow (h : Hierarchy) (d r : ClassId) (name : String) (sig : Signature) :
    List Method :=
  ((h.ancestors r).takeWhile (· ≠ d)).reverse.filterMap fun c => h.declared? c name sig

/-- The last of the overrides with which the declarations below a method start; the
method itself if they start with none. -/
def lastOverride (h : Hierarchy) (m : Method) (r : ClassId) : Method :=
  ((h.declarationsBelow m.owner r m.name m.signature).takeWhile (·.kind = .override)).getLast?.getD m

theorem declarationsBelow_self (h : Hierarchy) (d : ClassId) (name : String) (sig : Signature) :
    h.declarationsBelow d d name sig = [] := by
  cases hk : h.class? d with
  | none => simp [declarationsBelow, ancestors_of_unknown hk]
  | some k => simp [declarationsBelow, ancestors, walkUp, hk]

/-- A child adds its own declaration at the end. -/
theorem Acyclic.declarationsBelow_of_child (hac : h.Acyclic) (hk : h.class? c = some k)
    (hp : k.parent = some p) (hd : d ∈ h.ancestors p) :
    h.declarationsBelow d c name sig =
      h.declarationsBelow d p name sig ++ (h.declared? c name sig).toList := by
  have hne : c ≠ d := by
    rintro rfl
    exact hac.not_mem_ancestors_parent hk hp hd
  rw [declarationsBelow, hac.ancestors_of_child hk hp, List.takeWhile_cons_of_pos (by simpa using hne),
    List.reverse_cons, List.filterMap_append, declarationsBelow]
  congr 1

/-- After a chain of overrides only, the next override is the last. -/
theorem getLast?_takeWhile_concat {ms : List Method} {m' : Method}
    (hall : ∀ x ∈ ms, x.kind = .override) (hkind : m'.kind = .override) :
    ((ms ++ [m']).takeWhile (·.kind = .override)).getLast? = some m' := by
  rw [List.takeWhile_append_of_pos (by simpa using hall)]
  simp [hkind]

/-- What follows a declaration that is no override, or is none itself, adds nothing. -/
theorem takeWhile_concat_of_break {ms : List Method} {m' : Method}
    (hbreak : m'.kind ≠ .override ∨ ∃ x ∈ ms, x.kind ≠ .override) :
    (ms ++ [m']).takeWhile (·.kind = .override) = ms.takeWhile (·.kind = .override) := by
  induction ms with
  | nil =>
      rcases hbreak with hm' | ⟨x, hx, -⟩
      · simp [hm']
      · simp at hx
  | cons x ms ih =>
      by_cases hx : x.kind = .override
      · rw [List.cons_append, List.takeWhile_cons_of_pos (by simpa using hx),
          List.takeWhile_cons_of_pos (by simpa using hx)]
        congr 1
        refine ih ?_
        rcases hbreak with hm' | ⟨y, hy, hyk⟩
        · exact Or.inl hm'
        · rcases List.mem_cons.mp hy with rfl | hy
          · exact absurd hx hyk
          · exact Or.inr ⟨y, hy, hyk⟩
      · rw [List.cons_append, List.takeWhile_cons_of_neg (by simpa using hx),
          List.takeWhile_cons_of_neg (by simpa using hx)]

/-- A class without a declaration of the name and signature has no part in the chain. -/
theorem Acyclic.lastOverride_of_none (hac : h.Acyclic) (hk : h.class? c = some k)
    (hp : k.parent = some p) (hbelow : m.owner ∈ h.ancestors p)
    (hnone : h.declared? c m.name m.signature = none) :
    h.lastOverride m c = h.lastOverride m p := by
  rw [lastOverride, hac.declarationsBelow_of_child hk hp hbelow, hnone, Option.toList_none,
    List.append_nil, lastOverride]

/-- An override at the end of an unbroken chain is its last. -/
theorem Acyclic.lastOverride_of_override (hac : h.Acyclic) (hk : h.class? c = some k)
    (hp : k.parent = some p) (hbelow : m.owner ∈ h.ancestors p) {m' : Method}
    (hm' : h.declared? c m.name m.signature = some m') (hkind : m'.kind = .override)
    (hall : ∀ x ∈ h.declarationsBelow m.owner p m.name m.signature, x.kind = .override) :
    h.lastOverride m c = m' := by
  rw [lastOverride, hac.declarationsBelow_of_child hk hp hbelow, hm', Option.toList_some,
    getLast?_takeWhile_concat hall hkind, Option.getD_some]

/-- A declaration that breaks the chain, or comes after it is broken, leaves its last
override. -/
theorem Acyclic.lastOverride_of_break (hac : h.Acyclic) (hk : h.class? c = some k)
    (hp : k.parent = some p) (hbelow : m.owner ∈ h.ancestors p) {m' : Method}
    (hm' : h.declared? c m.name m.signature = some m')
    (hbreak : m'.kind ≠ .override ∨
      ∃ x ∈ h.declarationsBelow m.owner p m.name m.signature, x.kind ≠ .override) :
    h.lastOverride m c = h.lastOverride m p := by
  rw [lastOverride, hac.declarationsBelow_of_child hk hp hbelow, hm', Option.toList_some,
    takeWhile_concat_of_break hbreak, lastOverride]

/-! ## the chain and the slot -/

/-- A declaration of the name and signature of `m` in a class below it has the slot of
`m` exactly if it is an override and the nearest declaration above has that slot. -/
theorem Settled.slot_eq_iff (hset : h.Settled) (hwf : h.WellFormed) (hm : m ∈ h.methods)
    (hs : m.slot = some s) (hk : h.class? c = some k) (hp : k.parent = some p)
    (hbelow : m.owner ∈ h.ancestors p) {m' : Method}
    (hm' : h.declared? c m.name m.signature = some m') :
    m'.slot = some s ↔ m'.kind = .override ∧ h.visibleSlot? p m.name m.signature = some s := by
  obtain ⟨hmem, hname, hsig⟩ := hwf.indexed.declared?_eq_some_iff.mp hm'
  obtain ⟨hall, howner⟩ := hwf.indexed.mem_members_iff.mp hmem
  cases hkind : m'.kind with
  | override =>
      obtain ⟨k', p', hk', hp', hvis⟩ := hset hall hkind
      obtain rfl : k' = k := Option.some.inj (hk'.symm.trans (howner ▸ hk))
      obtain rfl : p' = p := Option.some.inj (hp'.symm.trans hp)
      rw [← hvis, hname, hsig]
      simp
  | virtual =>
      have hnot : m'.owner ∉ h.ancestors m.owner := by
        rw [howner]
        intro habove
        exact hwf.acyclic.not_mem_ancestors_parent hk hp
          (hwf.acyclic.mem_ancestors_trans habove hbelow)
      simp [hwf.slot_ne_of_virtual_below hm hs hall hkind hnot]
  | hide | plain =>
      have hnone := hwf.slotted.isSome_slot hall
      rw [hkind, show MethodKind.isDynamic _ = false from rfl, Option.isSome_eq_false_iff,
        Option.isNone_iff_eq_none] at hnone
      simp [hnone]

/-- A class below a dynamically dispatched method implements its slot exactly by a
declaration of its name and signature that has the slot. -/
theorem WellFormed.implementation?_below (hwf : h.WellFormed) (hm : m ∈ h.methods)
    (hs : m.slot = some s) :
    h.implementation? c s = (h.declared? c m.name m.signature).filter (·.slot = some s) := by
  ext m'
  rw [hwf.slotted.implementation?_iff, Option.filter_eq_some_iff, hwf.indexed.declared?_eq_some_iff,
    decide_eq_true_eq]
  constructor
  · rintro ⟨hm', hs'⟩
    obtain ⟨hname, hsig⟩ :=
      hwf.slotted.same_signature (hwf.indexed.mem_members_iff.mp hm').1 hm hs' hs
    exact ⟨⟨hm', hname, hsig⟩, hs'⟩
  · rintro ⟨⟨hm', -, -⟩, hs'⟩
    exact ⟨hm', hs'⟩

/-- Where the slot of a method has got to at a class below it: the most derived
implementation is the last override of the chain, and the name and signature of the
method still stand for its slot if nothing broke the chain. -/
structure CarriesSlot (h : Hierarchy) (m : Method) (s : SlotId) (r : ClassId) : Prop where
  runs : h.mostDerived? r s = some (h.lastOverride m r)
  visible_iff : h.visibleSlot? r m.name m.signature = some s ↔
    ∀ x ∈ h.declarationsBelow m.owner r m.name m.signature, x.kind = .override

theorem WellFormed.carriesSlot_owner (hwf : h.WellFormed) (hm : m ∈ h.members m.owner)
    (hs : m.slot = some s) : h.CarriesSlot m s m.owner := by
  obtain ⟨k, hk⟩ := hwf.indexed.owner_known (hwf.indexed.mem_members_iff.mp hm).1
  have himpl := hwf.slotted.implementation?_iff.mpr ⟨hm, hs⟩
  have hdecl := hwf.indexed.declared?_eq_some_iff.mpr ⟨hm, rfl, rfl⟩
  constructor
  · rw [lastOverride, declarationsBelow_self, mostDerived?, ancestors_eq_cons hk,
      List.findSome?_cons, himpl]
    rfl
  · rw [declarationsBelow_self, visibleSlot?, nearest?_of_declared? hk hdecl]
    simp [hs]

/-- One class further down, the chain goes on, breaks or stays as it was. -/
theorem Settled.carriesSlot_child (hset : h.Settled) (hwf : h.WellFormed) (hm : m ∈ h.methods)
    (hs : m.slot = some s) (hk : h.class? c = some k) (hp : k.parent = some p)
    (hbelow : m.owner ∈ h.ancestors p) (ih : h.CarriesSlot m s p) : h.CarriesSlot m s c := by
  have hac := hwf.acyclic
  have hchain : h.declarationsBelow m.owner c m.name m.signature =
      h.declarationsBelow m.owner p m.name m.signature ++
        (h.declared? c m.name m.signature).toList := hac.declarationsBelow_of_child hk hp hbelow
  have hrun : h.mostDerived? c s = ((h.declared? c m.name m.signature).filter
      (·.slot = some s)).or (some (h.lastOverride m p)) := by
    rw [hac.mostDerived?_of_child hk hp, hwf.implementation?_below hm hs, ih.runs]
  have hvisible : h.visibleSlot? c m.name m.signature =
      ((h.declared? c m.name m.signature).or (h.nearest? p m.name m.signature)).bind (·.slot) := by
    rw [visibleSlot?, hac.nearest?_of_child hk hp]
  cases hc : h.declared? c m.name m.signature with
  | none =>
      rw [hc, Option.toList_none, List.append_nil] at hchain
      rw [hc, Option.none_or] at hvisible
      constructor
      · rw [hrun, hc, hac.lastOverride_of_none hk hp hbelow hc, Option.filter_none, Option.none_or]
      · rw [hchain, hvisible]
        exact ih.visible_iff
  | some m' =>
      have hslot := hset.slot_eq_iff hwf hm hs hk hp hbelow hc
      rw [ih.visible_iff] at hslot
      rw [hc, Option.toList_some] at hchain
      rw [hc, Option.some_or, Option.bind_some] at hvisible
      constructor
      · rw [hrun, hc, Option.filter_some]
        by_cases hgoes : m'.slot = some s
        · obtain ⟨hkind, hall⟩ := hslot.mp hgoes
          rw [hac.lastOverride_of_override hk hp hbelow hc hkind hall,
            if_pos (by simpa using hgoes), Option.some_or]
        · have hbreak : m'.kind ≠ .override ∨
              ∃ x ∈ h.declarationsBelow m.owner p m.name m.signature, x.kind ≠ .override := by
            by_cases hkind : m'.kind = .override
            · simpa [hslot, hkind] using hgoes
            · exact Or.inl hkind
          rw [hac.lastOverride_of_break hk hp hbelow hc hbreak, if_neg (by simpa using hgoes),
            Option.none_or]
      · rw [hvisible, hslot, hchain]
        simp only [List.mem_append, List.mem_singleton]
        constructor
        · rintro ⟨hkind, hall⟩ x (hx | rfl)
          · exact hall x hx
          · exact hkind
        · intro hall
          exact ⟨hall m' (Or.inr rfl), fun x hx => hall x (Or.inl hx)⟩

/-- **The chain carries the slot** of a dynamically dispatched method down to every class
below it. -/
theorem Settled.carriesSlot (hset : h.Settled) (hwf : h.WellFormed)
    (hm : m ∈ h.members m.owner) (hs : m.slot = some s) (hr : m.owner ∈ h.ancestors r) :
    h.CarriesSlot m s r := by
  have hall := (hwf.indexed.mem_members_iff.mp hm).1
  refine hwf.acyclic.induction_below (P := fun r => h.CarriesSlot m s r)
    (hwf.carriesSlot_owner hm hs) ?_ hr
  intro c k p hk hp hbelow ih
  exact hset.carriesSlot_child hwf hall hs hk hp hbelow ih

/-! ## dynamic dispatch -/

/-- A dynamically dispatched method of the lineage is redirected to the last override of
its chain. -/
theorem Settled.redirect_eq (hset : h.Settled) (hwf : h.WellFormed) (hm : m ∈ h.members m.owner)
    (hkind : m.kind.isDynamic = true) (hr : m.owner ∈ h.ancestors r) :
    ∃ s, h.redirect m r = ⟨h.lastOverride m r, (h.lastOverride m r).owner, m, .dynamic s⟩ := by
  obtain ⟨s, t, hs, ht, -, heq⟩ := hwf.redirect_eq hm hkind hr
  obtain rfl : t = h.lastOverride m r :=
    Option.some.inj (ht.symm.trans (hset.carriesSlot hwf hm hs hr).runs)
  exact ⟨s, heq⟩

/-- **Overriding continues the chain, any other declaration breaks it**: in a hierarchy
that a scenario builds, a call that selects a virtual or overriding method runs the last
of the leading overrides below it, or the selected method if there is none. -/
theorem method_eq_lastOverride {scenario : Scenario} {g : Grown} (hbuild : scenario.build = .ok g)
    {rule : LookupRule} {static runtime : ClassId} {args : List Primitive} {site : CallSite}
    {res : Resolution} (hsite : CallSite.make g.hierarchy static runtime name args = .ok site)
    (hres : g.hierarchy.resolve rule site = .ok res)
    (hkind : res.selected.kind = .virtual ∨ res.selected.kind = .override) :
    res.method = g.hierarchy.lastOverride res.selected runtime := by
  have hwf := Scenario.wellFormed_of_build hbuild
  have hset := Scenario.settled_of_build hbuild
  obtain ⟨m, rfl, hnear, -, hmem⟩ := hwf.of_resolve (CallSite.of_make hsite).2 hres
  rw [selected_redirect] at hkind ⊢
  have hdyn : m.kind.isDynamic = true := by
    rcases hkind with hkind | hkind <;> rw [hkind] <;> rfl
  obtain ⟨s, heq⟩ := hset.redirect_eq hwf hnear.declared hdyn hmem
  rw [heq, (CallSite.of_make hsite).1]

/-- Four classes in a line: `f()` is virtual in the first, overridden in the second,
hidden in the third and virtual again in the last. -/
def hiddenOverride : Scenario where
  classes :=
    [ { name := "A", methods := [{ name := "f", signature := ⟨[]⟩, kind := .virtual }] },
      { name := "B", parent := some "A",
        methods := [{ name := "f", signature := ⟨[]⟩, kind := .override }] },
      { name := "C", parent := some "B",
        methods := [{ name := "f", signature := ⟨[]⟩, kind := .hide }] },
      { name := "D", parent := some "C",
        methods := [{ name := "f", signature := ⟨[]⟩, kind := .virtual }] } ]

/-- Called as an `A`, an object of `D` runs the override of `f()` in `B`. -/
theorem method_eq_lastOverride_hiddenOverride :
    ∃ g site res, hiddenOverride.build = .ok g ∧
      CallSite.make g.hierarchy ⟨0⟩ ⟨3⟩ "f" [] = .ok site ∧
      g.hierarchy.resolve .atOverride site = .ok res ∧ res.selected.kind = .virtual ∧
      res.method = g.hierarchy.lastOverride res.selected ⟨3⟩ ∧ res.method.owner = ⟨1⟩ :=
  have hbuild : hiddenOverride.build = .ok _ := rfl
  have hsite : CallSite.make _ ⟨0⟩ ⟨3⟩ "f" [] = .ok _ := rfl
  have hres : Hierarchy.resolve _ .atOverride _ = .ok _ := rfl
  ⟨_, _, _, hbuild, hsite, hres, rfl, method_eq_lastOverride hbuild hsite hres (.inl rfl), rfl⟩

end LateBinding.Hierarchy
