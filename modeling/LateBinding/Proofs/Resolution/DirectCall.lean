import LateBinding.Proofs.Hierarchy.Slots
import LateBinding.Proofs.Resolution.Redirection

/-!
# LateBinding.Proofs.Resolution.DirectCall

A call on a receiver whose static and runtime types agree is decided by static lookup alone.

Redirection walks up from the runtime type and stops at the first method of the slot.  All methods
of a slot have one name.  So a class below that of the selected method that had one of them would
have been the first to declare the name, and static lookup would have stopped there: the selected
method is itself the first of its slot.  This needs the rule under which overrides are candidates
in their own class.
-/

namespace LateBinding

/-- What a call resolves to if the selected method runs as it is. -/
def Resolution.ofSelected (m : Method) : Resolution :=
  ⟨m, m.owner, m, match m.slot with
    | some s => .dynamic s
    | none => .static⟩

namespace Hierarchy

variable {h : Hierarchy} {c : ClassId} {k : ClassInfo} {m : Method} {s : SlotId} {name : String}

/-- The nearest candidate of a name, seen from a class, is the most derived implementation of its
slot there. -/
theorem WellFormed.mostDerived?_of_nearest (hwf : h.WellFormed)
    (hnear : h.NearestCandidate .atOverride c name m) (hs : m.slot = some s) :
    h.mostDerived? c s = some m := by
  obtain ⟨t, ht, habove⟩ := hwf.exists_mostDerived? hnear.declared hs hnear.owner_mem
  obtain ⟨htmem, hts, -⟩ := hwf.of_mostDerived? ht
  have hmall := (hwf.indexed.mem_members_iff.mp hnear.declared).1
  have htall := (hwf.indexed.mem_members_iff.mp htmem).1
  obtain ⟨hname, -⟩ := hwf.slotted.same_signature htall hmall hts hs
  obtain ⟨below, above, hsplit, hnone⟩ := hnear.nearest
  have htowner : t.owner ∉ below := by
    intro hbelow
    -- `t` has the called name, so lookup would have stopped at its class
    have hrejected := hnone t.owner hbelow t htmem (hname.trans hnear.name_eq)
    contradiction
  have hmem := hwf.owner_mem_of_mostDerived? ht
  have hup : t.owner ∈ h.ancestors m.owner := by
    rw [hwf.acyclic.ancestors_eq_of_split hsplit]
    rw [hsplit, List.mem_append] at hmem
    exact hmem.resolve_left htowner
  have howner := hwf.acyclic.eq_of_mem_ancestors hup habove
  rw [ht, hwf.eq_of_same_slot htall hmall hts hs howner]

/-- Seen from a class, redirection through this class leaves the nearest candidate of a name as it
is. -/
theorem WellFormed.redirect_of_nearest (hwf : h.WellFormed)
    (hnear : h.NearestCandidate .atOverride c name m) :
    h.redirect m c = .ofSelected m := by
  cases hs : m.slot with
  | none => simp only [redirect, Resolution.ofSelected, hs]
  | some s =>
      have hkind := hwf.slotted.isSome_slot (hwf.indexed.mem_members_iff.mp hnear.declared).1
      rw [hs, Option.isSome_some] at hkind
      rw [redirect_of_dynamic hkind.symm hs, hwf.mostDerived?_of_nearest hnear hs, Option.getD_some]
      simp only [Resolution.ofSelected, hs]

/-- **On a receiver of its static type, a call runs the method that static lookup selects**, in any
hierarchy that declarations make, and it fails with the same error if that fails. -/
theorem direct_call_runs_selected (hr : h.Reachable) (hk : h.class? c = some k) (name : String)
    (args : List Primitive) :
    ∃ site, CallSite.direct h c name args = .ok site ∧
      h.resolve .atOverride site =
        (h.lookupStatic .atOverride c name args).map Resolution.ofSelected := by
  refine ⟨_, CallSite.make_of_mem (mem_ancestors_self hk), ?_⟩
  cases hl : h.lookupStatic .atOverride c name args with
  | error e => simp only [resolve, hl, Except.map]
  | ok m =>
      have hnear := (hr.wellFormed.indexed.of_lookupStatic hl).1
      simp only [resolve, hl, Except.map, hr.wellFormed.redirect_of_nearest hnear]

/-- On an object of the last of three classes, its own override runs.  On an object of the second,
`f(int)` hides the inherited `f(long)`, and a call with a `long` fails. -/
theorem direct_call_runs_selected_threeGenerations :
    (∃ site r, CallSite.direct threeGenerations ⟨2⟩ "f" [.int] = .ok site ∧
      threeGenerations.resolve .atOverride site = .ok r ∧ r.method = r.selected ∧
      r.method.kind = .override ∧ r.binding = .dynamic ⟨0⟩) ∧
    ∃ site e, CallSite.direct threeGenerations ⟨1⟩ "f" [.long] = .ok site ∧
      threeGenerations.lookupStatic .atOverride ⟨1⟩ "f" [.long] = .error e ∧
      threeGenerations.resolve .atOverride site = .error e := by
  have hdirect := fun c k hk => direct_call_runs_selected (c := c) (k := k)
    reachable_threeGenerations hk "f"
  obtain ⟨site, hsite, hres⟩ := hdirect ⟨2⟩ _ rfl [.int]
  obtain ⟨site', hsite', hres'⟩ := hdirect ⟨1⟩ _ rfl [.long]
  exact ⟨⟨site, _, hsite, hres, rfl, rfl, rfl⟩, site', _, hsite', rfl, hres'⟩

end Hierarchy

end LateBinding
