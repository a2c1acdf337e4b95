import LateBinding.Proofs.Resolution.Redirection

/-!
# LateBinding.Proofs.Resolution.Composition

Redirection in stages: going to a class and then on to one of its descendants ends at the same
method as going to the descendant at once.

Nothing here asks where the method is declared.  If its slot has no implementation at or above the
first class, redirection stays at the method, and the second stage starts from there.  Otherwise
the first stage ends at a method of the same slot; that method is at or above the descendant, so
the slot has an implementation there, and both ways find it.
-/

namespace LateBinding.Hierarchy

variable {h : Hierarchy} {r r' : ClassId} {m x : Method}

/-! ## where redirection ends -/

/-- A method runs in place of another one on objects of a class: it has the name, the signature and
the slot of the other, and unless it is the other one, it is declared at or above the class. -/
structure RunsInPlaceOf (h : Hierarchy) (m : Method) (r : ClassId) (x : Method) : Prop where
  known : x ∈ h.methods
  name_eq : x.name = m.name
  signature_eq : x.signature = m.signature
  slot_eq : x.slot = m.slot
  above : x = m ∨ h.isSameOrDescendant r x.owner = true

/-- Redirection stays at the method, or ends at the most derived implementation of its slot. -/
theorem method_redirect_cases (h : Hierarchy) (m : Method) (r : ClassId) :
    (h.redirect m r).method = m ∨
      ∃ s, m.slot = some s ∧ h.mostDerived? r s = some (h.redirect m r).method := by
  cases hbinding : (h.redirect m r).binding with
  | static => exact .inl (method_of_static_binding hbinding)
  | dynamic s =>
      have hs := slot_of_dynamic_binding hbinding
      cases hkind : m.kind.isDynamic with
      | false => exact .inl (by rw [redirect_of_static hkind])
      | true =>
          rw [redirect_of_dynamic hkind hs]
          cases ht : h.mostDerived? r s with
          | none => exact .inl rfl
          | some t => exact .inr ⟨s, hs, ht⟩

/-- The most derived implementation of a slot runs in place of every method of the slot. -/
theorem WellFormed.runsInPlaceOf_mostDerived? (hwf : h.WellFormed) (hm : m ∈ h.methods)
    {s : SlotId} (hs : m.slot = some s) (hx : h.mostDerived? r s = some x) :
    h.RunsInPlaceOf m r x := by
  obtain ⟨hmem, hxs, -⟩ := hwf.of_mostDerived? hx
  have hknown := (hwf.indexed.mem_members_iff.mp hmem).1
  obtain ⟨hname, hsig⟩ := hwf.slotted.same_signature hknown hm hxs hs
  exact ⟨hknown, hname, hsig, hxs.trans hs.symm,
    .inr (isSameOrDescendant_iff.mpr (hwf.owner_mem_of_mostDerived? hx))⟩

/-- What a method is redirected to runs in its place. -/
theorem WellFormed.runsInPlaceOf_redirect (hwf : h.WellFormed) (hm : m ∈ h.methods)
    (r : ClassId) : h.RunsInPlaceOf m r (h.redirect m r).method := by
  rcases h.method_redirect_cases m r with hstays | ⟨s, hs, hmost⟩
  · rw [hstays]
    exact ⟨hm, rfl, rfl, rfl, .inl rfl⟩
  · exact hwf.runsInPlaceOf_mostDerived? hm hs hmost

/-! ## two stages -/

/-- After a first stage, a second one to a descendant ends where a single one does. -/
theorem WellFormed.redirect_redirect (hwf : h.WellFormed) (hm : m ∈ h.methods)
    (hbelow : r ∈ h.ancestors r') :
    (h.redirect (h.redirect m r).method r').method = (h.redirect m r').method ∧
      (h.redirect (h.redirect m r).method r').binding = (h.redirect m r').binding := by
  rcases h.method_redirect_cases m r with hstays | ⟨s, hs, hmost⟩
  · rw [hstays]
    exact ⟨rfl, rfl⟩
  · have hruns := hwf.runsInPlaceOf_redirect hm r
    have habove : (h.redirect m r).method.owner ∈ h.ancestors r' :=
      hwf.acyclic.mem_ancestors_trans (hwf.owner_mem_of_mostDerived? hmost) hbelow
    obtain ⟨hmethod, hbinding⟩ :=
      hwf.redirect_eq_of_same_slot hruns.known hm (hruns.slot_eq.trans hs) hs habove
    exact ⟨hmethod.symm, hbinding.symm⟩

/-- **Redirection composes**, in every hierarchy that declarations make and for every method of it:
to a class and then to one of its descendants is to the descendant at once, with the same binding,
and a second time to the same class changes nothing.  Each time, what the method is redirected to
runs in its place. -/
theorem redirect_composes (hr : h.Reachable) (hm : m ∈ h.methods)
    (hbelow : h.isSameOrDescendant r' r = true) :
    (h.redirect (h.redirect m r).method r').method = (h.redirect m r').method ∧
      (h.redirect (h.redirect m r).method r').binding = (h.redirect m r').binding ∧
      (h.redirect (h.redirect m r).method r).method = (h.redirect m r).method ∧
      h.RunsInPlaceOf m r (h.redirect m r).method := by
  have hwf := hr.wellFormed
  have hmem := isSameOrDescendant_iff.mp hbelow
  obtain ⟨k, hk⟩ := class?_of_mem_ancestors hmem
  obtain ⟨hmethod, hbinding⟩ := hwf.redirect_redirect hm hmem
  exact ⟨hmethod, hbinding, (hwf.redirect_redirect hm (mem_ancestors_self hk)).1,
    hwf.runsInPlaceOf_redirect hm r⟩

/-- Three classes in a line and one beside the last: `f()` is virtual in the second and overridden
in both classes below it. -/
def openedBelow : Hierarchy :=
  empty.afterAll
    [ .newClass "A" none, .newClass "B" (some "A"), .newClass "C" (some "B"),
      .newClass "D" (some "B"),
      .newMethod ⟨1⟩ { name := "f", signature := ⟨[]⟩, kind := .virtual },
      .newMethod ⟨2⟩ { name := "f", signature := ⟨[]⟩, kind := .override },
      .newMethod ⟨3⟩ { name := "f", signature := ⟨[]⟩, kind := .override } ]

/-- The override in the class beside stays as it is in the first class, which knows no `f()`, and is
redirected from there to that of the third class; through the second class, it comes to the same. -/
theorem redirect_composes_openedBelow :
    openedBelow.Reachable ∧ ∃ m ∈ openedBelow.methods, m.owner = ⟨3⟩ ∧
      (openedBelow.redirect m ⟨0⟩).method = m ∧
      (openedBelow.redirect m ⟨1⟩).method.kind = .virtual ∧
      (openedBelow.redirect m ⟨2⟩).method.owner = ⟨2⟩ ∧
      (openedBelow.redirect (openedBelow.redirect m ⟨0⟩).method ⟨2⟩).method =
        (openedBelow.redirect m ⟨2⟩).method ∧
      (openedBelow.redirect (openedBelow.redirect m ⟨1⟩).method ⟨2⟩).method =
        (openedBelow.redirect m ⟨2⟩).method := by
  have hr : openedBelow.Reachable := ⟨_, rfl⟩
  have hm : (⟨{ name := "f", signature := ⟨[]⟩, kind := .override }, ⟨2⟩, ⟨3⟩, some ⟨0⟩,
      none⟩ : Method) ∈ openedBelow.methods := by decide
  have hfirst : openedBelow.isSameOrDescendant ⟨2⟩ ⟨0⟩ = true := by decide
  have hsecond : openedBelow.isSameOrDescendant ⟨2⟩ ⟨1⟩ = true := by decide
  exact ⟨hr, _, hm, rfl, rfl, rfl, rfl, (redirect_composes hr hm hfirst).1,
    (redirect_composes hr hm hsecond).1⟩

end LateBinding.Hierarchy
