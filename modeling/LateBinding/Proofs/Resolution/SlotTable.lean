import LateBinding.Proofs.Resolution.Redirection

/-!
# LateBinding.Proofs.Resolution.SlotTable

The slot table of a class, filled from the root down so that the last method to
take a slot stays in it, holds the same methods that dispatch finds by walking up
from the class.
-/

namespace LateBinding.Hierarchy

variable {h : Hierarchy} {c : ClassId} {s : SlotId}

/-! ## filling a table -/

/-- Of the methods that enter a table, the last of a slot stays in it. -/
theorem get?_foldl_enterSlot (ms : List Method) (t : Table SlotId Method) (s : SlotId) :
    (ms.foldl enterSlot t).get? s = (ms.reverse.find? (·.slot = some s)).or (t.get? s) := by
  induction ms generalizing t with
  | nil => simp
  | cons m ms ih =>
      have hm : (enterSlot t m).get? s = if m.slot = some s then some m else t.get? s := by
        cases hs : m.slot with
        | none => simp [enterSlot, hs]
        | some s' => simp [enterSlot, hs, Table.get?_insert, eq_comm]
      rw [List.foldl_cons, ih, hm, List.reverse_cons, List.find?_append, Option.or_assoc]
      by_cases hs : m.slot = some s <;> simp [hs]

/-- Methods that enter a table keep its keys distinct. -/
theorem nodup_keys_foldl_enterSlot (ms : List Method) (t : Table SlotId Method)
    (ht : t.keys.Nodup) : (ms.foldl enterSlot t).keys.Nodup := by
  induction ms generalizing t with
  | nil => exact ht
  | cons m ms ih =>
      refine ih (enterSlot t m) ?_
      cases hs : m.slot with
      | none => simpa [enterSlot, hs] using ht
      | some s => simpa [enterSlot, hs] using Table.nodup_keys_insert s m ht

theorem nodup_keys_slotTable (h : Hierarchy) (c : ClassId) : (h.slotTable c).keys.Nodup :=
  nodup_keys_foldl_enterSlot _ _ List.nodup_nil

/-! ## the table and the walk -/

/-- What a class declares for a slot is the last of its methods with that slot. -/
theorem Slotted.find?_reverse_members (hsl : h.Slotted) (c : ClassId) (s : SlotId) :
    (h.members c).reverse.find? (·.slot = some s) = h.implementation? c s := by
  cases hfind : (h.members c).reverse.find? (·.slot = some s) with
  | none =>
      rw [eq_comm, Option.eq_none_iff_forall_not_mem]
      intro m hm
      obtain ⟨hmem, hs⟩ := hsl.implementation?_iff.mp hm
      simpa [hs] using List.find?_eq_none.mp hfind m (List.mem_reverse.mpr hmem)
  | some m =>
      have hmem := List.mem_reverse.mp (List.mem_of_find?_eq_some hfind)
      have hs := List.find?_some hfind
      exact (hsl.implementation?_iff.mpr ⟨hmem, by simpa using hs⟩).symm

/-- Reading a slot in the table of a class is walking up from the class. -/
theorem Slotted.get?_slotTable (hsl : h.Slotted) (c : ClassId) (s : SlotId) :
    (h.slotTable c).get? s = h.mostDerived? c s := by
  rw [slotTable, get?_foldl_enterSlot, Table.get?_empty, Option.or_none, List.reverse_flatMap,
    List.reverse_reverse, List.find?_flatMap, mostDerived?]
  congr 1
  funext a
  exact hsl.find?_reverse_members a s

/-- **The slot table agrees with dispatch**: a class has an entry for a slot exactly if
dispatch finds an implementation from it, and then both are one method; so a call bound
through a slot runs the method that the table of the runtime type holds for it. -/
theorem slotTable_agrees (hr : h.Reachable) :
    (∀ c s, (h.slotTable c).get? s = h.mostDerived? c s ∧
      ∀ t, (s, t) ∈ (h.slotTable c).entries ↔ h.mostDerived? c s = some t) ∧
    ∀ rule static runtime name args site r s,
      CallSite.make h static runtime name args = .ok site → h.resolve rule site = .ok r →
      r.binding = .dynamic s → (h.slotTable runtime).get? s = some r.method := by
  have hwf := hr.wellFormed
  refine ⟨?_, ?_⟩
  · intro c s
    have hget := hwf.slotted.get?_slotTable c s
    refine ⟨hget, fun t => ?_⟩
    rw [Table.mem_entries_iff (nodup_keys_slotTable h c), hget]
  · intro rule static runtime name args site r s hsite hres hbinding
    obtain ⟨m, rfl, hnear, -, hmem⟩ := hwf.of_resolve (CallSite.of_make hsite).2 hres
    have hruntime : site.runtime = runtime := by rw [(CallSite.of_make hsite).1]
    cases hkind : m.kind.isDynamic with
    | false => simp [redirect_of_static hkind] at hbinding
    | true =>
        obtain ⟨s', t, -, ht, -, heq⟩ := hwf.redirect_eq hnear.declared hkind hmem
        rw [heq] at hbinding ⊢
        obtain rfl : s' = s := by simpa using hbinding
        rw [hwf.slotted.get?_slotTable, ← hruntime, ht]

/-- The table of the lowest of three classes holds its override, and so a call that is
bound through the slot runs the override. -/
theorem slotTable_agrees_threeGenerations :
    (threeGenerations.slotTable ⟨2⟩).get? ⟨0⟩ = threeGenerations.mostDerived? ⟨2⟩ ⟨0⟩ ∧
      ∃ site r, CallSite.make threeGenerations ⟨0⟩ ⟨2⟩ "f" [.int] = .ok site ∧
        threeGenerations.resolve .atOverride site = .ok r ∧ r.binding = .dynamic ⟨0⟩ ∧
        (threeGenerations.slotTable ⟨2⟩).get? ⟨0⟩ = some r.method :=
  have ⟨hsite, hres⟩ := resolve_threeGenerations
  have hagrees := slotTable_agrees reachable_threeGenerations
  ⟨(hagrees.1 ⟨2⟩ ⟨0⟩).1, _, _, hsite, hres, rfl, hagrees.2 _ _ _ _ _ _ _ _ hsite hres rfl⟩

end LateBinding.Hierarchy
