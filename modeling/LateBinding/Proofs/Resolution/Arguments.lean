import Mathlib.Data.List.Forall2
import LateBinding.Proofs.Resolution.Selection

/-!
# LateBinding.Proofs.Resolution.Arguments

How the choice among the visible overloads depends on the types of the arguments.

Arguments that convert to others are accepted wherever the others are, so there are only more
candidates to choose from.  A method that was chosen for the wider arguments is still one of them,
and no method that it beats is chosen or listed: what comes instead is more specific, or ties with
it, and could not be called with the wider arguments.

The narrowest candidate of all is one that takes the arguments as they are.  It accepts nothing but
what converts to them, so every other candidate that accepts them is less specific.
-/

namespace LateBinding

namespace Signature

/-- Lists of types convert if all types convert to their partners. -/
theorem convertible_of_forall₂ {as bs : List Primitive}
    (hall : List.Forall₂ (fun a b => a.convertsTo b = true) as bs) : convertible as bs = true := by
  induction hall with
  | nil => rfl
  | cons hpq _ ih => exact convertible_cons_iff.mpr ⟨hpq, ih⟩

end Signature

/-! ## narrower arguments -/

/-- What a call selects for the arguments `narrow`, if it selects `m` for `wide`: the same; or a more
specific method; or it is ambiguous between methods of which `m` beats none.  Other methods than `m`
come in only if they do not accept `wide`. -/
inductive NarrowedChoice (m : Method) (name : String) (wide narrow : List Primitive) :
    Except LookupError Method → Prop
  | same : NarrowedChoice m name wide narrow (.ok m)
  | refined {m' : Method} (more : m'.isMoreSpecific m = true)
      (new : m'.isApplicable wide = false) : NarrowedChoice m name wide narrow (.ok m')
  | tied {ms : List Method} (listed : ∀ x ∈ ms,
      x = m ∨ m.isMoreSpecific x = false ∧ x.isApplicable wide = false) :
      NarrowedChoice m name wide narrow (.error (.ambiguous name narrow ms))

namespace Overload

variable {name : String} {args wide narrow : List Primitive} {candidates : List Method}
  {m x : Method}

/-- The most specific method for some arguments beats every other candidate that accepts them. -/
theorem MostSpecific.not_applicable (hbest : MostSpecific args candidates m) (hx : x ∈ candidates)
    (hne : x ≠ m) (hunbeaten : m.isMoreSpecific x = false) : x.isApplicable args = false := by
  rw [Bool.eq_false_iff]
  intro happ
  rw [hbest.beats x hx happ hne] at hunbeaten
  contradiction

/-- Narrower arguments keep the choice, refine it, or leave it open. -/
theorem select_narrowed (hnodup : candidates.Nodup)
    (hids : ∀ a ∈ candidates, ∀ b ∈ candidates, a.id = b.id → a = b)
    (hconv : Signature.convertible narrow wide = true)
    (hsel : select name wide candidates = .ok m) :
    NarrowedChoice m name wide narrow (select name narrow candidates) := by
  have hbest : MostSpecific wide candidates m :=
    (contenders_eq_singleton_iff hids hnodup).mp (contenders_of_select hsel)
  have happ : m.isApplicable narrow = true :=
    Signature.accepts_of_convertible hconv hbest.applicable
  -- no contender is beaten by `m`, so another one than `m` does not accept the wider arguments
  have hcontender : ∀ x ∈ contenders narrow candidates,
      x = m ∨ m.isMoreSpecific x = false ∧ x.isApplicable wide = false := by
    intro x hx
    obtain ⟨⟨hmem, -⟩, hunbeaten⟩ := (mem_contenders_iff hids).mp hx
    have hmx := hunbeaten m hbest.mem happ
    by_cases hne : x = m
    · exact .inl hne
    · exact .inr ⟨hmx, hbest.not_applicable hmem hne hmx⟩
  have hbeaten := mem_contenders_or_beaten hids hbest.mem happ
  rw [select_eq hids]
  rcases hc : contenders narrow candidates with _ | ⟨m', _ | ⟨m'', rest⟩⟩
  · simp [hc] at hbeaten
  · rw [hc] at hcontender hbeaten
    rcases hcontender m' (List.mem_singleton_self m') with rfl | ⟨-, hnew⟩
    · exact .same
    · have hne : m ≠ m' := by
        rintro rfl
        rw [hbest.applicable] at hnew
        contradiction
      exact .refined (by simpa [hne] using hbeaten) hnew
  · exact .tied (hc ▸ hcontender)

/-! ## arguments of just the right types -/

/-- A candidate that takes the arguments as they are beats every other one that accepts them, if no
other has its signature. -/
theorem mostSpecific_of_exact
    (hsignatures : ∀ a ∈ candidates, ∀ b ∈ candidates, a.signature = b.signature → a = b)
    (hm : m ∈ candidates) (hexact : m.signature.params = args) :
    MostSpecific args candidates m := by
  refine ⟨hm, ?_, fun x hx happ hne => ?_⟩
  · rw [← hexact]
    exact Signature.convertible_self m.signature.params
  · refine Signature.moreSpecific_iff_accepts.mpr ⟨hexact ▸ happ, fun heq => hne ?_⟩
    exact hsignatures x hx m hm heq.symm

end Overload

namespace Hierarchy

variable {h : Hierarchy} {rule : LookupRule} {c a : ClassId} {name : String} {ms : List Method}
  {m : Method}

/-! ## static lookup -/

/-- The members of a visible overload set are told apart by their signatures. -/
theorem Indexed.visible_signatures (hix : h.Indexed)
    (hv : h.visibleOverloads rule c name = some (a, ms)) :
    ∀ m ∈ ms, ∀ m' ∈ ms, m.signature = m'.signature → m = m' := by
  obtain ⟨-, -, -, -, rfl, -⟩ := visibleOverloads_eq_some_iff.mp hv
  intro m hm m' hm' hsig
  obtain ⟨hmem, hname, -⟩ := hix.mem_candidates_iff.mp hm
  obtain ⟨hmem', hname', -⟩ := hix.mem_candidates_iff.mp hm'
  exact hix.distinct hmem hmem' (hname.trans hname'.symm) hsig

/-- **Narrower arguments never select a less specific method**, in any hierarchy that declarations
make and under both lookup rules: the call keeps its choice, or selects a more specific method, or
is ambiguous between methods of which the old choice beats none. -/
theorem narrowed_arguments_refine (hr : h.Reachable) {wide narrow : List Primitive}
    (hnarrow : List.Forall₂ (fun n w => n.convertsTo w = true) narrow wide)
    (hl : h.lookupStatic rule c name wide = .ok m) :
    NarrowedChoice m name wide narrow (h.lookupStatic rule c name narrow) := by
  have hix := hr.wellFormed.indexed
  obtain ⟨a, ms, hv, hsel⟩ := exists_of_lookupStatic hl
  rw [lookupStatic_of_visible hv]
  exact Overload.select_narrowed (hix.nodup_of_visibleOverloads hv).1 (hix.visible_ids hv)
    (Signature.convertible_of_forall₂ hnarrow) hsel

/-- Two `long` arguments select `f(long, long)`.  For `int` and `long` there is a more specific
method, and for two `int` arguments there are two. -/
theorem narrowed_arguments_refine_crossedOverloads :
    ∃ m m' ms, crossedOverloads.lookupStatic .atOverride ⟨0⟩ "f" [.long, .long] = .ok m ∧
      crossedOverloads.lookupStatic .atOverride ⟨0⟩ "f" [.int, .long] = .ok m' ∧
      NarrowedChoice m "f" [.long, .long] [.int, .long] (.ok m') ∧ m' ≠ m ∧
      crossedOverloads.lookupStatic .atOverride ⟨0⟩ "f" [.int, .int] =
        .error (.ambiguous "f" [.int, .int] ms) ∧
      NarrowedChoice m "f" [.long, .long] [.int, .int] (.error (.ambiguous "f" [.int, .int] ms)) ∧
      ms.length = 2 := by
  have hr : crossedOverloads.Reachable := ⟨_, rfl⟩
  have hwide : crossedOverloads.lookupStatic .atOverride ⟨0⟩ "f" [.long, .long] = .ok _ := rfl
  refine ⟨_, _, _, hwide, rfl, ?_, by decide, rfl, ?_, rfl⟩
  · exact narrowed_arguments_refine hr (.cons rfl (.cons rfl .nil)) hwide
  · exact narrowed_arguments_refine hr (.cons rfl (.cons rfl .nil)) hwide

/-- **A method that takes the arguments as they are is always selected**, whatever else is visible,
in any hierarchy that declarations make and under both lookup rules. -/
theorem exact_match_selected (hr : h.Reachable)
    (hv : h.visibleOverloads rule c name = some (a, ms)) (hm : m ∈ ms) {args : List Primitive}
    (hexact : m.signature = ⟨args⟩) : h.lookupStatic rule c name args = .ok m := by
  have hix := hr.wellFormed.indexed
  rw [lookupStatic_of_visible hv]
  refine ((Overload.decides (hix.nodup_of_visibleOverloads hv).1 (hix.visible_ids hv)).ok_iff m).mpr
    (Overload.mostSpecific_of_exact (hix.visible_signatures hv) hm ?_)
  rw [hexact]

/-- Although two `int` arguments are ambiguous here, `long` and `int` select the method for just
these, beside which `f(long, long)` accepts them as well. -/
theorem exact_match_selected_crossedOverloads :
    ∃ a ms m, crossedOverloads.visibleOverloads .atOverride ⟨0⟩ "f" = some (a, ms) ∧ m ∈ ms ∧
      m.signature = ⟨[.long, .int]⟩ ∧
      crossedOverloads.lookupStatic .atOverride ⟨0⟩ "f" [.long, .int] = .ok m ∧
      (∃ x ∈ ms, x ≠ m ∧ x.isApplicable [.long, .int] = true) ∧
      ∃ e, crossedOverloads.lookupStatic .atOverride ⟨0⟩ "f" [.int, .int] = .error e := by
  have hr : crossedOverloads.Reachable := ⟨_, rfl⟩
  obtain ⟨m, hm, hexact⟩ : ∃ m ∈ crossedOverloads.membersNamed ⟨0⟩ "f",
      m.signature = ⟨[.long, .int]⟩ := by decide
  have hv : crossedOverloads.visibleOverloads .atOverride ⟨0⟩ "f" =
      some (⟨0⟩, crossedOverloads.membersNamed ⟨0⟩ "f") := rfl
  refine ⟨_, _, m, hv, hm, hexact, exact_match_selected hr hv hm hexact, ?_, _, rfl⟩
  refine ⟨_, List.mem_cons_of_mem _ List.mem_cons_self, ?_, rfl⟩
  intro heq
  rw [← heq] at hexact
  contradiction

end Hierarchy

end LateBinding
