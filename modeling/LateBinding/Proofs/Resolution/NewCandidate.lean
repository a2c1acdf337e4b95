import LateBinding.Proofs.Resolution.Declaration
import LateBinding.Proofs.Resolution.Selection

/-!
# LateBinding.Proofs.Resolution.NewCandidate

What a new method does to a choice that static lookup has made.

A new method is one more candidate at the end of the visible overload set, or it starts a nearer
set that hides the old one, or it is not seen at all.  One more candidate leaves the contenders
alone, or joins them and drives out those that it beats: a method that lost before had lost to a
contender, and if the new one beats that contender, it beats the method as well.

So the choice stays, or falls on the new method, or there is none any more.
-/

namespace LateBinding

namespace Overload

variable {args : List Primitive} {ms : List Method} {m x : Method}

/-! ## one more candidate -/

section Concat

variable (hids : ∀ a ∈ ms ++ [x], ∀ b ∈ ms ++ [x], a.id = b.id → a = b)

include hids

/-- With one more method in the list, a method is beaten as before or by the new one. -/
theorem isBeaten_concat (hm : m ∈ ms ++ [x]) :
    isBeaten (ms ++ [x]) m = (isBeaten ms m || x.isMoreSpecific m) := by
  have hlast : (x.id != m.id && x.isMoreSpecific m) = x.isMoreSpecific m := by
    by_cases hid : x.id = m.id
    · rw [hids x (by simp) m hm hid, m.isMoreSpecific_self, Bool.and_false]
    · rw [bne_iff_ne.mpr hid, Bool.true_and]
  simp only [isBeaten, List.any_append, List.any_cons, List.any_nil, Bool.or_false, hlast]

/-- With one more method in the list, those that it beats are no longer maximal, and it is
maximal itself if no other beats it. -/
theorem maximal_concat :
    maximal (ms ++ [x]) = (maximal ms).filter (fun m => !x.isMoreSpecific m) ++
      if isBeaten ms x then [] else [x] := by
  have hold : ms.filter (fun m => !isBeaten (ms ++ [x]) m) =
      (maximal ms).filter (fun m => !x.isMoreSpecific m) := by
    rw [maximal, List.filter_filter]
    refine List.filter_congr fun m hm => ?_
    rw [isBeaten_concat hids (List.mem_append_left [x] hm), Bool.not_or, Bool.and_comm]
  have hnew : isBeaten (ms ++ [x]) x = isBeaten ms x := by
    rw [isBeaten_concat hids (by simp), x.isMoreSpecific_self, Bool.or_false]
  rw [maximal, List.filter_append, hold]
  cases hbeaten : isBeaten ms x <;> simp [hnew, hbeaten]

/-- A method that some other beats changes nothing about the maximal ones. -/
theorem maximal_concat_of_beaten (hbeaten : isBeaten ms x = true) :
    maximal (ms ++ [x]) = maximal ms := by
  have hids' := ids_of_subset hids (List.subset_append_left ms [x])
  rw [maximal_concat hids, if_pos hbeaten, List.append_nil, List.filter_eq_self]
  intro m hm
  rw [Bool.not_eq_true', Bool.eq_false_iff]
  intro hxm
  obtain ⟨o, ho, hox⟩ := List.any_eq_true.mp hbeaten
  -- what beats the new one would beat all that the new one beats
  have hom := Method.isMoreSpecific_trans (Bool.and_eq_true_iff.mp hox).2 hxm
  rw [((mem_maximal_iff hids').mp hm).2 o ho] at hom
  contradiction

/-- One more candidate leaves the contenders alone, or it joins them and drives out those that it
beats. -/
theorem contenders_concat :
    contenders args (ms ++ [x]) = contenders args ms ∨
      contenders args (ms ++ [x]) =
        (contenders args ms).filter (fun m => !x.isMoreSpecific m) ++ [x] := by
  unfold contenders
  rw [List.filter_append]
  cases happ : x.isApplicable args with
  | false => exact .inl (by simp [happ])
  | true =>
      have hx : [x].filter (·.isApplicable args) = [x] := by simp [happ]
      have hids' := ids_of_subset hids
        (List.filter_sublist (p := (·.isApplicable args)).append_right [x]).subset
      rw [hx]
      cases hbeaten : isBeaten (ms.filter (·.isApplicable args)) x with
      | true => exact .inl (maximal_concat_of_beaten hids' hbeaten)
      | false => exact .inr (by rw [maximal_concat hids', hbeaten]; rfl)

end Concat

end Overload

/-! ## before and after -/

/-- What a call selects before and after the method `x` is declared: the same; or `x`; or, where
a method was selected before, it ties with `x`; or `x` hides all others and does not accept the
arguments; or a failure stays one, with `x` among its candidates. -/
inductive ChoiceAfter (x : Method) (name : String) (args : List Primitive) :
    Except LookupError Method → Except LookupError Method → Prop
  | same (result : Except LookupError Method) : ChoiceAfter x name args result result
  | taken (before : Except LookupError Method) : ChoiceAfter x name args before (.ok x)
  | tied (m : Method) :
      ChoiceAfter x name args (.ok m) (.error (.ambiguous name args [m, x]))
  | hidden (before : Except LookupError Method) :
      ChoiceAfter x name args before (.error (.noApplicable name args (some x.owner) [x]))
  | failed {before after : LookupError} (listed : x ∈ after.candidates) :
      ChoiceAfter x name args (.error before) (.error after)

/-- A method that is selected after the declaration is the new one or was selected before. -/
theorem ChoiceAfter.of_ok {x m : Method} {name : String} {args : List Primitive}
    {before : Except LookupError Method} (hchoice : ChoiceAfter x name args before (.ok m)) :
    m = x ∨ before = .ok m := by
  cases hchoice with
  | same => exact .inr rfl
  | taken => exact .inl rfl

/-- One more candidate keeps the choice, takes it, or ties with it. -/
theorem Overload.select_concat {name : String} {args : List Primitive} {ms : List Method}
    {x : Method} (hids : ∀ a ∈ ms ++ [x], ∀ b ∈ ms ++ [x], a.id = b.id → a = b) :
    ChoiceAfter x name args (select name args ms) (select name args (ms ++ [x])) := by
  rw [select_eq hids, select_eq (ids_of_subset hids (List.subset_append_left ms [x]))]
  rcases contenders_concat hids with hsame | hjoined
  · rw [hsame]
    rcases contenders args ms with _ | ⟨m, _ | ⟨m', rest⟩⟩
    · exact .failed (by simp [LookupError.candidates])
    · exact .same _
    · exact .same _
  · rw [hjoined]
    rcases contenders args ms with _ | ⟨m, _ | ⟨m', rest⟩⟩
    · exact .taken _
    · cases hbeats : x.isMoreSpecific m with
      | true => simpa [hbeats] using .taken _
      | false => simpa [hbeats] using .tied m
    · -- those that tied before, less the ones that the new method beats
      rcases (m :: m' :: rest).filter (fun m => !x.isMoreSpecific m) with _ | ⟨a, _ | ⟨b, left⟩⟩
      · exact .taken _
      · exact .failed (by simp [LookupError.candidates])
      · exact .failed (by simp [LookupError.candidates])

namespace Hierarchy

variable {h : Hierarchy} {rule : LookupRule} {c : ClassId} {k : ClassInfo} {x : Method}
  {name : String}

/-! ## the visible overload set -/

/-- A new method changes nothing about a visible overload set, or joins it at the end, or is the
only member of a new one. -/
theorem visibleOverloads_addMethod (hk : h.class? x.owner = some k) :
    (h.addMethod x).visibleOverloads rule c name = h.visibleOverloads rule c name ∨
      (∃ ms, h.visibleOverloads rule c name = some (x.owner, ms) ∧
        (h.addMethod x).visibleOverloads rule c name = some (x.owner, ms ++ [x])) ∨
      (h.addMethod x).visibleOverloads rule c name = some (x.owner, [x]) := by
  have hor : (h.addMethod x).visibleOverloads rule c name = h.visibleOverloads rule c name ∨
      (h.addMethod x).visibleOverloads rule c name =
        some (x.owner, h.candidates rule x.owner name ++ [x]) := by
    rw [visibleOverloads, visibleOverloads, ancestors_addMethod]
    refine findSome?_eq_or fun a => ?_
    rw [candidates_addMethod hk]
    split
    · next hplace => exact .inr (by simp [hplace.1])
    · exact .inl rfl
  refine hor.imp_right fun hnew => ?_
  by_cases hnil : h.candidates rule x.owner name = []
  · exact .inr (by rw [hnew, hnil, List.nil_append])
  · -- no class further down has a candidate after the declaration, so none had one before
    obtain ⟨below, above, hsplit, hbelow, -, -⟩ := visibleOverloads_eq_some_iff.mp hnew
    rw [ancestors_addMethod] at hsplit
    refine .inl ⟨_, visibleOverloads_eq_some_iff.mpr ⟨below, above, hsplit, ?_, rfl, hnil⟩, hnew⟩
    intro b hb
    have hempty := hbelow b hb
    rw [candidates_addMethod hk] at hempty
    split at hempty
    · simp at hempty
    · exact hempty

/-! ## static lookup -/

/-- Static lookup finds after a new method what it found before, or the new one, or nothing. -/
theorem AcceptsMethod.choiceAfter (hacc : h.AcceptsMethod k x) (hwf : h.WellFormed)
    (rule : LookupRule) (c : ClassId) (name : String) (args : List Primitive) :
    ChoiceAfter x name args (h.lookupStatic rule c name args)
      ((h.addMethod x).lookupStatic rule c name args) := by
  have hix := (hwf.addMethod hacc).indexed
  rcases visibleOverloads_addMethod hacc.owner with hsame | ⟨ms, hold, hnew⟩ | hnew
  · rw [lookupStatic, lookupStatic, hsame]
    exact .same _
  · rw [lookupStatic_of_visible hold, lookupStatic_of_visible hnew]
    exact Overload.select_concat (hix.visible_ids hnew)
  · have hselected : (h.addMethod x).lookupStatic rule c name args =
        if x.isApplicable args then .ok x else .error (.noApplicable name args (some x.owner) [x]) := by
      rw [lookupStatic_of_visible hnew, Overload.select_singleton]
    rw [hselected]
    split
    · exact .taken _
    · exact .hidden _

/-- **A new method never passes a choice on to a third one**, in any hierarchy that declarations
make and under both lookup rules.  What static lookup selects after the declaration is the new
method or was selected before.  What was selected before stays selected, or gives way to the new
method, or ties with it, or is hidden by it. -/
theorem choice_after_declaration (hr : h.Reachable) {d : MethodDecl} {a : Accepted}
    (hok : h.declareMethod c d = .ok a) (rule : LookupRule) (s : ClassId) (name : String)
    (args : List Primitive) :
    (∀ m', a.hierarchy.lookupStatic rule s name args = .ok m' →
      m' = a.method ∨ h.lookupStatic rule s name args = .ok m') ∧
    ChoiceAfter a.method name args (h.lookupStatic rule s name args)
      (a.hierarchy.lookupStatic rule s name args) := by
  obtain ⟨⟨k, hacc⟩, -, -, heq⟩ := acceptsMethod_of_declareMethod hok
  have hchoice := hacc.choiceAfter hr.wellFormed rule s name args
  rw [heq]
  refine ⟨fun m' hm' => ?_, hchoice⟩
  rw [hm'] at hchoice
  exact hchoice.of_ok

/-- A new `f(short, double)` leaves `f(int, long)` the choice for `int` and `long`, and ties with it
for `short` and `long`. -/
theorem choice_after_declaration_crossedOverloads :
    ∃ a m, crossedOverloads.declareMethod ⟨0⟩
        { name := "f", signature := ⟨[.short, .double]⟩, kind := .plain } = .ok a ∧
      a.hierarchy.lookupStatic .atOverride ⟨0⟩ "f" [.int, .long] = .ok m ∧ m ≠ a.method ∧
      crossedOverloads.lookupStatic .atOverride ⟨0⟩ "f" [.int, .long] = .ok m ∧
      a.hierarchy.lookupStatic .atOverride ⟨0⟩ "f" [.short, .long] =
        .error (.ambiguous "f" [.short, .long] [m, a.method]) ∧
      ChoiceAfter a.method "f" [.short, .long] (.ok m)
        (.error (.ambiguous "f" [.short, .long] [m, a.method])) := by
  have hr : crossedOverloads.Reachable := ⟨_, rfl⟩
  obtain ⟨a, hok⟩ : ∃ a, crossedOverloads.declareMethod ⟨0⟩
      { name := "f", signature := ⟨[.short, .double]⟩, kind := .plain } = .ok a := ⟨_, rfl⟩
  have hchoice := choice_after_declaration hr hok .atOverride ⟨0⟩ "f"
  cases hok
  refine ⟨_, _, rfl, rfl, by decide, ?_, rfl, (hchoice [.short, .long]).2⟩
  exact ((hchoice [.int, .long]).1 _ rfl).resolve_left (by decide)

end Hierarchy

end LateBinding
