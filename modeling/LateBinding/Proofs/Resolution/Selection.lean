import LateBinding.Proofs.Specificity
import LateBinding.Proofs.Resolution.Lookup

/-!
# LateBinding.Proofs.Resolution.Selection

What overload selection decides, for every list of candidates.

Selection only drops the methods that some other one beats.  As being more specific is a
strict order, no method of a finite list is beaten without being beaten by one that is
itself unbeaten.  So a single unbeaten method beats all others, and it is the one picked;
several are reported as ambiguous, and beat all the rest between them.
-/

namespace LateBinding

namespace Method

variable {a b c : Method}

theorem isMoreSpecific_self (m : Method) : m.isMoreSpecific m = false :=
  m.signature.moreSpecific_self

theorem isMoreSpecific_trans (hab : a.isMoreSpecific b = true) (hbc : b.isMoreSpecific c = true) :
    a.isMoreSpecific c = true := Signature.moreSpecific_trans hab hbc

end Method

namespace Overload

variable {name : String} {args : List Primitive} {candidates ms : List Method} {m : Method}

/-! ## unbeaten methods -/

/-- A list that is not empty has a member that no member beats. -/
theorem exists_unbeaten (hne : ms ≠ []) : ∃ b ∈ ms, ∀ o ∈ ms, o.isMoreSpecific b = false := by
  induction ms with
  | nil => exact absurd rfl hne
  | cons a rest ih =>
      by_cases hrest : rest = []
      · subst hrest
        refine ⟨a, List.mem_cons_self, fun o ho => ?_⟩
        rw [List.mem_singleton.mp ho]
        exact a.isMoreSpecific_self
      · obtain ⟨b, hb, hunbeaten⟩ := ih hrest
        by_cases hab : a.isMoreSpecific b = true
        · -- whatever beats `a` would beat `b` as well
          refine ⟨a, List.mem_cons_self, fun o ho => ?_⟩
          rcases List.mem_cons.mp ho with rfl | ho
          · exact o.isMoreSpecific_self
          · rw [Bool.eq_false_iff]
            intro hoa
            have hob := Method.isMoreSpecific_trans hoa hab
            rw [hunbeaten o ho] at hob
            contradiction
        · refine ⟨b, List.mem_cons_of_mem a hb, fun o ho => ?_⟩
          rcases List.mem_cons.mp ho with rfl | ho
          · exact Bool.eq_false_iff.mpr hab
          · exact hunbeaten o ho

/-- A method that is beaten is beaten by a member that no member beats. -/
theorem exists_unbeaten_of_beaten {o : Method} (ho : o ∈ ms) (hom : o.isMoreSpecific m = true) :
    ∃ b ∈ ms, b.isMoreSpecific m = true ∧ ∀ o ∈ ms, o.isMoreSpecific b = false := by
  have hne : ms.filter (·.isMoreSpecific m) ≠ [] :=
    List.ne_nil_of_mem (List.mem_filter.mpr ⟨ho, hom⟩)
  obtain ⟨b, hb, hunbeaten⟩ := exists_unbeaten hne
  obtain ⟨hbms, hbm⟩ := List.mem_filter.mp hb
  refine ⟨b, hbms, hbm, fun x hx => ?_⟩
  rw [Bool.eq_false_iff]
  intro hxb
  have hxm := Method.isMoreSpecific_trans hxb hbm
  rw [hunbeaten x (List.mem_filter.mpr ⟨hx, hxm⟩)] at hxb
  contradiction

/-- Being told apart by their numbers is passed on to fewer methods. -/
theorem ids_of_subset {ms' : List Method} (hids : ∀ a ∈ ms, ∀ b ∈ ms, a.id = b.id → a = b)
    (hsub : ms' ⊆ ms) : ∀ a ∈ ms', ∀ b ∈ ms', a.id = b.id → a = b :=
  fun a ha b hb => hids a (hsub ha) b (hsub hb)

section Distinct

variable (hids : ∀ a ∈ ms, ∀ b ∈ ms, a.id = b.id → a = b)

include hids

/-- Leaving a method out of its own comparison changes nothing, if the members of the list
are told apart by their numbers. -/
theorem isBeaten_iff (hm : m ∈ ms) :
    isBeaten ms m = true ↔ ∃ o ∈ ms, o.isMoreSpecific m = true := by
  rw [isBeaten, List.any_eq_true]
  constructor
  · rintro ⟨o, ho, hmore⟩
    exact ⟨o, ho, (Bool.and_eq_true_iff.mp hmore).2⟩
  · rintro ⟨o, ho, hmore⟩
    refine ⟨o, ho, Bool.and_eq_true_iff.mpr ⟨?_, hmore⟩⟩
    rw [bne_iff_ne]
    intro hid
    rw [hids o ho m hm hid, m.isMoreSpecific_self] at hmore
    contradiction

theorem mem_maximal_iff :
    m ∈ maximal ms ↔ m ∈ ms ∧ ∀ o ∈ ms, o.isMoreSpecific m = false := by
  rw [maximal, List.mem_filter, and_congr_right_iff]
  intro hm
  rw [Bool.not_eq_true', Bool.eq_false_iff, ne_eq, isBeaten_iff hids hm, not_exists]
  simp only [not_and, Bool.not_eq_true]

/-- Every member of a list is among its maximal ones or beaten by one of them. -/
theorem mem_maximal_or_beaten (hm : m ∈ ms) :
    m ∈ maximal ms ∨ ∃ b ∈ maximal ms, b.isMoreSpecific m = true := by
  by_cases hbeaten : ∃ o ∈ ms, o.isMoreSpecific m = true
  · obtain ⟨o, ho, hom⟩ := hbeaten
    obtain ⟨b, hb, hbm, hunbeaten⟩ := exists_unbeaten_of_beaten ho hom
    exact .inr ⟨b, (mem_maximal_iff hids).mpr ⟨hb, hunbeaten⟩, hbm⟩
  · refine .inl ((mem_maximal_iff hids).mpr ⟨hm, fun o ho => ?_⟩)
    rw [Bool.eq_false_iff]
    exact fun hom => hbeaten ⟨o, ho, hom⟩

/-- The maximal members of a list do not beat one another. -/
theorem pairwise_maximal :
    (maximal ms).Pairwise fun a b => a.isMoreSpecific b = false ∧ b.isMoreSpecific a = false := by
  refine List.pairwise_of_forall_mem_list fun a ha b hb => ?_
  obtain ⟨ha, hunbeaten⟩ := (mem_maximal_iff hids).mp ha
  obtain ⟨hb, hunbeaten'⟩ := (mem_maximal_iff hids).mp hb
  exact ⟨hunbeaten' a ha, hunbeaten b hb⟩

end Distinct

/-! ## what is decided -/

/-- A candidate that accepts the arguments and is more specific than every other one that
does. -/
structure MostSpecific (args : List Primitive) (candidates : List Method) (m : Method) : Prop where
  mem : m ∈ candidates
  applicable : m.isApplicable args = true
  beats : ∀ x ∈ candidates, x.isApplicable args = true → x ≠ m → m.isMoreSpecific x = true

/-- Several candidates between which the arguments do not decide: all accept them, none
beats another, and together they beat every other candidate that accepts them.  They
stand in the order of the candidates. -/
structure Ambiguous (args : List Primitive) (candidates ms : List Method) : Prop where
  several : 2 ≤ ms.length
  inOrder : ms.Sublist candidates
  applicable : ∀ m ∈ ms, m.isApplicable args = true
  incomparable :
    ms.Pairwise fun a b => a.isMoreSpecific b = false ∧ b.isMoreSpecific a = false
  beats : ∀ x ∈ candidates, x.isApplicable args = true → x ∉ ms →
    ∃ m ∈ ms, m.isMoreSpecific x = true

/-- No candidate that accepts the arguments: that is the failure, and it lists them all. -/
theorem select_of_forall_not (hnone : ∀ m ∈ candidates, m.isApplicable args = false) :
    select name args candidates =
      .error (.noApplicable name args (candidates.head?.map (·.owner)) candidates) := by
  have hempty : candidates.filter (·.isApplicable args) = [] := by
    rw [List.filter_eq_nil_iff]
    intro m hm
    rw [hnone m hm]
    exact Bool.false_ne_true
  simp only [select, hempty, List.isEmpty_nil, if_true]

/-- The only contender is picked. -/
theorem select_of_contenders_eq (honly : contenders args candidates = [m]) :
    select name args candidates = .ok m := by
  have hm : m ∈ contenders args candidates := by simp [honly]
  have hne : (candidates.filter (·.isApplicable args)).isEmpty = false :=
    List.isEmpty_eq_false_iff.mpr (List.ne_nil_of_mem (mem_of_mem_maximal hm))
  rw [contenders] at honly
  simp only [select, hne, honly, Bool.false_eq_true, if_false]

/-- Several contenders are a failure, which lists them. -/
theorem select_of_several (hseveral : 2 ≤ (contenders args candidates).length) :
    select name args candidates = .error (.ambiguous name args (contenders args candidates)) := by
  rw [contenders] at hseveral ⊢
  have hne : (candidates.filter (·.isApplicable args)).isEmpty = false := by
    rw [List.isEmpty_eq_false_iff]
    intro hempty
    simp [hempty, maximal] at hseveral
  simp only [select, hne, Bool.false_eq_true, if_false]
  split
  · next m hmax => simp [hmax] at hseveral
  · rfl

section Distinct

variable (hids : ∀ a ∈ candidates, ∀ b ∈ candidates, a.id = b.id → a = b)

include hids

/-- The members of a choice of the candidates are told apart by their numbers as well. -/
theorem ids_filter (p : Method → Bool) :
    ∀ a ∈ candidates.filter p, ∀ b ∈ candidates.filter p, a.id = b.id → a = b :=
  ids_of_subset hids List.filter_sublist.subset

/-- The contenders are the candidates that accept the arguments and that none such beats. -/
theorem mem_contenders_iff :
    m ∈ contenders args candidates ↔ (m ∈ candidates ∧ m.isApplicable args = true) ∧
      ∀ o ∈ candidates, o.isApplicable args = true → o.isMoreSpecific m = false := by
  rw [contenders, mem_maximal_iff (ids_filter hids (·.isApplicable args)), List.mem_filter]
  simp only [List.mem_filter, and_imp]

/-- A candidate that accepts the arguments is a contender or beaten by one. -/
theorem mem_contenders_or_beaten (hm : m ∈ candidates) (happ : m.isApplicable args = true) :
    m ∈ contenders args candidates ∨
      ∃ b ∈ contenders args candidates, b.isMoreSpecific m = true :=
  mem_maximal_or_beaten (ids_filter hids (·.isApplicable args)) (List.mem_filter.mpr ⟨hm, happ⟩)

/-- The contenders decide what is selected: there is none, or one, or they tie. -/
theorem select_eq :
    select name args candidates = match contenders args candidates with
      | [] => .error (.noApplicable name args (candidates.head?.map (·.owner)) candidates)
      | [m] => .ok m
      | several => .error (.ambiguous name args several) := by
  rcases hc : contenders args candidates with _ | ⟨m, _ | ⟨m', rest⟩⟩
  · refine select_of_forall_not fun m hm => ?_
    rw [Bool.eq_false_iff]
    intro happ
    -- a candidate that accepts the arguments is a contender or beaten by one
    simpa [hc] using mem_contenders_or_beaten hids hm happ
  · exact select_of_contenders_eq hc
  · rw [select_of_several (by simp [hc]), hc]

/-- A method is the only contender exactly if it is more specific than every other method that
applies. -/
theorem contenders_eq_singleton_iff (hnodup : candidates.Nodup) :
    contenders args candidates = [m] ↔ MostSpecific args candidates m := by
  constructor
  · intro honly
    obtain ⟨hmem, happ⟩ := of_mem_contenders (honly ▸ List.mem_singleton_self m)
    refine ⟨hmem, happ, fun x hx hxapp hne => ?_⟩
    -- another method that applies is beaten by a contender, and there is only one
    have hbeaten := mem_contenders_or_beaten hids hx hxapp
    simpa [honly, hne] using hbeaten
  · intro hbest
    have hunbeaten : ∀ o ∈ candidates, o.isApplicable args = true → o.isMoreSpecific m = false := by
      intro o hmem happ
      by_cases heq : o = m
      · rw [heq, m.isMoreSpecific_self]
      · rw [Bool.eq_false_iff]
        intro hom
        have hoo := Method.isMoreSpecific_trans hom (hbest.beats o hmem happ heq)
        rw [o.isMoreSpecific_self] at hoo
        contradiction
    have hm : m ∈ contenders args candidates :=
      (mem_contenders_iff hids).mpr ⟨⟨hbest.mem, hbest.applicable⟩, hunbeaten⟩
    have honly : ∀ b ∈ contenders args candidates, b = m := by
      intro b hb
      obtain ⟨⟨hmem, happ⟩, hbunbeaten⟩ := (mem_contenders_iff hids).mp hb
      refine Classical.byContradiction fun hne => ?_
      have hmb := hbest.beats b hmem happ hne
      rw [hbunbeaten m hbest.mem hbest.applicable] at hmb
      contradiction
    have hnodup' : (contenders args candidates).Nodup := (hnodup.filter _).filter _
    generalize contenders args candidates = l at hm honly hnodup' ⊢
    rcases l with _ | ⟨a, _ | ⟨b, rest⟩⟩
    · contradiction
    · rw [honly a List.mem_cons_self]
    · have ha := honly a List.mem_cons_self
      have hb := honly b (List.mem_cons_of_mem a List.mem_cons_self)
      simp [ha, hb] at hnodup'

/-- Where no candidate is the most specific one, but some accept the arguments, the
contenders are several, between which the arguments do not decide. -/
theorem ambiguous_contenders (hnodup : candidates.Nodup)
    (hsome : ∃ m ∈ candidates, m.isApplicable args = true)
    (hnone : ∀ m, ¬ MostSpecific args candidates m) :
    Ambiguous args candidates (contenders args candidates) := by
  refine ⟨?_, List.filter_sublist.trans List.filter_sublist,
    fun m hm => (of_mem_contenders hm).2,
    pairwise_maximal (ids_filter hids (·.isApplicable args)), fun x hx hxapp hnot => ?_⟩
  · -- there is a contender, and a single one would be the most specific
    obtain ⟨x, hx, hxapp⟩ := hsome
    have hnonempty : contenders args candidates ≠ [] := by
      rcases mem_contenders_or_beaten hids hx hxapp with hm | ⟨b, hb, -⟩
      · exact List.ne_nil_of_mem hm
      · exact List.ne_nil_of_mem hb
    have hmany : ∀ m, contenders args candidates ≠ [m] :=
      fun m honly => hnone m ((contenders_eq_singleton_iff hids hnodup).mp honly)
    rcases hl : contenders args candidates with _ | ⟨a, _ | ⟨b, rest⟩⟩
    · exact absurd hl hnonempty
    · exact absurd hl (hmany a)
    · simp
  · exact (mem_contenders_or_beaten hids hx hxapp).resolve_left hnot

end Distinct

/-- What selection decides about a list of candidates: it fails for want of a candidate that
accepts the arguments, picks the most specific one that does, or reports those between which
the arguments do not decide. -/
structure Decides (name : String) (args : List Primitive) (candidates : List Method) : Prop where
  noApplicable_iff :
    (∃ n as c cs, select name args candidates = .error (.noApplicable n as c cs)) ↔
      ∀ m ∈ candidates, m.isApplicable args = false
  ok_iff : ∀ m, select name args candidates = .ok m ↔ MostSpecific args candidates m
  ambiguous : (∃ m ∈ candidates, m.isApplicable args = true) →
    (∀ m, ¬ MostSpecific args candidates m) →
    ∃ ms, select name args candidates = .error (.ambiguous name args ms) ∧
      Ambiguous args candidates ms

theorem decides (hnodup : candidates.Nodup)
    (hids : ∀ a ∈ candidates, ∀ b ∈ candidates, a.id = b.id → a = b) :
    Decides name args candidates := by
  have hok : ∀ m, select name args candidates = .ok m ↔ MostSpecific args candidates m := by
    intro m
    rw [← contenders_eq_singleton_iff hids hnodup]
    exact ⟨contenders_of_select, select_of_contenders_eq⟩
  have hambiguous : (∃ m ∈ candidates, m.isApplicable args = true) →
      (∀ m, ¬ MostSpecific args candidates m) →
      ∃ ms, select name args candidates = .error (.ambiguous name args ms) ∧
        Ambiguous args candidates ms := by
    intro hsome hnone
    have hamb := ambiguous_contenders hids hnodup hsome hnone
    exact ⟨_, select_of_several hamb.several, hamb⟩
  refine ⟨⟨fun hfail m hm => ?_, fun hnone => ⟨_, _, _, _, select_of_forall_not hnone⟩⟩, hok,
    hambiguous⟩
  -- were the candidate applicable, there would be a choice or an ambiguity
  obtain ⟨n, as, c, cs, hfail⟩ := hfail
  rw [Bool.eq_false_iff]
  intro happ
  by_cases hbest : ∃ b, MostSpecific args candidates b
  · obtain ⟨b, hb⟩ := hbest
    rw [(hok b).mpr hb] at hfail
    contradiction
  · obtain ⟨ms, hsel, -⟩ := hambiguous ⟨m, hm, happ⟩ fun b hb => hbest ⟨b, hb⟩
    simp [hsel] at hfail

end Overload

namespace Hierarchy

variable {h : Hierarchy} {rule : LookupRule} {c a : ClassId} {name : String} {ms : List Method}

/-- A visible overload set lists known methods, none of them twice. -/
theorem Indexed.nodup_of_visibleOverloads (hix : h.Indexed)
    (hv : h.visibleOverloads rule c name = some (a, ms)) :
    ms.Nodup ∧ ∀ m ∈ ms, m ∈ h.methods := by
  obtain ⟨-, -, -, -, rfl, -⟩ := visibleOverloads_eq_some_iff.mp hv
  constructor
  · rw [candidates, hix.membersNamed_eq, hix.members_eq]
    exact ((hix.nodup_methods.filter _).filter _).filter _
  · intro m hm
    exact (hix.mem_members_iff.mp (hix.mem_candidates_iff.mp hm).1).1

/-- The members of a visible overload set are told apart by their numbers. -/
theorem Indexed.visible_ids (hix : h.Indexed)
    (hv : h.visibleOverloads rule c name = some (a, ms)) :
    ∀ m ∈ ms, ∀ m' ∈ ms, m.id = m'.id → m = m' := by
  intro m hm m' hm' hid
  have hknown := (hix.nodup_of_visibleOverloads hv).2
  exact hix.eq_of_id_eq (hknown m hm) (hknown m' hm') hid

/-- **Overload selection is decided by specificity alone**, for all lists of different known
methods as candidates, and visible overload sets are such lists. -/
theorem select_decides (hr : h.Reachable) :
    (∀ candidates : List Method, candidates.Nodup → (∀ m ∈ candidates, m ∈ h.methods) →
      ∀ name args, Overload.Decides name args candidates) ∧
    ∀ rule c name a ms, h.visibleOverloads rule c name = some (a, ms) →
      ms.Nodup ∧ ∀ m ∈ ms, m ∈ h.methods := by
  have hix := hr.wellFormed.indexed
  refine ⟨fun candidates hnodup hknown name args => ?_, fun rule c name a ms hv => ?_⟩
  · exact Overload.decides hnodup
      fun a ha b hb hid => hix.eq_of_id_eq (hknown a ha) (hknown b hb) hid
  · exact hix.nodup_of_visibleOverloads hv

/-- A class with `f(int, long)` and `f(long, int)`, and with `f(long, long)`, which both
of them beat. -/
def crossedOverloads : Hierarchy :=
  empty.afterAll
    [ .newClass "A" none,
      .newMethod ⟨0⟩ { name := "f", signature := ⟨[.int, .long]⟩, kind := .virtual },
      .newMethod ⟨0⟩ { name := "f", signature := ⟨[.long, .long]⟩, kind := .plain },
      .newMethod ⟨0⟩ { name := "f", signature := ⟨[.long, .int]⟩, kind := .plain } ]

/-- Two arguments of type `int` do not decide between the first and the last of the three,
but `int` and `long` decide for the first. -/
theorem select_decides_crossedOverloads :
    crossedOverloads.Reachable ∧
      (∃ ms, Overload.select "f" [.int, .int] crossedOverloads.methods =
          .error (.ambiguous "f" [.int, .int] ms) ∧
        Overload.Ambiguous [.int, .int] crossedOverloads.methods ms ∧ ms.length = 2) ∧
      ∃ m, Overload.select "f" [.int, .long] crossedOverloads.methods = .ok m ∧
        Overload.MostSpecific [.int, .long] crossedOverloads.methods m := by
  have hr : crossedOverloads.Reachable := ⟨_, rfl⟩
  have hdecides := (select_decides hr).1 crossedOverloads.methods (by decide) (fun _ hm => hm) "f"
  refine ⟨hr, ?_, ?_⟩
  · obtain ⟨ms, hsel, hamb⟩ := (hdecides [.int, .int]).ambiguous ⟨_, List.mem_cons_self, rfl⟩
      (fun m hm => by
        have hsel := ((hdecides [.int, .int]).ok_iff m).mpr hm
        contradiction)
    have hms : ms = _ := (LookupError.ambiguous.inj (Except.error.inj (hsel.symm.trans rfl))).2.2
    exact ⟨ms, hsel, hamb, by rw [hms]; rfl⟩
  · exact ⟨_, rfl, ((hdecides [.int, .long]).ok_iff _).mp rfl⟩

end Hierarchy

end LateBinding
