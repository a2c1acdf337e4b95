import LateBinding.Proofs.Resolution.OverrideChain
import LateBinding.Proofs.Resolution.Selection
import LateBinding.Proofs.Reordering.Twins

/-!
# LateBinding.Proofs.Reordering.Resolution

Calls on twins resolve alike.  Overload selection looks at a set of declarations and at
the numbers of methods only to leave a method out of its own comparison, and redirection
follows the chain of overrides, which is the same for twins.  So the order of declarations
plays no part in either step.
-/

namespace LateBinding

/-- Two results agree: both are values, and related, or both are errors, and related. -/
inductive Agree {ε ε' α α' : Type} (E : ε → ε' → Prop) (R : α → α' → Prop) :
    Except ε α → Except ε' α' → Prop
  | ok {a : α} {a' : α'} (h : R a a') : Agree E R (.ok a) (.ok a')
  | error {e : ε} {e' : ε'} (h : E e e') : Agree E R (.error e) (.error e')

/-! ## selection -/

/-- Whether a rule admits a method depends on its kind alone. -/
theorem LookupRule.admits_eq (rule : LookupRule) (m : Method) :
    rule.admits m = (rule == .atOverride || m.kind != .override) := by
  cases rule <;> rfl

namespace Overload

variable {ms ms' : List Method}

/-- The declarations of which no other is more specific. -/
def maximalDecls (ds : List MethodDecl) : List MethodDecl :=
  ds.filter fun d => !ds.any (·.signature.moreSpecific d.signature)

/-- A choice by what is declared commutes with reordering. -/
theorem filter_perm (q : MethodDecl → Bool)
    (hperm : (ms'.map (·.toMethodDecl)).Perm (ms.map (·.toMethodDecl))) :
    ((ms'.filter fun m => q m.toMethodDecl).map (·.toMethodDecl)).Perm
      ((ms.filter fun m => q m.toMethodDecl).map (·.toMethodDecl)) := by
  have hfilter := hperm.filter q
  rwa [List.filter_map, List.filter_map] at hfilter

theorem maximalDecls_perm {ds ds' : List MethodDecl} (hperm : ds'.Perm ds) :
    (maximalDecls ds').Perm (maximalDecls ds) := by
  have hany : ∀ p : MethodDecl → Bool, ds'.any p = ds.any p := fun p => hperm.any_eq
  simp only [maximalDecls, hany]
  exact hperm.filter _

/-- The maximal members of a list are found by their declarations, if its members are
told apart by their numbers. -/
theorem map_maximal (hids : ∀ a ∈ ms, ∀ b ∈ ms, a.id = b.id → a = b) :
    (maximal ms).map (·.toMethodDecl) = maximalDecls (ms.map (·.toMethodDecl)) := by
  rw [maximal, maximalDecls, List.filter_map]
  congr 1
  refine List.filter_congr fun m hm => ?_
  have hbeaten : isBeaten ms m =
      (ms.map (·.toMethodDecl)).any (·.signature.moreSpecific m.signature) := by
    rw [Bool.eq_iff_iff, isBeaten_iff hids hm, List.any_map, List.any_eq_true]
    rfl
  simp only [Function.comp_apply, hbeaten]

/-- What is picked does not depend on the order of the candidates. -/
theorem select_perm (name : String) (args : List Primitive)
    (hperm : (ms'.map (·.toMethodDecl)).Perm (ms.map (·.toMethodDecl)))
    (hids : ∀ a ∈ ms, ∀ b ∈ ms, a.id = b.id → a = b)
    (hids' : ∀ a ∈ ms', ∀ b ∈ ms', a.id = b.id → a = b) :
    Agree (fun e e' => e'.kind = e.kind ∧ e'.message = e.message)
      (fun m m' => m'.toMethodDecl = m.toMethodDecl) (select name args ms)
      (select name args ms') := by
  have happ : ((ms'.filter (·.isApplicable args)).map (·.toMethodDecl)).Perm
      ((ms.filter (·.isApplicable args)).map (·.toMethodDecl)) :=
    filter_perm (·.signature.accepts args) hperm
  have hmax : ((maximal (ms'.filter (·.isApplicable args))).map (·.toMethodDecl)).Perm
      ((maximal (ms.filter (·.isApplicable args))).map (·.toMethodDecl)) := by
    rw [map_maximal fun a ha b hb => hids a (List.mem_of_mem_filter ha) b (List.mem_of_mem_filter hb),
      map_maximal fun a ha b hb => hids' a (List.mem_of_mem_filter ha) b (List.mem_of_mem_filter hb)]
    exact maximalDecls_perm happ
  have hempty : (ms'.filter (·.isApplicable args)).isEmpty =
      (ms.filter (·.isApplicable args)).isEmpty := by
    have hlen := happ.length_eq
    rw [List.length_map, List.length_map] at hlen
    rw [Bool.eq_iff_iff, List.isEmpty_iff_length_eq_zero, List.isEmpty_iff_length_eq_zero, hlen]
  simp only [select, hempty]
  split
  · exact .error ⟨rfl, rfl⟩
  · generalize maximal (ms.filter (·.isApplicable args)) = l at hmax ⊢
    generalize maximal (ms'.filter (·.isApplicable args)) = l' at hmax ⊢
    have hlen : l'.length = l.length := by simpa using hmax.length_eq
    -- one maximal member is the same on both sides, none or several are a failure on both
    rcases l with _ | ⟨m, _ | ⟨n, l⟩⟩
    · obtain rfl := List.length_eq_zero_iff.mp hlen
      exact .error ⟨rfl, rfl⟩
    · obtain ⟨m', rfl⟩ := List.length_eq_one_iff.mp hlen
      exact .ok (by simpa using hmax)
    · rcases l' with _ | ⟨m', _ | ⟨n', l'⟩⟩
      · simp at hlen
      · simp at hlen
      · exact .error ⟨rfl, rfl⟩

end Overload

namespace Hierarchy

variable {h h' : Hierarchy} {c c' d d' r r' : ClassId} {m m' : Method}

/-- The candidates of a class are told apart by their numbers. -/
theorem Indexed.eq_of_mem_candidates (hix : h.Indexed) {rule : LookupRule} {name : String} :
    ∀ a ∈ h.candidates rule c name, ∀ b ∈ h.candidates rule c name, a.id = b.id → a = b := by
  intro a ha b hb hid
  exact hix.eq_of_id_eq (hix.mem_members_iff.mp (hix.mem_candidates_iff.mp ha).1).1
    (hix.mem_members_iff.mp (hix.mem_candidates_iff.mp hb).1).1 hid

/-- Failures that read alike: of one kind, and with one message. -/
def SameFailure (e e' : LookupError) : Prop := e'.kind = e.kind ∧ e'.message = e.message

/-- Resolutions that run counterparts of twins, and are bound alike. -/
structure SameRun (h h' : Hierarchy) (r r' : Resolution) : Prop where
  method : h.Counterpart h' r.method r'.method
  declaringClass : h.Twin h' r.declaringClass r'.declaringClass
  dynamic_eq : r'.binding.isDynamic = r.binding.isDynamic

/-- Calls on twins, of one name and with the same arguments, that can be made. -/
structure SameCall (h h' : Hierarchy) (site site' : CallSite) : Prop where
  static : h.Twin h' site.static site'.static
  runtime : h.Twin h' site.runtime site'.runtime
  method_eq : site'.method = site.method
  args_eq : site'.args = site.args
  above : site.static ∈ h.ancestors site.runtime

namespace Covers

variable (hcov : h.Covers h')

include hcov

/-! ## static lookup -/

/-- Twins have the same candidates, in some order. -/
theorem candidates_perm (ht : h.Twin h' c c') (rule : LookupRule) (name : String) :
    ((h'.candidates rule c' name).map (·.toMethodDecl)).Perm
      ((h.candidates rule c name).map (·.toMethodDecl)) := by
  have hadmits : rule.admits = fun m => rule == .atOverride || m.kind != .override :=
    funext rule.admits_eq
  rw [candidates, candidates, hcov.wellFormed.indexed.membersNamed_eq,
    hcov.wellFormed'.indexed.membersNamed_eq, hadmits]
  exact Overload.filter_perm (fun d => rule == .atOverride || d.kind != .override)
    (Overload.filter_perm (fun d => d.name = name) ht.members_perm)

/-- The overload sets that twins see are those of twins. -/
theorem visibleOverloads (ht : h.Twin h' c c') (rule : LookupRule) (name : String) :
    Option.Rel (fun v v' => h.Twin h' v.1 v'.1 ∧ v.2 = h.candidates rule v.1 name ∧
        v'.2 = h'.candidates rule v'.1 name)
      (h.visibleOverloads rule c name) (h'.visibleOverloads rule c' name) := by
  refine forall₂_findSome? (R := h.Twin h') ?_ (hcov.ancestors ht)
  intro a a' ha
  have hlen := (hcov.candidates_perm ha rule name).length_eq
  rw [List.length_map, List.length_map] at hlen
  by_cases hnil : h.candidates rule a name = []
  · have hnil' : h'.candidates rule a' name = [] := by
      rwa [hnil, List.length_nil, List.length_eq_zero_iff] at hlen
    simp only [hnil, hnil', List.isEmpty_nil, if_true]
    exact .none
  · have hnil' : h'.candidates rule a' name ≠ [] := by
      intro heq
      rw [heq, List.length_nil, eq_comm, List.length_eq_zero_iff] at hlen
      exact hnil hlen
    simp only [List.isEmpty_iff, hnil, hnil', if_false]
    exact .some ⟨ha, rfl, rfl⟩

/-- Static lookup picks counterparts from twins, or fails alike. -/
theorem lookupStatic (ht : h.Twin h' c c') (rule : LookupRule) (name : String)
    (args : List Primitive) :
    Agree SameFailure (h.Counterpart h') (h.lookupStatic rule c name args)
      (h'.lookupStatic rule c' name args) := by
  have hix := hcov.wellFormed.indexed
  have hix' := hcov.wellFormed'.indexed
  have hvis := hcov.visibleOverloads ht rule name
  unfold Hierarchy.lookupStatic
  generalize h.visibleOverloads rule c name = v, h'.visibleOverloads rule c' name = v' at hvis ⊢
  cases hvis with
  | none => exact .error ⟨rfl, rfl⟩
  | @some v v' hv =>
      obtain ⟨a, ms⟩ := v
      obtain ⟨a', ms'⟩ := v'
      obtain ⟨ha, hms, hms'⟩ := hv
      simp only at ha hms hms'
      subst hms hms'
      have hsel := Overload.select_perm name args (hcov.candidates_perm ha rule name)
        hix.eq_of_mem_candidates hix'.eq_of_mem_candidates
      simp only
      generalize hp : Overload.select name args (h.candidates rule a name) = p at hsel ⊢
      generalize hp' : Overload.select name args (h'.candidates rule a' name) = p' at hsel ⊢
      cases hsel with
      | error he => exact .error he
      | @ok m m' hdecl =>
          have hm := hix.mem_candidates_iff.mp (Overload.applicable_of_select hp).1
          have hm' := hix'.mem_candidates_iff.mp (Overload.applicable_of_select hp').1
          refine .ok ⟨hdecl, ?_⟩
          rw [(hix.mem_members_iff.mp hm.1).2, (hix'.mem_members_iff.mp hm'.1).2]
          exact ha

/-! ## redirection -/

/-- The declarations between twins are counterparts one by one. -/
theorem declarationsBelow (hd : h.Twin h' d d') (hr : h.Twin h' r r') (name : String)
    (s : Signature) :
    List.Forall₂ (h.Counterpart h') (h.declarationsBelow d r name s)
      (h'.declarationsBelow d' r' name s) := by
  have hne : ∀ a a', h.Twin h' a a' → decide (a ≠ d) = decide (a' ≠ d') := by
    intro a a' ha
    simp only [ne_eq, hcov.eq_iff ha hd]
  have hbelow : List.Forall₂ (h.Twin h') ((h.ancestors r).takeWhile (· ≠ d)).reverse
      ((h'.ancestors r').takeWhile (· ≠ d')).reverse :=
    List.rel_reverse (forall₂_takeWhile hne (hcov.ancestors hr))
  exact List.rel_filterMap (R := h.Twin h') (fun _ _ ha => hcov.declared? ha name s) hbelow

/-- The last overrides below counterparts are counterparts. -/
theorem lastOverride (hm : h.Counterpart h' m m') (hr : h.Twin h' r r') :
    h.Counterpart h' (h.lastOverride m r) (h'.lastOverride m' r') := by
  have hbelow := hcov.declarationsBelow hm.owner hr m.name m.signature
  have hkind : ∀ x x', h.Counterpart h' x x' →
      decide (x.kind = .override) = decide (x'.kind = .override) := by
    intro x x' hx
    rw [hx.kind_eq]
  have hlast := forall₂_getLast? (forall₂_takeWhile hkind hbelow)
  unfold Hierarchy.lastOverride
  rw [hm.name_eq, hm.signature_eq]
  exact rel_getD hlast hm

/-- Counterparts are redirected to counterparts. -/
theorem redirect (hm : m ∈ h.members m.owner) (hm' : m' ∈ h'.members m'.owner)
    (hcp : h.Counterpart h' m m') (hr : h.Twin h' r r') (habove : m.owner ∈ h.ancestors r) :
    h.SameRun h' (h.redirect m r) (h'.redirect m' r') := by
  have habove' := (hcov.mem_ancestors_iff hr hcp.owner).mpr habove
  cases hkind : m.kind.isDynamic with
  | false =>
      rw [redirect_of_static hkind, redirect_of_static (by rw [hcp.kind_eq, hkind])]
      exact ⟨hcp, hcp.owner, rfl⟩
  | true =>
      obtain ⟨s, heq⟩ := hcov.settled.redirect_eq hcov.wellFormed hm hkind habove
      obtain ⟨s', heq'⟩ := hcov.settled'.redirect_eq hcov.wellFormed' hm'
        (by rw [hcp.kind_eq, hkind]) habove'
      have hlast := hcov.lastOverride hcp hr
      rw [heq, heq']
      exact ⟨hlast, hlast.owner, rfl⟩

/-! ## both steps -/

/-- **Calls on twins resolve alike.** -/
theorem resolve {site site' : CallSite} (hs : h.SameCall h' site site') (rule : LookupRule) :
    Agree SameFailure (h.SameRun h') (h.resolve rule site) (h'.resolve rule site') := by
  have hl := hcov.lookupStatic hs.static rule site.method site.args
  unfold Hierarchy.resolve
  rw [hs.method_eq, hs.args_eq]
  generalize hp : h.lookupStatic rule site.static site.method site.args = p at hl ⊢
  generalize hp' : h'.lookupStatic rule site'.static site.method site.args = p' at hl ⊢
  cases hl with
  | error he => exact .error he
  | @ok m m' hm =>
      have hnear := (hcov.wellFormed.indexed.of_lookupStatic hp).1
      have hnear' := (hcov.wellFormed'.indexed.of_lookupStatic hp').1
      exact .ok (hcov.redirect hnear.declared hnear'.declared hm hs.runtime
        (hcov.wellFormed.acyclic.mem_ancestors_trans hnear.owner_mem hs.above))

end Covers

end Hierarchy

end LateBinding
