import Mathlib.Data.List.Forall2
import LateBinding.Proofs.Scenario.Entries

/-!
# LateBinding.Proofs.Reordering.Twins

Two hierarchies that declare the same classes in different orders.  The numbers of
their classes, methods and slots differ, so classes are matched by what declares them:
twins have the same name, the same named parent and the same methods in some order.

Where the one hierarchy covers the other, the lineages of twins are twins class by
class, and what twins declare or inherit under a name and signature is declared alike.
-/

namespace LateBinding

/-- The second entry declares the class of the first, its methods in some order. -/
structure ClassEntry.Reorders (e e' : ClassEntry) : Prop where
  name_eq : e'.name = e.name
  parent_eq : e'.parent = e.parent
  methods_perm : e'.methods.Perm e.methods

/-! ## lists that agree place by place -/

theorem forall₂_exists_left {α β : Type} {R : α → β → Prop} {l : List α} {l' : List β} {b : β}
    (hl : List.Forall₂ R l l') (hb : b ∈ l') : ∃ a ∈ l, R a b := by
  induction hl with
  | nil => simp at hb
  | @cons a _ _ _ hab _ ih =>
      rcases List.mem_cons.mp hb with rfl | hb
      · exact ⟨a, List.mem_cons_self, hab⟩
      · obtain ⟨a', ha', hab'⟩ := ih hb
        exact ⟨a', List.mem_cons_of_mem _ ha', hab'⟩

theorem forall₂_exists_right {α β : Type} {R : α → β → Prop} {l : List α} {l' : List β} {a : α}
    (hl : List.Forall₂ R l l') (ha : a ∈ l) : ∃ b ∈ l', R a b :=
  forall₂_exists_left (R := fun b a => R a b) hl.flip ha

theorem forall₂_findSome? {α β γ δ : Type} {R : α → β → Prop} {S : γ → δ → Prop}
    {f : α → Option γ} {g : β → Option δ} (hfg : ∀ a b, R a b → Option.Rel S (f a) (g b))
    {l : List α} {l' : List β} (hl : List.Forall₂ R l l') :
    Option.Rel S (l.findSome? f) (l'.findSome? g) := by
  induction hl with
  | nil => exact .none
  | @cons a b _ _ hab _ ih =>
      have hfab := hfg a b hab
      rw [List.findSome?_cons, List.findSome?_cons]
      generalize f a = x, g b = y at hfab ⊢
      cases hfab with
      | none => exact ih
      | some hcd => exact .some hcd

theorem forall₂_takeWhile {α β : Type} {R : α → β → Prop} {p : α → Bool} {q : β → Bool}
    (hpq : ∀ a b, R a b → p a = q b) {l : List α} {l' : List β} (hl : List.Forall₂ R l l') :
    List.Forall₂ R (l.takeWhile p) (l'.takeWhile q) := by
  induction hl with
  | nil => exact .nil
  | cons hab _ ih =>
      rw [List.takeWhile_cons, List.takeWhile_cons, hpq _ _ hab]
      split
      · exact .cons hab ih
      · exact .nil

theorem forall₂_getLast? {α β : Type} {R : α → β → Prop} {l : List α} {l' : List β}
    (hl : List.Forall₂ R l l') : Option.Rel R l.getLast? l'.getLast? := by
  have hrev : List.Forall₂ R l.reverse l'.reverse := List.rel_reverse hl
  rw [← List.head?_reverse, ← List.head?_reverse]
  generalize l.reverse = r, l'.reverse = r' at hrev ⊢
  cases hrev with
  | nil => exact .none
  | cons hab _ => exact .some hab

theorem rel_getD {α β : Type} {R : α → β → Prop} {x : Option α} {x' : Option β} {a : α} {b : β}
    (hx : Option.Rel R x x') (hab : R a b) : R (x.getD a) (x'.getD b) := by
  cases hx with
  | none => exact hab
  | some hcd => exact hcd

namespace Hierarchy

variable {h h' : Hierarchy} {c c' d d' : ClassId} {k k' : ClassInfo}

/-! ## twins -/

/-- Classes of two hierarchies of which the second is declared like the first, its
methods in some order. -/
def Twin (h h' : Hierarchy) (c c' : ClassId) : Prop :=
  ∃ k k', h.class? c = some k ∧ h'.class? c' = some k' ∧ (h.entryOf k).Reorders (h'.entryOf k')

/-- Methods of twins that are declared alike. -/
structure Counterpart (h h' : Hierarchy) (m m' : Method) : Prop where
  decl_eq : m'.toMethodDecl = m.toMethodDecl
  owner : h.Twin h' m.owner m'.owner

/-- Two settled hierarchies, of which the second has only twins of classes of the
first. -/
structure Covers (h h' : Hierarchy) : Prop where
  wellFormed : h.WellFormed
  settled : h.Settled
  wellFormed' : h'.WellFormed
  settled' : h'.Settled
  reorders : ∀ e' ∈ h'.entries, ∃ e ∈ h.entries, e.Reorders e'

theorem Twin.known (ht : h.Twin h' c c') : ∃ k, h.class? c = some k := by
  obtain ⟨k, -, hk, -⟩ := ht
  exact ⟨k, hk⟩

theorem Twin.known' (ht : h.Twin h' c c') : ∃ k', h'.class? c' = some k' := by
  obtain ⟨-, k', -, hk', -⟩ := ht
  exact ⟨k', hk'⟩

theorem Twin.className_eq (ht : h.Twin h' c c') : h'.className c' = h.className c := by
  obtain ⟨k, k', hk, hk', hre⟩ := ht
  rw [className_of_class? hk, className_of_class? hk']
  exact hre.name_eq

theorem Twin.members_perm (ht : h.Twin h' c c') :
    ((h'.members c').map (·.toMethodDecl)).Perm ((h.members c).map (·.toMethodDecl)) := by
  obtain ⟨k, k', hk, hk', hre⟩ := ht
  rw [members_of_class? hk, members_of_class? hk']
  exact hre.methods_perm

theorem Counterpart.name_eq {m m' : Method} (hm : h.Counterpart h' m m') : m'.name = m.name :=
  congrArg MethodDecl.name hm.decl_eq

theorem Counterpart.signature_eq {m m' : Method} (hm : h.Counterpart h' m m') :
    m'.signature = m.signature := congrArg MethodDecl.signature hm.decl_eq

theorem Counterpart.kind_eq {m m' : Method} (hm : h.Counterpart h' m m') : m'.kind = m.kind :=
  congrArg MethodDecl.kind hm.decl_eq

theorem Counterpart.body_eq {m m' : Method} (hm : h.Counterpart h' m m') : m'.body = m.body :=
  congrArg MethodDecl.body hm.decl_eq

theorem Counterpart.qualifiedName_eq {m m' : Method} (hm : h.Counterpart h' m m') :
    h'.qualifiedName m' = h.qualifiedName m := by
  rw [qualifiedName, qualifiedName, hm.owner.className_eq, hm.name_eq, hm.signature_eq]

namespace Covers

variable (hcov : h.Covers h')

include hcov

/-- A class of the covered hierarchy is a twin of the class of its name. -/
theorem twin_of_name_eq (hk : h.class? c = some k) (hk' : h'.class? c' = some k')
    (hname : k'.name = k.name) : h.Twin h' c c' := by
  obtain ⟨e, he, hre⟩ := hcov.reorders _ (entryOf_mem_entries hk')
  obtain ⟨d, l, hl, rfl⟩ := class?_of_mem_entries he
  obtain rfl : d = c :=
    hcov.wellFormed.indexed.eq_of_name_eq hl hk (hre.name_eq.symm.trans hname)
  exact ⟨l, k', hl, hk', hre⟩

/-- The class that an entry names as its parent is a twin of the parent of the class that
it reorders. -/
theorem exists_twin_parent (hk : h.class? c = some k) {p : ClassId} (hp : k.parent = some p)
    {name : String} {parentName : Option String} {parent : Option ClassId}
    (heq : parentName = (h.entryOf k).parent) (hacc : h'.AcceptsClass name parentName parent) :
    ∃ p', parent = some p' ∧ h.Twin h' p p' := by
  obtain ⟨kp, hkp⟩ := hcov.wellFormed.acyclic.class?_parent hk hp
  have hnamed := hacc.parent_named
  rw [heq, entryOf, hp, Option.map_some, Option.map_some, className_of_class? hkp] at hnamed
  obtain ⟨p', hp', hname⟩ := Option.map_eq_some_iff.mp hnamed.symm
  obtain ⟨kp', hkp', hname'⟩ :=
    Option.map_eq_some_iff.mp (hcov.wellFormed'.indexed.classNamed?_iff.mp hname.symm)
  exact ⟨p', hp', hcov.twin_of_name_eq hkp hkp' hname'⟩

/-- Different classes have different twins. -/
theorem eq_iff (hc : h.Twin h' c c') (hd : h.Twin h' d d') : c' = d' ↔ c = d := by
  obtain ⟨k, k', hk, hk', hc⟩ := hc
  obtain ⟨l, l', hl, hl', hd⟩ := hd
  constructor
  · rintro rfl
    obtain rfl : k' = l' := Option.some.inj (hk'.symm.trans hl')
    exact hcov.wellFormed.indexed.eq_of_name_eq hk hl (hc.name_eq.symm.trans hd.name_eq)
  · rintro rfl
    obtain rfl : k = l := Option.some.inj (hk.symm.trans hl)
    exact hcov.wellFormed'.indexed.eq_of_name_eq hk' hl' (hc.name_eq.trans hd.name_eq.symm)

/-! ## lineages -/

/-- The parents of twins are twins. -/
theorem twin_parent (ht : h.Twin h' c c') (hk : h.class? c = some k)
    (hk' : h'.class? c' = some k') : Option.Rel (h.Twin h') k.parent k'.parent := by
  obtain ⟨l, l', hl, hl', hre⟩ := ht
  obtain rfl : l = k := Option.some.inj (hl.symm.trans hk)
  obtain rfl : l' = k' := Option.some.inj (hl'.symm.trans hk')
  have hparent : l'.parent.map h'.className = l.parent.map h.className := hre.parent_eq
  cases hp : l.parent with
  | none =>
      rw [hp, Option.map_none, Option.map_eq_none_iff] at hparent
      rw [hparent]
      exact .none
  | some p =>
      rw [hp, Option.map_some, Option.map_eq_some_iff] at hparent
      obtain ⟨p', hp', hname⟩ := hparent
      obtain ⟨kp, hkp⟩ := hcov.wellFormed.acyclic.class?_parent hl hp
      obtain ⟨kp', hkp'⟩ := hcov.wellFormed'.acyclic.class?_parent hl' hp'
      rw [className_of_class? hkp, className_of_class? hkp'] at hname
      rw [hp']
      exact .some (hcov.twin_of_name_eq hkp hkp' hname)

/-- The lineages of twins are twins class by class. -/
theorem ancestors (ht : h.Twin h' c c') :
    List.Forall₂ (h.Twin h') (h.ancestors c) (h'.ancestors c') := by
  obtain ⟨k', hk'⟩ := ht.known'
  refine hcov.wellFormed'.acyclic.induction (P := fun c' => ∀ c, h.Twin h' c c' →
    List.Forall₂ (h.Twin h') (h.ancestors c) (h'.ancestors c')) ?_ ?_ hk' c ht
  · intro c' k' hk' hp' c ht
    obtain ⟨k, hk⟩ := ht.known
    have hp := hcov.twin_parent ht hk hk'
    rw [hp'] at hp
    cases hpk : k.parent with
    | none =>
        rw [ancestors_of_root hk hpk, ancestors_of_root hk' hp']
        exact .cons ht .nil
    | some p => rw [hpk] at hp; cases hp
  · intro c' k' p' hk' hp' ih c ht
    obtain ⟨k, hk⟩ := ht.known
    have hp := hcov.twin_parent ht hk hk'
    rw [hp'] at hp
    cases hpk : k.parent with
    | none => rw [hpk] at hp; cases hp
    | some p =>
        rw [hpk] at hp
        cases hp with
        | some hp =>
            rw [hcov.wellFormed.acyclic.ancestors_of_child hk hpk,
              hcov.wellFormed'.acyclic.ancestors_of_child hk' hp']
            exact .cons ht (ih p hp)

/-- A class is above another exactly if their twins are. -/
theorem mem_ancestors_iff (hc : h.Twin h' c c') (hd : h.Twin h' d d') :
    d' ∈ h'.ancestors c' ↔ d ∈ h.ancestors c := by
  have hmem : ∀ {l l' : List ClassId}, List.Forall₂ (h.Twin h') l l' → (d' ∈ l' ↔ d ∈ l) := by
    intro l l' hl
    induction hl with
    | nil => simp
    | cons ha _ ih => rw [List.mem_cons, List.mem_cons, ih, hcov.eq_iff hd ha]
  exact hmem (hcov.ancestors hc)

/-! ## declarations -/

/-- Every method of a class has a counterpart in a twin. -/
theorem exists_counterpart (ht : h.Twin h' c c') {m : Method} (hm : m ∈ h.members c) :
    ∃ m' ∈ h'.members c', h.Counterpart h' m m' := by
  have hdecl : m.toMethodDecl ∈ (h'.members c').map (·.toMethodDecl) :=
    ht.members_perm.mem_iff.mpr (List.mem_map_of_mem hm)
  obtain ⟨m', hm', heq⟩ := List.mem_map.mp hdecl
  refine ⟨m', hm', heq, ?_⟩
  rw [(hcov.wellFormed.indexed.mem_members_iff.mp hm).2,
    (hcov.wellFormed'.indexed.mem_members_iff.mp hm').2]
  exact ht

/-- Twins declare the same under a name and signature. -/
theorem declared? (ht : h.Twin h' c c') (name : String) (s : Signature) :
    Option.Rel (h.Counterpart h') (h.declared? c name s) (h'.declared? c' name s) := by
  have hix := hcov.wellFormed.indexed
  have hix' := hcov.wellFormed'.indexed
  cases hd : h.declared? c name s with
  | some m =>
      obtain ⟨hm, rfl, rfl⟩ := hix.declared?_eq_some_iff.mp hd
      obtain ⟨m', hm', hcp⟩ := hcov.exists_counterpart ht hm
      rw [hix'.declared?_eq_some_iff.mpr ⟨hm', hcp.name_eq, hcp.signature_eq⟩]
      exact .some hcp
  | none =>
      have hnone : h'.declared? c' name s = none := by
        rw [hix'.declared?_eq_none_iff]
        intro m' hm' hname hs
        have hdecl : m'.toMethodDecl ∈ (h.members c).map (·.toMethodDecl) :=
          ht.members_perm.mem_iff.mp (List.mem_map_of_mem hm')
        obtain ⟨m, hm, heq⟩ := List.mem_map.mp hdecl
        exact hix.declared?_eq_none_iff.mp hd m hm ((congrArg MethodDecl.name heq).trans hname)
          ((congrArg MethodDecl.signature heq).trans hs)
      rw [hnone]
      exact .none

/-- Twins inherit the same under a name and signature. -/
theorem nearest? (ht : h.Twin h' c c') (name : String) (s : Signature) :
    Option.Rel (h.Counterpart h') (h.nearest? c name s) (h'.nearest? c' name s) :=
  forall₂_findSome? (R := h.Twin h') (fun _ _ ha => hcov.declared? ha name s) (hcov.ancestors ht)

end Covers

end Hierarchy

end LateBinding
