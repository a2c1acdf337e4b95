import LateBinding.Proofs.Scenario.Entries

/-!
# LateBinding.Proofs.Hierarchy.Tables

What the tables of a hierarchy list: the names of its classes, the links to their parents, and
the methods of each class.

Well-formedness says what the lists are; here that is read as what a user of the tables relies
on.  Every name stands for one class.  The way up from a class ends at a root.  Every method is
listed once where it belongs, in the order of declaration, and nowhere else.
-/

namespace LateBinding.Hierarchy

variable {h : Hierarchy} {c d p : ClassId} {k : ClassInfo} {m : Method} {name : String}

/-! ## names of classes -/

/-- The table of names has each class under its own name, and no name twice. -/
structure NamesAgree (h : Hierarchy) : Prop where
  distinct : (h.classes.map (·.name)).Nodup
  classNamed?_iff : ∀ name c, h.classNamed? name = some c ↔ ∃ k, h.class? c = some k ∧ k.name = name

theorem Indexed.namesAgree (hix : h.Indexed) : h.NamesAgree where
  distinct := by
    have hnames := hix.nodup_names
    rwa [entries, List.map_map] at hnames
  classNamed?_iff := by
    intro name c
    rw [hix.classNamed?_iff, Option.map_eq_some_iff]

/-! ## the way up -/

/-- The classes met on the way up from a class, from parent to parent, until one that has
none. -/
inductive WayUp (h : Hierarchy) : ClassId → List ClassId → Prop
  | root {c : ClassId} {k : ClassInfo} (known : h.class? c = some k) (top : k.parent = none) :
      WayUp h c [c]
  | child {c p : ClassId} {k : ClassInfo} {cs : List ClassId} (known : h.class? c = some k)
      (below : k.parent = some p) (rest : WayUp h p cs) : WayUp h c (c :: cs)

/-- A way up ends at a root. -/
theorem WayUp.exists_root {cs : List ClassId} (hup : h.WayUp c cs) :
    ∃ r k, cs.getLast? = some r ∧ h.class? r = some k ∧ k.parent = none := by
  induction hup with
  | root known top => exact ⟨_, _, rfl, known, top⟩
  | child known below rest ih =>
      obtain ⟨r, k, hlast, hr, htop⟩ := ih
      refine ⟨r, k, ?_, hr, htop⟩
      rw [List.getLast?_cons, hlast, Option.getD_some]

/-- The lineage of a class is the way up from it. -/
theorem Acyclic.wayUp_ancestors (hac : h.Acyclic) (hk : h.class? c = some k) :
    h.WayUp c (h.ancestors c) := by
  refine hac.induction (P := fun c => h.WayUp c (h.ancestors c)) ?_ ?_ hk
  · intro c k hk hp
    rw [ancestors_of_root hk hp]
    exact .root hk hp
  · intro c k p hk hp ih
    rw [hac.ancestors_of_child hk hp]
    exact .child hk hp ih

/-- There is one way up from a class. -/
theorem Acyclic.eq_of_wayUp (hac : h.Acyclic) {cs : List ClassId} (hup : h.WayUp c cs) :
    cs = h.ancestors c := by
  induction hup with
  | root known top => rw [ancestors_of_root known top]
  | child known below _ ih => rw [hac.ancestors_of_child known below, ih]

/-- Parents come before their children.  So the way up from a class ends at a root and meets no
class twice; and being a descendant is an order, in which the classes above one class form a
chain. -/
structure Ordered (h : Hierarchy) : Prop where
  parent_lt : ∀ c k p, h.class? c = some k → k.parent = some p → p.index < c.index
  wayUp : ∀ c, c.index < h.classes.length → h.WayUp c (h.ancestors c)
  no_repeat : ∀ c, (h.ancestors c).Nodup
  ends_at_root : ∀ c, c.index < h.classes.length →
    ∃ r k, (h.ancestors c).getLast? = some r ∧ h.class? r = some k ∧ k.parent = none
  reflexive : ∀ c, c.index < h.classes.length → h.isSameOrDescendant c c = true
  transitive : ∀ a b c, h.isSameOrDescendant a b = true → h.isSameOrDescendant b c = true →
    h.isSameOrDescendant a c = true
  antisymmetric : ∀ a b, h.isSameOrDescendant a b = true → h.isSameOrDescendant b a = true → a = b
  comparable : ∀ a b c, h.isSameOrDescendant c a = true → h.isSameOrDescendant c b = true →
    h.isSameOrDescendant a b = true ∨ h.isSameOrDescendant b a = true

/-- The numbers below the count of classes are those of the classes. -/
theorem exists_class?_of_lt (hc : c.index < h.classes.length) : ∃ k, h.class? c = some k :=
  ⟨h.classes[c.index], List.getElem?_eq_getElem hc⟩

theorem Acyclic.ordered (hac : h.Acyclic) : h.Ordered where
  parent_lt := fun _ _ _ hk hp => hac hk hp
  wayUp := by
    intro c hc
    obtain ⟨k, hk⟩ := exists_class?_of_lt hc
    exact hac.wayUp_ancestors hk
  no_repeat := by
    intro c
    cases hk : h.class? c with
    | none => simp [ancestors_of_unknown hk]
    | some k => exact hac.nodup_ancestors hk
  ends_at_root := by
    intro c hc
    obtain ⟨k, hk⟩ := exists_class?_of_lt hc
    exact (hac.wayUp_ancestors hk).exists_root
  reflexive := by
    intro c hc
    obtain ⟨k, hk⟩ := exists_class?_of_lt hc
    exact isSameOrDescendant_iff.mpr (mem_ancestors_self hk)
  transitive := by
    simp only [isSameOrDescendant_iff]
    intro a b c hba hcb
    exact hac.mem_ancestors_trans hcb hba
  antisymmetric := by
    simp only [isSameOrDescendant_iff]
    intro a b hba hab
    exact hac.eq_of_mem_ancestors hab hba
  comparable := by
    simp only [isSameOrDescendant_iff]
    intro a b c hac' hbc
    exact (hac.mem_ancestors_or hac' hbc).symm

/-! ## methods of classes -/

/-- How often a list of methods holds the number of a method. -/
def timesListed (ms : List Method) (m : Method) : Nat := (ms.map (·.id)).count m.id

/-- Of the methods that pass a test, each is listed once, and the others are not. -/
theorem Indexed.timesListed_filter (hix : h.Indexed) (hm : m ∈ h.methods) {q : Method → Bool}
    {passes : Prop} [Decidable passes] (hq : q m = true ↔ passes) :
    timesListed (h.methods.filter q) m = if passes then 1 else 0 := by
  have hnodup : ((h.methods.filter q).map (·.id)).Nodup := by
    rw [List.Nodup, List.pairwise_map]
    refine (hix.pairwise_id.filter q).imp fun hlt heq => ?_
    rw [heq] at hlt
    exact Nat.lt_irrefl _ hlt
  have hmem : m.id ∈ (h.methods.filter q).map (·.id) ↔ passes := by
    rw [List.mem_map, ← hq]
    constructor
    · rintro ⟨x, hx, hid⟩
      obtain ⟨hall, hqx⟩ := List.mem_filter.mp hx
      rwa [← hix.eq_of_id_eq hall hm hid]
    · intro hqm
      exact ⟨m, List.mem_filter.mpr ⟨hm, hqm⟩, rfl⟩
  rw [timesListed, hnodup.count]
  simp only [hmem]

/-- Every method is listed once among the methods of its class, and once among those of its name
there, and in no other list; the lists hold nothing else, in the order of the numbers.  A class
has no two methods of one name and signature. -/
structure MembersListed (h : Hierarchy) : Prop where
  id_eq : ∀ (i : Nat) (m : Method), h.methods[i]? = some m → m.id = ⟨i⟩
  owner_known : ∀ m ∈ h.methods, m.owner.index < h.classes.length
  members_once : ∀ m ∈ h.methods, ∀ c,
    timesListed (h.members c) m = if c = m.owner then 1 else 0
  members_known : ∀ c, ∀ m ∈ h.members c, m ∈ h.methods
  members_increasing : ∀ c, (h.members c).Pairwise fun m m' => m.id.index < m'.id.index
  membersNamed_once : ∀ m ∈ h.methods, ∀ c name,
    timesListed (h.membersNamed c name) m = if c = m.owner ∧ name = m.name then 1 else 0
  membersNamed_known : ∀ c name, ∀ m ∈ h.membersNamed c name, m ∈ h.methods
  distinct : ∀ m ∈ h.methods, ∀ m' ∈ h.methods, m.owner = m'.owner → m.name = m'.name →
    m.signature = m'.signature → m = m'

theorem Indexed.membersListed (hix : h.Indexed) : h.MembersListed where
  id_eq := fun _ _ hm => hix.id_eq hm
  owner_known := by
    intro m hm
    obtain ⟨k, hk⟩ := hix.owner_known hm
    exact index_lt_of_class? hk
  members_once := by
    intro m hm c
    rw [hix.members_eq]
    exact hix.timesListed_filter hm (by grind)
  members_known := fun _ _ hm => (hix.mem_members_iff.mp hm).1
  members_increasing := by
    intro c
    rw [hix.members_eq]
    exact hix.pairwise_id.filter _
  membersNamed_once := by
    intro m hm c name
    rw [hix.membersNamed_eq, hix.members_eq, List.filter_filter]
    exact hix.timesListed_filter hm (by grind)
  membersNamed_known := fun _ _ _ hm =>
    (hix.mem_members_iff.mp (hix.mem_membersNamed_iff.mp hm).1).1
  distinct := fun _ hm _ hm' => hix.eq_of_same_signature hm hm'

/-- **The tables of a hierarchy agree**, however its declarations were ordered, and whether they
were accepted or rejected: the names with the classes, the parents with the order of the
classes, and the lists of each class with the list of all methods. -/
theorem tables_agree (hr : h.Reachable) : h.NamesAgree ∧ h.Ordered ∧ h.MembersListed :=
  have hwf := hr.wellFormed
  ⟨hwf.indexed.namesAgree, hwf.acyclic.ordered, hwf.indexed.membersListed⟩

/-- In the hierarchy of three classes, the override is listed once in the last class, under its
name, and the way up from there meets all three. -/
theorem tables_agree_threeGenerations :
    threeGenerations.NamesAgree ∧ threeGenerations.WayUp ⟨2⟩ [⟨2⟩, ⟨1⟩, ⟨0⟩] ∧
      ∃ m ∈ threeGenerations.methods, m.kind = .override ∧
        timesListed (threeGenerations.members ⟨2⟩) m = 1 ∧
        timesListed (threeGenerations.membersNamed ⟨1⟩ "f") m = 0 := by
  obtain ⟨hnames, hordered, hlisted⟩ := tables_agree reachable_threeGenerations
  refine ⟨hnames, hordered.wayUp ⟨2⟩ (by decide), ?_⟩
  have hm : (⟨{ name := "f", signature := ⟨[.long]⟩, kind := .override }, ⟨1⟩, ⟨2⟩, some ⟨0⟩,
      none⟩ : Method) ∈ threeGenerations.methods := by decide
  exact ⟨_, hm, rfl, hlisted.members_once _ hm ⟨2⟩, hlisted.membersNamed_once _ hm ⟨1⟩ "f"⟩

end LateBinding.Hierarchy
