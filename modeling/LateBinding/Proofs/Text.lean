import LateBinding.Signature

/-!
# LateBinding.Proofs.Text

Taking texts apart that were put together.  A text with a separator in it comes apart in one way
only if the separator occurs on one side of it alone; then a comma divides a list of types, and
the last opening parenthesis is where a signature starts.  A dot may occur on both sides, and
divides a text in several ways.
-/

namespace LateBinding

/-! ## separators -/

theorem append_cons_eq_append_cons_iff {α : Type} {a : α} {x y x' y' : List α} :
    x ++ a :: y = x' ++ a :: y' ↔ (x = x' ∧ y = y') ∨
      (∃ p, x' = x ++ a :: p ∧ y = p ++ a :: y') ∨ ∃ p, x = x' ++ a :: p ∧ y' = p ++ a :: y := by
  rw [List.append_eq_append_iff]
  constructor
  · rintro (⟨p, rfl, hy⟩ | ⟨p, rfl, hy⟩)
    · cases p with
      | nil => exact .inl ⟨(List.append_nil x).symm, (List.cons.inj hy).2⟩
      | cons b p =>
          obtain ⟨rfl, rfl⟩ := List.cons.inj hy
          exact .inr (.inl ⟨p, rfl, rfl⟩)
    · cases p with
      | nil => exact .inl ⟨List.append_nil x', (List.cons.inj hy).2.symm⟩
      | cons b p =>
          obtain ⟨rfl, rfl⟩ := List.cons.inj hy
          exact .inr (.inr ⟨p, rfl, rfl⟩)
  · rintro (⟨rfl, rfl⟩ | ⟨p, rfl, rfl⟩ | ⟨p, rfl, rfl⟩)
    · exact .inl ⟨[], (List.append_nil x).symm, rfl⟩
    · exact .inl ⟨a :: p, rfl, rfl⟩
    · exact .inr ⟨a :: p, rfl, rfl⟩

section Separator

variable {sep x y x' y' : String} {c : Char} (hsep : sep.toList = [c])

include hsep

theorem toList_append_sep_append : (x ++ sep ++ y).toList = x.toList ++ c :: y.toList := by
  simp [hsep]

/-- Two texts with a separator in them are equal if the parts before and after it are, or if one of
the parts goes on to a second separator, where the other text is divided. -/
theorem append_sep_append_eq_iff :
    x ++ sep ++ y = x' ++ sep ++ y' ↔ (x = x' ∧ y = y') ∨
      (∃ p, x' = x ++ sep ++ p ∧ y = p ++ sep ++ y') ∨
      ∃ p, x = x' ++ sep ++ p ∧ y' = p ++ sep ++ y := by
  have hparts : ∀ {x y x' y' : String},
      (∃ p, x'.toList = x.toList ++ c :: p ∧ y.toList = p ++ c :: y'.toList) ↔
        ∃ p, x' = x ++ sep ++ p ∧ y = p ++ sep ++ y' := by
    intro x y x' y'
    simp only [← String.toList_inj, toList_append_sep_append hsep]
    exact ⟨fun ⟨p, hp⟩ => ⟨String.ofList p, by simpa using hp⟩, fun ⟨p, hp⟩ => ⟨p.toList, hp⟩⟩
  rw [← String.toList_inj, toList_append_sep_append hsep, toList_append_sep_append hsep,
    append_cons_eq_append_cons_iff, hparts, hparts, String.toList_inj, String.toList_inj]

/-- The first separator divides a text in one way. -/
theorem eq_of_append_first_sep (hx : c ∉ x.toList) (hx' : c ∉ x'.toList)
    (heq : x ++ sep ++ y = x' ++ sep ++ y') : x = x' ∧ y = y' := by
  rcases (append_sep_append_eq_iff hsep).mp heq with hparts | ⟨p, rfl, -⟩ | ⟨p, rfl, -⟩
  · exact hparts
  · simp [toList_append_sep_append hsep] at hx'
  · simp [toList_append_sep_append hsep] at hx

/-- The last separator divides a text in one way. -/
theorem eq_of_append_last_sep (hy : c ∉ y.toList) (hy' : c ∉ y'.toList)
    (heq : x ++ sep ++ y = x' ++ sep ++ y') : x = x' ∧ y = y' := by
  rcases (append_sep_append_eq_iff hsep).mp heq with hparts | ⟨p, -, rfl⟩ | ⟨p, -, rfl⟩
  · exact hparts
  · simp [toList_append_sep_append hsep] at hy
  · simp [toList_append_sep_append hsep] at hy'

end Separator

/-! ## lists of types -/

namespace Primitive

variable {p q : Primitive}

theorem ofName?_name (p : Primitive) : ofName? p.name = some p := by cases p <;> rfl

/-- Types are told apart by their names. -/
theorem eq_of_name_eq (heq : p.name = q.name) : p = q := by
  have hp := ofName?_name p
  rw [heq, ofName?_name] at hp
  exact (Option.some.inj hp).symm

theorem comma_notMem_name (p : Primitive) : ',' ∉ p.name.toList := by cases p <;> decide

theorem paren_notMem_name (p : Primitive) : '(' ∉ p.name.toList := by cases p <;> decide

theorem name_ne_empty (p : Primitive) : p.name ≠ "" := by cases p <;> decide

end Primitive

variable {p q : Primitive} {ps qs : List Primitive}

theorem commaSeparated_cons_cons :
    commaSeparated (p :: q :: ps) = p.name ++ "," ++ (" " ++ commaSeparated (q :: ps)) := by
  have hcons : commaSeparated (p :: q :: ps) = p.name ++ ("," ++ " ") ++ commaSeparated (q :: ps) :=
    rfl
  rw [hcons]
  simp only [String.append_assoc]

theorem commaSeparated_cons_ne_empty : commaSeparated (p :: ps) ≠ "" := by
  cases ps with
  | nil => exact p.name_ne_empty
  | cons q ps => simp [commaSeparated_cons_cons]

/-- The text of two or more types is not the name of one. -/
theorem name_ne_commaSeparated {q' : Primitive} : p.name ≠ commaSeparated (q :: q' :: qs) := by
  intro heq
  have hcomma : ',' ∈ p.name.toList := by simp [heq, commaSeparated_cons_cons]
  exact p.comma_notMem_name hcomma

theorem paren_notMem_commaSeparated (ps : List Primitive) : '(' ∉ (commaSeparated ps).toList := by
  induction ps with
  | nil => decide
  | cons p ps ih =>
      cases ps with
      | nil => exact p.paren_notMem_name
      | cons q ps => simp [commaSeparated_cons_cons, p.paren_notMem_name, ih]

/-- Lists of types are told apart by their texts. -/
theorem eq_of_commaSeparated_eq (heq : commaSeparated ps = commaSeparated qs) : ps = qs := by
  induction ps generalizing qs with
  | nil =>
      cases qs with
      | nil => rfl
      | cons q qs => exact absurd heq.symm commaSeparated_cons_ne_empty
  | cons p ps ih =>
      cases qs with
      | nil => exact absurd heq commaSeparated_cons_ne_empty
      | cons q qs =>
          cases ps with
          | nil =>
              cases qs with
              | nil => rw [Primitive.eq_of_name_eq heq]
              | cons q' qs => exact absurd heq name_ne_commaSeparated
          | cons p' ps =>
              cases qs with
              | nil => exact absurd heq.symm name_ne_commaSeparated
              | cons q' qs =>
                  rw [commaSeparated_cons_cons, commaSeparated_cons_cons] at heq
                  obtain ⟨hname, hrest⟩ :=
                    eq_of_append_first_sep rfl p.comma_notMem_name q.comma_notMem_name heq
                  rw [Primitive.eq_of_name_eq hname, ih ((String.append_right_inj " ").mp hrest)]

namespace Signature

variable {s s' : Signature}

theorem append_text (x : String) (s : Signature) :
    x ++ s.text = x ++ "(" ++ (commaSeparated s.params ++ ")") := by
  simp only [text, parenthesized, String.append_assoc]

/-- A text that ends with a signature comes apart where the signature starts. -/
theorem append_text_eq_iff {x x' : String} :
    x ++ s.text = x' ++ s'.text ↔ x = x' ∧ s = s' := by
  refine ⟨fun heq => ?_, fun ⟨hx, hs⟩ => by rw [hx, hs]⟩
  have hparen : ∀ ps : List Primitive, '(' ∉ (commaSeparated ps ++ ")").toList := by
    intro ps
    simp [paren_notMem_commaSeparated]
  rw [append_text, append_text] at heq
  obtain ⟨hx, hparams⟩ := eq_of_append_last_sep rfl (hparen _) (hparen _) heq
  have hs : s.params = s'.params := eq_of_commaSeparated_eq ((String.append_left_inj ")").mp hparams)
  exact ⟨hx, by cases s; cases s'; exact congrArg Signature.mk hs⟩

end Signature

end LateBinding
