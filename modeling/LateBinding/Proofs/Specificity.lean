import LateBinding.Signature

/-!
# LateBinding.Proofs.Specificity

The order that overload selection rests on.  Widening is a strict order on types, and
conversion adds equality to it; both carry over to lists of types, position by position.
So being more specific is a strict order on signatures, and it is acceptance of the parameter
types of another signature.
-/

namespace LateBinding

namespace Primitive

variable {p q r : Primitive}

/-! ## types -/

@[simp] theorem widensTo_self (p : Primitive) : p.widensTo p = false := by cases p <;> rfl

theorem mem_all (p : Primitive) : p ∈ all := by cases p <;> decide

theorem widensTo_trans (hpq : p.widensTo q = true) (hqr : q.widensTo r = true) :
    p.widensTo r = true := by
  have hall : ∀ p ∈ all, ∀ q ∈ all, ∀ r ∈ all,
      p.widensTo q = true → q.widensTo r = true → p.widensTo r = true := by decide
  exact hall p (mem_all p) q (mem_all q) r (mem_all r) hpq hqr

theorem convertsTo_iff : p.convertsTo q = true ↔ p = q ∨ p.widensTo q = true := by
  simp [convertsTo]

@[simp] theorem convertsTo_self (p : Primitive) : p.convertsTo p = true :=
  convertsTo_iff.mpr (.inl rfl)

/-- A widening followed by a conversion is a widening. -/
theorem widensTo_of_convertsTo (hpq : p.widensTo q = true) (hqr : q.convertsTo r = true) :
    p.widensTo r = true := by
  rcases convertsTo_iff.mp hqr with rfl | hqr
  · exact hpq
  · exact widensTo_trans hpq hqr

theorem convertsTo_trans (hpq : p.convertsTo q = true) (hqr : q.convertsTo r = true) :
    p.convertsTo r = true := by
  rcases convertsTo_iff.mp hpq with rfl | hpq
  · exact hqr
  · exact convertsTo_iff.mpr (.inr (widensTo_of_convertsTo hpq hqr))

end Primitive

namespace Signature

variable {as bs cs : List Primitive} {a b c : Signature}

/-! ## lists of types -/

theorem convertible_cons_iff {p q : Primitive} :
    convertible (p :: as) (q :: bs) = true ↔ p.convertsTo q = true ∧ convertible as bs = true := by
  simp [convertible]

theorem convertible_self (as : List Primitive) : convertible as as = true := by
  induction as with
  | nil => rfl
  | cons p as ih => exact convertible_cons_iff.mpr ⟨p.convertsTo_self, ih⟩

theorem convertible_trans (hab : convertible as bs = true) (hbc : convertible bs cs = true) :
    convertible as cs = true := by
  induction as generalizing bs cs with
  | nil =>
      cases bs with
      | nil => exact hbc
      | cons q bs => simp [convertible] at hab
  | cons p as ih =>
      cases bs with
      | nil => simp [convertible] at hab
      | cons q bs =>
          cases cs with
          | nil => simp [convertible] at hbc
          | cons r cs =>
              obtain ⟨hpq, hab⟩ := convertible_cons_iff.mp hab
              obtain ⟨hqr, hbc⟩ := convertible_cons_iff.mp hbc
              exact convertible_cons_iff.mpr ⟨Primitive.convertsTo_trans hpq hqr, ih hab hbc⟩

/-- Where some type widens, it still does after a conversion of all of them. -/
theorem someWidens_of_convertible (hab : someWidens as bs = true)
    (hbc : convertible bs cs = true) : someWidens as cs = true := by
  induction as generalizing bs cs with
  | nil => simp [someWidens] at hab
  | cons p as ih =>
      cases bs with
      | nil => simp [someWidens] at hab
      | cons q bs =>
          cases cs with
          | nil => simp [convertible] at hbc
          | cons r cs =>
              obtain ⟨hqr, hbc⟩ := convertible_cons_iff.mp hbc
              simp only [someWidens, Bool.or_eq_true] at hab ⊢
              rcases hab with hpq | hab
              · exact .inl (Primitive.widensTo_of_convertsTo hpq hqr)
              · exact .inr (ih hab hbc)

/-- Where lists of types differ, a conversion of one to the other widens some type. -/
theorem someWidens_of_ne (hab : convertible as bs = true) (hne : as ≠ bs) :
    someWidens as bs = true := by
  induction as generalizing bs with
  | nil =>
      cases bs with
      | nil => exact absurd rfl hne
      | cons q bs => simp [convertible] at hab
  | cons p as ih =>
      cases bs with
      | nil => simp [convertible] at hab
      | cons q bs =>
          obtain ⟨hpq, hrest⟩ := convertible_cons_iff.mp hab
          simp only [someWidens, Bool.or_eq_true]
          rcases Primitive.convertsTo_iff.mp hpq with rfl | hwidens
          · exact .inr (ih hrest fun heq => hne (by rw [heq]))
          · exact .inl hwidens

/-! ## signatures -/

/-- A signature that accepts arguments accepts all that convert to them. -/
theorem accepts_of_convertible (hab : convertible as bs = true) (hacc : a.accepts bs = true) :
    a.accepts as = true := convertible_trans hab hacc

theorem moreSpecific_iff :
    a.moreSpecific b = true ↔
      convertible a.params b.params = true ∧ someWidens a.params b.params = true := by
  simp [moreSpecific]

/-- No signature is more specific than itself. -/
theorem moreSpecific_self (s : Signature) : s.moreSpecific s = false := by
  have hwidens : ∀ ps, someWidens ps ps = false := by
    intro ps
    induction ps with
    | nil => rfl
    | cons p ps ih => simp only [someWidens, Primitive.widensTo_self, ih, Bool.or_self]
  simp [moreSpecific, hwidens]

/-- A signature is more specific than the others that accept its own parameter types. -/
theorem moreSpecific_iff_accepts :
    a.moreSpecific b = true ↔ b.accepts a.params = true ∧ a ≠ b := by
  constructor
  · intro hab
    refine ⟨(moreSpecific_iff.mp hab).1, ?_⟩
    rintro rfl
    rw [moreSpecific_self] at hab
    contradiction
  · rintro ⟨hacc, hne⟩
    refine moreSpecific_iff.mpr ⟨hacc, someWidens_of_ne hacc fun heq => hne ?_⟩
    cases a
    cases b
    exact congrArg Signature.mk heq

theorem moreSpecific_trans (hab : a.moreSpecific b = true) (hbc : b.moreSpecific c = true) :
    a.moreSpecific c = true := by
  obtain ⟨hconv, hwidens⟩ := moreSpecific_iff.mp hab
  obtain ⟨hconv', -⟩ := moreSpecific_iff.mp hbc
  exact moreSpecific_iff.mpr
    ⟨convertible_trans hconv hconv', someWidens_of_convertible hwidens hconv'⟩

end Signature

end LateBinding
