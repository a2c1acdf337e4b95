import LateBinding.Proofs.Resolution.Selection

/-!
# LateBinding.Proofs.Resolution.SpecificityOrder

The order in which overload selection puts methods.

Two lists of parameter types are compared in one walk, position by position: the first type that
does not convert to its partner ends the walk, and a flag remembers whether any type before it
widened.  The walk comes to a statement without positions: the one method is more specific if the
other accepts its parameter types and has another signature.  So being more specific is a strict
order, which acceptance of arguments follows upwards, and comparing two methods either way round
gives opposite answers.
-/

namespace LateBinding

namespace Signature

variable {as bs : List Primitive} {a b c : Signature}

/-! ## the walk -/

/-- The answer of the walk from a position on, given whether a type before it has widened. -/
def walk (widened : Bool) : List (Primitive × Primitive) → Bool
  | [] => widened
  | (p, q) :: rest =>
    if p.convertsTo q then walk (widened || p.widensTo q) rest else false

/-- Whether one signature is more specific than another, by a single walk over both. -/
def walkMoreSpecific (a b : Signature) : Bool :=
  if a.arity = b.arity then walk false (a.params.zip b.params) else false

theorem length_eq_of_convertible (hab : convertible as bs = true) : as.length = bs.length := by
  induction as generalizing bs with
  | nil => cases bs <;> simp_all [convertible]
  | cons p as ih =>
      cases bs with
      | nil => simp [convertible] at hab
      | cons q bs => simp [ih (convertible_cons_iff.mp hab).2]

/-- The flag of the walk adds what has widened before to what widens from here on. -/
theorem walk_zip (widened : Bool) (hlen : as.length = bs.length) :
    walk widened (as.zip bs) = (convertible as bs && (widened || someWidens as bs)) := by
  induction as generalizing bs widened with
  | nil => cases bs <;> simp_all [walk, convertible, someWidens]
  | cons p as ih =>
      cases bs with
      | nil => simp at hlen
      | cons q bs =>
          have hrest := ih (widened || p.widensTo q) (Nat.succ.inj hlen)
          cases hpq : p.convertsTo q <;>
            simp [walk, convertible, someWidens, hpq, hrest, Bool.or_assoc]

theorem walkMoreSpecific_eq (a b : Signature) : a.walkMoreSpecific b = a.moreSpecific b := by
  rw [walkMoreSpecific, moreSpecific]
  split
  · next hlen => simp [walk_zip false hlen]
  · next hlen =>
      have hconv : convertible a.params b.params = false := by
        rw [Bool.eq_false_iff]
        exact fun hab => hlen (length_eq_of_convertible hab)
      simp [hconv]

/-! ## acceptance -/

/-- A signature accepts its own parameter types. -/
theorem accepts_params (s : Signature) : s.accepts s.params = true := convertible_self s.params

/-- What a signature accepts is accepted wherever its parameter types are. -/
theorem accepts_trans {args : List Primitive} (ha : a.accepts args = true)
    (hb : b.accepts a.params = true) : b.accepts args = true := convertible_trans ha hb

/-! ## both ways round -/

theorem moreSpecific_asymm (hab : a.moreSpecific b = true) : b.moreSpecific a = false := by
  rw [Bool.eq_false_iff]
  intro hba
  have haa := moreSpecific_trans hab hba
  rw [moreSpecific_self] at haa
  contradiction

theorem compareSpecificity_swap (a b : Signature) :
    b.compareSpecificity a = (a.compareSpecificity b).swap := by
  unfold compareSpecificity
  cases a.moreSpecific b <;> cases b.moreSpecific a <;> rfl

theorem compareSpecificity_eq_lt_iff :
    a.compareSpecificity b = .lt ↔ a.moreSpecific b = true := by
  unfold compareSpecificity
  cases hab : a.moreSpecific b with
  | true => simp [moreSpecific_asymm hab]
  | false => cases b.moreSpecific a <;> simp

end Signature

/-! ## methods -/

/-- A relation between methods is the strict order by acceptance of parameter types, and a
comparison reads it both ways round. -/
structure OrdersByAcceptance (more : Method → Method → Bool)
    (compare : Method → Method → Ordering) : Prop where
  iff_accepts : ∀ a b, more a b = true ↔
    b.signature.accepts a.signature.params = true ∧ a.signature ≠ b.signature
  irreflexive : ∀ a, more a a = false
  asymmetric : ∀ a b, more a b = true → more b a = false
  transitive : ∀ a b c, more a b = true → more b c = true → more a c = true
  compare_swap : ∀ a b, compare b a = (compare a b).swap
  compare_lt_iff : ∀ a b, compare a b = .lt ↔ more a b = true
  applicable : ∀ a b args, more a b = true → a.isApplicable args = true → b.isApplicable args = true

theorem ordersByAcceptance :
    OrdersByAcceptance Method.isMoreSpecific
      (fun a b => a.signature.compareSpecificity b.signature) where
  iff_accepts _ _ := Signature.moreSpecific_iff_accepts
  irreflexive := Method.isMoreSpecific_self
  asymmetric _ _ := Signature.moreSpecific_asymm
  transitive _ _ _ := Method.isMoreSpecific_trans
  compare_swap a b := a.signature.compareSpecificity_swap b.signature
  compare_lt_iff _ _ := Signature.compareSpecificity_eq_lt_iff
  applicable _ _ _ hab ha :=
    Signature.accepts_trans ha (Signature.moreSpecific_iff_accepts.mp hab).1

/-- **Specificity is a strict order that refines acceptance**, for parameter lists of any length:
the walk over two lists decides it, comparing either way round gives opposite answers, and
acceptance is itself reflexive and transitive. -/
theorem specificity_strict_order :
    (∀ a b : Method, a.isMoreSpecific b = a.signature.walkMoreSpecific b.signature) ∧
      OrdersByAcceptance Method.isMoreSpecific
        (fun a b => a.signature.compareSpecificity b.signature) ∧
      (∀ s : Signature, s.accepts s.params = true) ∧
      ∀ (s t : Signature) (args : List Primitive),
        s.accepts args = true → t.accepts s.params = true → t.accepts args = true :=
  ⟨fun a b => (a.signature.walkMoreSpecific_eq b.signature).symm, ordersByAcceptance,
    Signature.accepts_params, fun _ _ _ => Signature.accepts_trans⟩

/-- Neither of `(int, long)` and `(long, int)` is more specific, since the walk over either ends
at the `long` that does not convert; each is more specific than `(long, long)`. -/
example :
    Signature.compareSpecificity ⟨[.int, .long]⟩ ⟨[.long, .int]⟩ = .eq ∧
      Signature.walkMoreSpecific ⟨[.int, .long]⟩ ⟨[.long, .int]⟩ = false ∧
      Signature.compareSpecificity ⟨[.int, .long]⟩ ⟨[.long, .long]⟩ = .lt := by decide

end LateBinding
