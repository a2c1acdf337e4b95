import LateBinding.Document.Json

/-!
# LateBinding.Proofs.Document.Json

JSON text tells documents apart, as long as they hold no numbers and no dates.

The text of a value shows where it ends, whatever follows it: a string ends at the first quote that
is not escaped, an array or object at its bracket.  So every statement here is about texts with an
arbitrary continuation, and the text of a list comes apart into those of its elements.
-/

namespace LateBinding.Document

/-! ## strings -/

/-- The value of a hexadecimal digit. -/
def hexValue (c : Char) : Nat := if c.isDigit then c.toNat - 48 else c.toNat - 87

/-- What an escape of one letter stands for. -/
def unescapeLetter : Char → Char
  | 'b' => .ofNat 0x08
  | 't' => .ofNat 0x09
  | 'n' => .ofNat 0x0a
  | 'f' => .ofNat 0x0c
  | 'r' => .ofNat 0x0d
  | c => c

/-- The characters of a string up to its closing quote, and what follows it. -/
def unescape? : List Char → Option (List Char × List Char)
  | [] => none
  | '"' :: rest => some ([], rest)
  | '\\' :: 'u' :: _ :: _ :: hi :: lo :: rest =>
    (unescape? rest).map (·.map (.ofNat (16 * hexValue hi + hexValue lo) :: ·) id)
  | '\\' :: c :: rest => (unescape? rest).map (·.map (unescapeLetter c :: ·) id)
  | c :: rest => (unescape? rest).map (·.map (c :: ·) id)

theorem hexValue_digitChar : ∀ n < 16, hexValue (Nat.digitChar n) = n := by decide

/-- The two digits of an escape by number give the character back. -/
theorem ofNat_hexValue {c : Char} (hc : c.toNat < 0x20) :
    Char.ofNat (16 * hexValue (Nat.digitChar (c.toNat / 16)) +
      hexValue (Nat.digitChar (c.toNat % 16))) = c := by
  rw [hexValue_digitChar _ (by omega), hexValue_digitChar _ (by omega), Nat.div_add_mod,
    Char.ofNat_toNat]

theorem unescape?_escapeChar (c : Char) (rest : List Char) :
    unescape? (escapeChar c ++ rest) = (unescape? rest).map (·.map (c :: ·) id) := by
  have hletter : ∀ {n : Nat}, c.toNat = n → c = Char.ofNat n := fun hn => by
    rw [← hn, Char.ofNat_toNat]
  unfold escapeChar
  split
  · next h => simp [unescape?, unescapeLetter, h]
  split
  · next h => simp [unescape?, unescapeLetter, h]
  split
  · next h => obtain rfl := hletter h; rfl
  split
  · next h => obtain rfl := hletter h; rfl
  split
  · next h => obtain rfl := hletter h; rfl
  split
  · next h => obtain rfl := hletter h; rfl
  split
  · next h => obtain rfl := hletter h; rfl
  split
  · next h => simp [unescape?, ofNat_hexValue h]
  · next hquote hbackslash _ _ _ _ _ _ => simp [unescape?, hbackslash]

/-- A string is read back up to its closing quote. -/
theorem unescape?_escape (s rest : List Char) :
    unescape? (escape s ++ '"' :: rest) = some (s, rest) := by
  induction s with
  | nil => rfl
  | cons c s ih =>
      have happ : escape (c :: s) ++ '"' :: rest = escapeChar c ++ (escape s ++ '"' :: rest) := by
        simp [escape]
      rw [happ, unescape?_escapeChar, ih]
      rfl

/-- A quoted string shows where it ends. -/
theorem quoted_append_inj {s s' : String} {rest rest' : List Char}
    (heq : quoted s ++ rest = quoted s' ++ rest') : s = s' ∧ rest = rest' := by
  have hread := congrArg (unescape? ·.tail) heq
  simp only [quoted, List.cons_append, List.append_assoc, List.tail_cons, List.nil_append,
    unescape?_escape, Option.some.injEq, Prod.mk.injEq] at hread
  exact ⟨String.toList_inj.mp hread.1, hread.2⟩

/-! ## values -/

/-- A document without numbers and dates. -/
inductive Unnumbered : Document → Prop
  | null : Unnumbered .null
  | bool (b : Bool) : Unnumbered (.bool b)
  | string (s : String) : Unnumbered (.string s)
  | array {items : List Document} (hitems : ∀ d ∈ items, Unnumbered d) : Unnumbered (.array items)
  | table {entries : List (String × Document)} (hentries : ∀ e ∈ entries, Unnumbered e.2) :
      Unnumbered (.table entries)

/-- The first character of a value, which tells what kind of value it is. -/
def mark : Document → Char
  | .null => 'n'
  | .bool b => if b then 't' else 'f'
  | .array _ => '['
  | .table _ => '{'
  | _ => '"'

theorem Unnumbered.head?_jsonChars {d : Document} (hd : Unnumbered d) (level : Nat)
    (rest : List Char) : (jsonChars level d ++ rest).head? = some d.mark := by
  cases hd with
  | null => rfl
  | bool b => cases b <;> rfl
  | string s => simp [jsonChars, quoted, mark]
  | array hitems => next items => cases items <;> simp [jsonChars, mark]
  | table hentries =>
      next entries => rcases entries with _ | ⟨⟨key, value⟩, more⟩ <;> simp [jsonChars, mark]

theorem Unnumbered.mark_eq {d d' : Document} (hd : Unnumbered d) (hd' : Unnumbered d')
    {level : Nat} {rest rest' : List Char}
    (heq : jsonChars level d ++ rest = jsonChars level d' ++ rest') : d.mark = d'.mark := by
  have hhead := congrArg List.head? heq
  rwa [hd.head?_jsonChars, hd'.head?_jsonChars, Option.some.injEq] at hhead

/-- A document whose text shows where it ends, and is the text of no other document. -/
def TellsApart (d : Document) : Prop :=
  ∀ {level : Nat} {d' : Document} {rest rest' : List Char}, Unnumbered d' →
    jsonChars level d ++ rest = jsonChars level d' ++ rest' → d = d' ∧ rest = rest'

section Lists

variable {level : Nat} {rest rest' : List Char}

theorem moreItems_append_inj {items items' : List Document} (hitems : ∀ d ∈ items, TellsApart d)
    (hitems' : ∀ d ∈ items', Unnumbered d)
    (heq : moreItems level items ++ rest = moreItems level items' ++ rest') :
    items = items' ∧ rest = rest' := by
  induction items generalizing items' with
  | nil =>
      cases items' with
      | nil => simpa [moreItems] using heq
      | cons d' items' => simp [moreItems, lineBreak] at heq
  | cons d items ih =>
      cases items' with
      | nil => simp [moreItems, lineBreak] at heq
      | cons d' items' =>
          simp only [moreItems, List.cons_append, List.append_assoc, List.cons.injEq, true_and,
            List.append_cancel_left_eq] at heq
          obtain ⟨rfl, hmore⟩ := hitems d (by simp) (hitems' d' (by simp)) heq
          obtain ⟨rfl, rfl⟩ := ih (fun d hd => hitems d (by simp [hd]))
            (fun d hd => hitems' d (by simp [hd])) hmore
          exact ⟨rfl, rfl⟩

theorem keyChars_append_inj {key key' : String}
    (heq : keyChars key ++ rest = keyChars key' ++ rest') : key = key' ∧ rest = rest' := by
  simp only [keyChars, List.append_assoc] at heq
  obtain ⟨rfl, hmore⟩ := quoted_append_inj heq
  exact ⟨rfl, by simpa using hmore⟩

theorem moreEntries_append_inj {entries entries' : List (String × Document)}
    (hentries : ∀ e ∈ entries, TellsApart e.2) (hentries' : ∀ e ∈ entries', Unnumbered e.2)
    (heq : moreEntries level entries ++ rest = moreEntries level entries' ++ rest') :
    entries = entries' ∧ rest = rest' := by
  induction entries generalizing entries' with
  | nil =>
      rcases entries' with _ | ⟨⟨key', value'⟩, entries'⟩
      · simpa [moreEntries] using heq
      · simp [moreEntries, lineBreak] at heq
  | cons e entries ih =>
      obtain ⟨key, value⟩ := e
      rcases entries' with _ | ⟨⟨key', value'⟩, entries'⟩
      · simp [moreEntries, lineBreak] at heq
      · simp only [moreEntries, List.cons_append, List.append_assoc, List.cons.injEq, true_and,
          List.append_cancel_left_eq] at heq
        obtain ⟨rfl, hvalue⟩ := keyChars_append_inj heq
        obtain ⟨rfl, hmore⟩ :=
          hentries (key, value) (by simp) (hentries' (key, value') (by simp)) hvalue
        obtain ⟨rfl, rfl⟩ := ih (fun e he => hentries e (by simp [he]))
          (fun e he => hentries' e (by simp [he])) hmore
        exact ⟨rfl, rfl⟩

/-- The first item of an array is followed by the same text as a later one. -/
theorem array_append_inj {items items' : List Document} (hitems : ∀ d ∈ items, TellsApart d)
    (hitems' : ∀ d ∈ items', Unnumbered d)
    (heq : jsonChars level (.array items) ++ rest = jsonChars level (.array items') ++ rest') :
    items = items' ∧ rest = rest' := by
  cases items with
  | nil =>
      cases items' with
      | nil => simpa [jsonChars] using heq
      | cons d' items' => simp [jsonChars, lineBreak] at heq
  | cons d items =>
      cases items' with
      | nil => simp [jsonChars, lineBreak] at heq
      | cons d' items' =>
          have htail := (List.cons.inj heq).2
          exact moreItems_append_inj hitems hitems' (congrArg (',' :: ·) htail)

/-- The first entry of a table is followed by the same text as a later one. -/
theorem table_append_inj {entries entries' : List (String × Document)}
    (hentries : ∀ e ∈ entries, TellsApart e.2) (hentries' : ∀ e ∈ entries', Unnumbered e.2)
    (heq : jsonChars level (.table entries) ++ rest = jsonChars level (.table entries') ++ rest') :
    entries = entries' ∧ rest = rest' := by
  rcases entries with _ | ⟨⟨key, value⟩, entries⟩ <;>
    rcases entries' with _ | ⟨⟨key', value'⟩, entries'⟩
  · simpa [jsonChars] using heq
  · simp [jsonChars, lineBreak] at heq
  · simp [jsonChars, lineBreak] at heq
  · have htail := (List.cons.inj heq).2
    exact moreEntries_append_inj hentries hentries' (congrArg (',' :: ·) htail)

end Lists

/-- The text of a value shows where it ends, and tells the value apart from all others. -/
theorem Unnumbered.tellsApart {d : Document} (hd : Unnumbered d) : TellsApart d := by
  induction hd with
  | null =>
      intro level d' rest rest' hd' heq
      have hmark := Unnumbered.null.mark_eq hd' heq
      cases hd' with
      | null => simpa using heq
      | _ => grind [mark]
  | bool b =>
      intro level d' rest rest' hd' heq
      have hmark := (Unnumbered.bool b).mark_eq hd' heq
      cases hd' with
      | bool b' => cases b <;> cases b' <;> simp_all [mark]
      | _ => grind [mark]
  | string s =>
      intro level d' rest rest' hd' heq
      have hmark := (Unnumbered.string s).mark_eq hd' heq
      cases hd' with
      | string s' =>
          obtain ⟨rfl, hrest⟩ := quoted_append_inj heq
          exact ⟨rfl, hrest⟩
      | _ => grind [mark]
  | array hitems ih =>
      intro level d' rest rest' hd' heq
      have hmark := (Unnumbered.array hitems).mark_eq hd' heq
      cases hd' with
      | array hitems' =>
          obtain ⟨rfl, hrest⟩ := array_append_inj ih hitems' heq
          exact ⟨rfl, hrest⟩
      | _ => grind [mark]
  | table hentries ih =>
      intro level d' rest rest' hd' heq
      have hmark := (Unnumbered.table hentries).mark_eq hd' heq
      cases hd' with
      | table hentries' =>
          obtain ⟨rfl, hrest⟩ := table_append_inj ih hentries' heq
          exact ⟨rfl, hrest⟩
      | _ => grind [mark]

/-- Documents without numbers and dates are the same if their texts are. -/
theorem Unnumbered.jsonText_inj {d d' : Document} (hd : Unnumbered d) (hd' : Unnumbered d')
    (heq : jsonText d = jsonText d') : d = d' := by
  have hchars := String.ofList_injective heq
  exact (hd.tellsApart hd' (congrArg (· ++ []) hchars)).1

end LateBinding.Document
