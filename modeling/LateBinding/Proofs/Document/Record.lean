import LateBinding.Document.Decode
import Mathlib.Data.List.Nodup

/-!
# LateBinding.Proofs.Document.Record

Changes to a document that make no difference to what is read from it.

A decoder of records reads the known fields and nothing else.  So it is enough to say, field by
field, what may happen to the value that is given for it: it is changed in a way that its decoder
does not see, or dropped where it has its default value.  `RecordEdit` lists the changes of one
record, in both of its forms; `RecordEdit.record?` turns each of them into a change of one field.
-/

namespace LateBinding

/-- A list of fields may be short. -/
theorem Dialect.admitsLength_of_le (dialect : Dialect) {fields items : Nat} (hle : items ≤ fields) :
    dialect.admitsLength fields items = true := by
  cases dialect with
  | toml => rfl
  | json => exact decide_eq_true hle

namespace Document

/-- A kind of change: which documents may become which. -/
abbrev Edits := Document → Document → Prop

/-- A decoder to which the edits make no difference. -/
def Unaffected {α : Type} (decode : Document → Option α) (edits : Edits) : Prop :=
  ∀ ⦃d d' : Document⦄, edits d d' → decode d' = decode d

/-! ## lists -/

/-- One element of a list is edited. -/
inductive ListEdit (edits : Edits) : Edits
  | item (before after : List Document) {d d' : Document} (hitem : edits d d') :
      ListEdit edits (.array (before ++ d :: after)) (.array (before ++ d' :: after))

section Lists

variable {α : Type} {decode : Document → Option α}

theorem decodeAll_congr_item {before after : List Document} {d d' : Document}
    (hitem : decode d' = decode d) :
    decodeAll decode (before ++ d' :: after) = decodeAll decode (before ++ d :: after) := by
  induction before with
  | nil => simp [decodeAll, hitem]
  | cons b before ih => simp [decodeAll, ih]

theorem Unaffected.list? {edits : Edits} (hitems : Unaffected decode edits) :
    Unaffected (list? decode) (ListEdit edits) := by
  rintro _ _ ⟨before, after, hitem⟩
  exact decodeAll_congr_item (hitems hitem)

/-- A list is read back if its elements are. -/
theorem decodeAll_map {encode : α → Document} (hencode : ∀ a, decode (encode a) = some a)
    (as : List α) : decodeAll decode (as.map encode) = some as := by
  induction as with
  | nil => rfl
  | cons a as ih => simp [decodeAll, hencode, ih]

end Lists

/-! ## fields -/

section Values

variable {α : Type} (decode : Document → Option α) (d : Document)

@[simp] theorem required_some : required decode (some d) = decode d := rfl

-- Not `rfl`: what unfolds by `rfl` here would unfold the decoder of counts with its bound.
@[simp] theorem defaulted_some (default : α) : defaulted default decode (some d) = decode d := by
  rw [defaulted]

@[simp] theorem defaulted_none (default : α) : defaulted default decode none = some default := rfl

variable {decode}

/-- What is read of a field with a default is as the default and all decoded values are. -/
theorem of_defaulted_eq_some {p : α → Prop} {default a : α} {given : Option Document}
    (hdefault : p default) (hdecode : ∀ d a, decode d = some a → p a)
    (ha : defaulted default decode given = some a) : p a := by
  cases given with
  | none =>
      obtain rfl := Option.some.inj ha
      exact hdefault
  | some d => exact hdecode d a (by simpa using ha)

end Values

/-- What may happen to a field: which values may be dropped, and which may be edited. -/
structure Field where
  name : String
  Drops : Document → Prop
  edits : Edits

namespace Field

/-- A field that must be given. -/
def required (name : String) (edits : Edits) : Field := ⟨name, fun _ => False, edits⟩

/-- A field that has a default, which need not be given. -/
def defaulted {α : Type} (name : String) (default : α) (decode : Document → Option α)
    (edits : Edits) : Field :=
  ⟨name, fun d => decode d = some default, edits⟩

@[simp] theorem name_required (name : String) (edits : Edits) :
    (Field.required name edits).name = name := rfl

@[simp] theorem name_defaulted {α : Type} (name : String) (default : α)
    (decode : Document → Option α) (edits : Edits) :
    (Field.defaulted name default decode edits).name = name := rfl

/-- One change at most of what is given for the field. -/
inductive Edit (f : Field) : Option Document → Option Document → Prop
  | same (given : Option Document) : f.Edit given given
  | change {d d' : Document} (hedit : f.edits d d') : f.Edit (some d) (some d')
  | drop {d : Document} (hdrops : f.Drops d) : f.Edit (some d) none

section Reading

variable {α : Type} {decode : Document → Option α} {edits : Edits} {name : String}
  {given given' : Option Document}

theorem Edit.required_eq (hedits : Unaffected decode edits)
    (hedit : (Field.required name edits).Edit given given') :
    Document.required decode given' = Document.required decode given := by
  cases hedit with
  | same => rfl
  | change hchange => exact hedits hchange
  | drop hdrops => exact hdrops.elim

theorem Edit.defaulted_eq {default : α} (hedits : Unaffected decode edits)
    (hedit : (Field.defaulted name default decode edits).Edit given given') :
    Document.defaulted default decode given' = Document.defaulted default decode given := by
  cases hedit with
  | same => rfl
  | change hchange => exact hedits hchange
  | drop hdrops => exact Eq.symm hdrops

end Reading

/-- The names of fields, in order. -/
def names (fields : List Field) : List String := fields.map (·.name)

@[simp] theorem length_names (fields : List Field) : (names fields).length = fields.length :=
  List.length_map _

theorem name_mem_names {f : Field} {fields : List Field} (hf : f ∈ fields) :
    f.name ∈ names fields :=
  List.mem_map_of_mem hf

end Field

/-! ## records -/

/-- One change of a record.  A table may get further keys, what is given beside the fields may be
anything, and any field may be edited, or dropped with its only entry; in a list of fields, which
tells them by their places, only the last may be dropped. -/
inductive RecordEdit (fields : List Field) : Edits
  | addKey (before after : List (String × Document)) {key : String} (value : Document)
      (hkey : ∀ f ∈ fields, f.name ≠ key) :
      RecordEdit fields (.table (before ++ after)) (.table (before ++ (key, value) :: after))
  | otherEntry (before after : List (String × Document)) {key : String} (value value' : Document)
      (hkey : ∀ f ∈ fields, f.name ≠ key) :
      RecordEdit fields (.table (before ++ (key, value) :: after))
        (.table (before ++ (key, value') :: after))
  | changeEntry (before after : List (String × Document)) {f : Field} {d d' : Document}
      (hf : f ∈ fields) (hedit : f.edits d d') :
      RecordEdit fields (.table (before ++ (f.name, d) :: after))
        (.table (before ++ (f.name, d') :: after))
  | dropEntry (before after : List (String × Document)) {f : Field} {d : Document}
      (hf : f ∈ fields) (honly : ∀ e ∈ before ++ after, e.1 ≠ f.name) (hdrops : f.Drops d) :
      RecordEdit fields (.table (before ++ (f.name, d) :: after)) (.table (before ++ after))
  | otherItem (before after : List Document) (d d' : Document)
      (hlength : fields.length ≤ before.length) :
      RecordEdit fields (.array (before ++ d :: after)) (.array (before ++ d' :: after))
  | changeItem (before after : List Document) {f : Field} {d d' : Document}
      (hf : fields[before.length]? = some f) (hedit : f.edits d d') :
      RecordEdit fields (.array (before ++ d :: after)) (.array (before ++ d' :: after))
  | dropLast {items : List Document} {f : Field} {d : Document}
      (hf : fields[items.length]? = some f) (hdrops : f.Drops d) :
      RecordEdit fields (.array (items ++ [d])) (.array items)

/-- One change at most of what is given for each field. -/
def FieldsEdited (fields : List Field) (read read' : String → Option Document) : Prop :=
  ∀ f ∈ fields, f.Edit (read f.name) (read' f.name)

/-- What a list of fields gives for each field, by its name. -/
def atPlace (fields : List Field) (items : List Document) (name : String) : Option Document :=
  items[(Field.names fields).idxOf name]?

section Keys

variable {before after entries : List (String × Document)} {key name : String} {value : Document}

theorem lookup_append_cons_ne (hname : name ≠ key) :
    (before ++ (key, value) :: after).lookup name = (before ++ after).lookup name := by
  simp [List.lookup_append, List.lookup_cons, beq_eq_false_iff_ne.mpr hname]

theorem lookup_eq_none (hnone : ∀ e ∈ entries, e.1 ≠ key) : entries.lookup key = none := by
  rw [List.lookup_eq_none_iff]
  intro e he
  simpa using Ne.symm (hnone e he)

/-- The only entry of a key is the one that is found. -/
theorem lookup_append_cons_self (honly : ∀ e ∈ before ++ after, e.1 ≠ key) :
    (before ++ (key, value) :: after).lookup key = some value := by
  have hbefore : before.lookup key = none :=
    lookup_eq_none fun e he => honly e (List.mem_append_left after he)
  simp [List.lookup_append, hbefore]

theorem count_keys_append_cons_ne (hname : name ≠ key) :
    ((before ++ (key, value) :: after).map (·.1)).count name =
      ((before ++ after).map (·.1)).count name := by
  simp [List.count_cons_of_ne hname.symm]

theorem count_keys_eq_zero (hnone : ∀ e ∈ entries, e.1 ≠ key) :
    (entries.map (·.1)).count key = 0 := by
  rw [List.count_eq_zero, List.mem_map]
  rintro ⟨e, he, heq⟩
  exact hnone e he heq

/-- The only entry of a key gives it once. -/
theorem count_keys_append_cons_self (honly : ∀ e ∈ before ++ after, e.1 ≠ key) :
    ((before ++ (key, value) :: after).map (·.1)).count key = 1 := by
  have hnone := count_keys_eq_zero honly
  rw [List.map_append, List.count_append] at hnone
  rw [List.map_append, List.map_cons, List.count_append, List.count_cons_self]
  omega

end Keys

section Records

variable {fields : List Field} {dialect : Dialect} {f g : Field}

/-- The fields are told apart by their names, so a change of what is given for one is no change of
the others. -/
theorem fieldsEdited_of_one (hnodup : (Field.names fields).Nodup)
    {read read' : String → Option Document} (hf : f ∈ fields)
    (hedit : f.Edit (read f.name) (read' f.name))
    (hothers : ∀ g ∈ fields, g.name ≠ f.name → read' g.name = read g.name) :
    FieldsEdited fields read read' := by
  intro g hg
  by_cases hname : g.name = f.name
  · obtain rfl : g = f := List.inj_on_of_nodup_map hnodup hg hf hname
    exact hedit
  · rw [hothers g hg hname]
    exact .same _

/-- In a list of fields, a field stands at its own place. -/
theorem idxOf_name_eq_iff (hnodup : (Field.names fields).Nodup) {i : Nat}
    (hf : fields[i]? = some f) (hg : g ∈ fields) :
    (Field.names fields).idxOf g.name = i ↔ g.name = f.name := by
  have hname : (Field.names fields)[i]? = some f.name := by simp [Field.names, hf]
  constructor
  · intro hi
    have hplace := List.getElem?_idxOf (Field.name_mem_names hg)
    rw [hi, hname] at hplace
    exact (Option.some.inj hplace).symm
  · intro heq
    obtain ⟨hlt, hget⟩ := List.getElem?_eq_some_iff.mp hname
    rw [heq, ← hget, hnodup.idxOf_getElem]

/-- A change at one place of a list of fields is one of the field that stands there. -/
theorem fieldsEdited_atPlace (hnodup : (Field.names fields).Nodup) {items items' : List Document}
    {i : Nat} (hf : fields[i]? = some f) (hedit : f.Edit items[i]? items'[i]?)
    (hothers : ∀ j ≠ i, items'[j]? = items[j]?) :
    FieldsEdited fields (atPlace fields items) (atPlace fields items') := by
  have hmem : f ∈ fields := List.mem_of_getElem? hf
  refine fieldsEdited_of_one hnodup hmem ?_ fun g hg hname => ?_
  · rwa [atPlace, atPlace, (idxOf_name_eq_iff hnodup hf hmem).mpr rfl]
  · exact hothers _ fun hi => hname ((idxOf_name_eq_iff hnodup hf hg).mp hi)

/-- A table is a record exactly if it gives no field twice, and then every key gives its entry. -/
theorem record?_table_eq_some_iff {names : List String} {entries : List (String × Document)}
    {given : String → Option Document} :
    (Document.table entries).record? dialect names = some given ↔
      (∀ name ∈ names, (entries.map (·.1)).count name ≤ 1) ∧ (entries.lookup ·) = given := by
  simp [Document.record?, repeatsField]

/-- A table whose keys are all different is a record. -/
theorem record?_table {names : List String} {entries : List (String × Document)}
    (hkeys : (entries.map (·.1)).Nodup) :
    (Document.table entries).record? dialect names = some (entries.lookup ·) :=
  record?_table_eq_some_iff.mpr ⟨fun name _ => List.nodup_iff_count_le_one.mp hkeys name, rfl⟩

/-- A table that gives the same fields twice is a record where the other one is. -/
theorem record?_table_rel {entries entries' : List (String × Document)}
    (hcount : ∀ f ∈ fields, 1 < (entries.map (·.1)).count f.name ↔
      1 < (entries'.map (·.1)).count f.name)
    (hfields : FieldsEdited fields (entries.lookup ·) (entries'.lookup ·)) :
    Option.Rel (FieldsEdited fields)
      ((Document.table entries).record? dialect (Field.names fields))
      ((Document.table entries').record? dialect (Field.names fields)) := by
  have hrepeats : repeatsField (Field.names fields) entries' =
      repeatsField (Field.names fields) entries := by
    rw [Bool.eq_iff_iff]
    simpa [repeatsField, Field.names] using
      exists_congr fun f => and_congr_right fun hf => (hcount f hf).symm
  unfold Document.record?
  simp only [hrepeats]
  split
  · exact .none
  · exact .some hfields

theorem record?_array {items : List Document} (hle : items.length ≤ fields.length) :
    (Document.array items).record? dialect (Field.names fields) = some (atPlace fields items) :=
  if_pos (dialect.admitsLength_of_le (by simpa using hle))

/-- A list of as many fields is a record where the other one is. -/
theorem record?_array_rel {items items' : List Document} (hlength : items'.length = items.length)
    (hfields : FieldsEdited fields (atPlace fields items) (atPlace fields items')) :
    Option.Rel (FieldsEdited fields) ((Document.array items).record? dialect (Field.names fields))
      ((Document.array items').record? dialect (Field.names fields)) := by
  unfold Document.record?
  simp only [hlength]
  split
  · exact .some hfields
  · exact .none

theorem edit_lookup_changeEntry {before after : List (String × Document)} {d d' : Document}
    (hedit : f.edits d d') :
    f.Edit ((before ++ (f.name, d) :: after).lookup f.name)
      ((before ++ (f.name, d') :: after).lookup f.name) := by
  cases hbefore : before.lookup f.name with
  | none => simpa [List.lookup_append, hbefore] using Field.Edit.change hedit
  | some d₀ => simpa [List.lookup_append, hbefore] using Field.Edit.same (some d₀)

/-- A change of a record is one of what is given for its fields. -/
theorem RecordEdit.record? (hnodup : (Field.names fields).Nodup) {d d' : Document}
    (hedit : RecordEdit fields d d') :
    Option.Rel (FieldsEdited fields) (d.record? dialect (Field.names fields))
      (d'.record? dialect (Field.names fields)) := by
  cases hedit with
  | addKey before after value hkey =>
      refine record?_table_rel (fun f hf => ?_) fun f hf => ?_
      · rw [count_keys_append_cons_ne (hkey f hf)]
      · simpa only [lookup_append_cons_ne (hkey f hf)] using Field.Edit.same _
  | otherEntry before after value value' hkey =>
      refine record?_table_rel (fun f _ => by simp) fun f hf => ?_
      simpa only [lookup_append_cons_ne (hkey f hf)] using Field.Edit.same _
  | changeEntry before after hf hchange =>
      refine record?_table_rel (fun f _ => by simp)
        (fieldsEdited_of_one hnodup hf (edit_lookup_changeEntry hchange) ?_)
      intro g _ hname
      rw [lookup_append_cons_ne hname, lookup_append_cons_ne hname]
  | @dropEntry before after f d hf honly hdrops =>
      refine record?_table_rel (fun g _ => ?_) (fieldsEdited_of_one hnodup hf ?_ ?_)
      · by_cases hname : g.name = f.name
        · rw [hname, count_keys_append_cons_self honly, count_keys_eq_zero honly]
          decide
        · rw [count_keys_append_cons_ne hname]
      · simpa only [lookup_append_cons_self honly, lookup_eq_none honly] using
          Field.Edit.drop hdrops
      · intro g _ hname
        rw [lookup_append_cons_ne hname]
  | otherItem before after d d' hlength =>
      refine record?_array_rel (by simp) fun g hg => ?_
      have hplace := List.idxOf_lt_length_of_mem (Field.name_mem_names hg)
      have hbefore : (Field.names fields).idxOf g.name < before.length := by
        rw [Field.length_names] at hplace
        omega
      simpa [atPlace, List.getElem?_append_left hbefore] using Field.Edit.same _
  | changeItem before after hf hchange =>
      refine record?_array_rel (by simp) (fieldsEdited_atPlace hnodup hf ?_ fun j hj => ?_)
      · simpa using Field.Edit.change hchange
      · grind
  | @dropLast items f d hf hdrops =>
      have hfields : FieldsEdited fields (atPlace fields (items ++ [d])) (atPlace fields items) := by
        refine fieldsEdited_atPlace hnodup hf ?_ fun j hj => ?_
        · simpa using Field.Edit.drop hdrops
        · grind
      have hlt : items.length < fields.length := (List.getElem?_eq_some_iff.mp hf).1
      rw [record?_array (by simp; omega), record?_array (by omega)]
      exact .some hfields

/-- A decoder of records is unaffected by changes of a record if its reading of the fields is by
changes of what is given for them. -/
theorem unaffected_record? {α : Type} (hnodup : (Field.names fields).Nodup)
    {read : (String → Option Document) → Option α}
    (hread : ∀ given given', FieldsEdited fields given given' → read given' = read given) :
    Unaffected (fun d => d.record? dialect (Field.names fields) >>= read) (RecordEdit fields) := by
  intro d d' hedit
  have hrel : Option.Rel _ (d.record? dialect _) _ := hedit.record? hnodup
  change d'.record? dialect (Field.names fields) >>= read =
    d.record? dialect (Field.names fields) >>= read
  generalize d.record? dialect (Field.names fields) = given? at hrel ⊢
  generalize d'.record? dialect (Field.names fields) = given?' at hrel ⊢
  cases hrel with
  | some hgiven => exact hread _ _ hgiven
  | none => rfl

end Records

end Document

end LateBinding
