import LateBinding.Table

/-!
# LateBinding.Proofs.Table

The laws of tables: what is read after a write, and that the keys of a table
written from nothing are distinct, so that reading a key finds its only entry.
A write puts a new key last and moves none of the others.
-/

namespace LateBinding.Table

variable {κ ν : Type} [DecidableEq κ]

/-! ## reading -/

@[simp] theorem get?_empty (k : κ) : (empty : Table κ ν).get? k = none := rfl

/-- Reading after a write finds the value written, and leaves other keys alone. -/
theorem lookup_put (k k' : κ) (v : ν) (es : List (κ × ν)) :
    (put k v es).lookup k' = if k' = k then some v else es.lookup k' := by
  induction es with
  | nil =>
      by_cases h : k' = k
      · simp [put, h]
      · simp [put, List.lookup_cons, beq_eq_false_iff_ne.mpr h, h]
  | cons e es ih =>
      obtain ⟨k₀, v₀⟩ := e
      by_cases h₀ : k₀ = k
      · subst h₀
        by_cases h : k' = k₀
        · simp [put, h]
        · simp [put, List.lookup_cons, beq_eq_false_iff_ne.mpr h, h]
      · rw [put, if_neg h₀, List.lookup_cons, List.lookup_cons, ih]
        by_cases h : k' = k₀
        · simp [h, h₀]
        · rw [beq_eq_false_iff_ne.mpr h]

theorem get?_insert (t : Table κ ν) (k k' : κ) (v : ν) :
    (t.insert k v).get? k' = if k' = k then some v else t.get? k' :=
  lookup_put k k' v t.entries

/-- Pushing under a key adds one element to the list stored there. -/
theorem get?_push {α : Type} (t : Table κ (List α)) (k k' : κ) (a : α) :
    (t.push k a).get? k' = if k' = k then some ((t.get? k).getD [] ++ [a]) else t.get? k' :=
  get?_insert t k k' _

/-! ## keys -/

/-- The keys are what something is stored under. -/
theorem mem_keys_iff {t : Table κ ν} {k : κ} : k ∈ t.keys ↔ ∃ v, t.get? k = some v := by
  rw [← Option.isSome_iff_exists, get?, List.lookup_isSome_iff, keys, List.mem_map]
  simp only [beq_iff_eq]
  exact exists_congr fun e => and_congr_right fun _ => eq_comm

theorem mem_keys_put {k k' : κ} {v : ν} {es : List (κ × ν)} :
    k' ∈ (put k v es).map Prod.fst ↔ k' = k ∨ k' ∈ es.map Prod.fst := by
  induction es with
  | nil => simp [put]
  | cons e es ih =>
      obtain ⟨k₀, v₀⟩ := e
      by_cases h₀ : k₀ = k
      · simp [put, h₀]
      · rw [put, if_neg h₀, List.map_cons, List.mem_cons, ih, List.map_cons, List.mem_cons]
        exact or_left_comm

/-- A write keeps the keys distinct. -/
theorem nodup_keys_put {k : κ} {v : ν} {es : List (κ × ν)} (h : (es.map Prod.fst).Nodup) :
    ((put k v es).map Prod.fst).Nodup := by
  induction es with
  | nil => simp [put]
  | cons e es ih =>
      obtain ⟨k₀, v₀⟩ := e
      obtain ⟨hnew, hrest⟩ := List.nodup_cons.mp h
      by_cases h₀ : k₀ = k
      · subst h₀
        simpa [put] using h
      · rw [put, if_neg h₀, List.map_cons, List.nodup_cons, mem_keys_put]
        refine ⟨?_, ih hrest⟩
        rintro (hk | hk)
        · exact h₀ hk
        · exact hnew hk

theorem nodup_keys_insert {t : Table κ ν} (k : κ) (v : ν) (h : t.keys.Nodup) :
    (t.insert k v).keys.Nodup := nodup_keys_put h

/-- A write of a new key puts it last, and a write of a known key moves none. -/
theorem keys_put (k : κ) (v : ν) (es : List (κ × ν)) :
    (put k v es).map Prod.fst =
      if k ∈ es.map Prod.fst then es.map Prod.fst else es.map Prod.fst ++ [k] := by
  induction es with
  | nil => simp [put]
  | cons e es ih =>
      obtain ⟨k₀, v₀⟩ := e
      by_cases h₀ : k₀ = k
      · simp [put, h₀]
      · rw [put, if_neg h₀, List.map_cons, ih, List.map_cons]
        by_cases hk : k ∈ es.map Prod.fst
        · rw [if_pos hk, if_pos (List.mem_cons_of_mem k₀ hk)]
        · have hnew : k ∉ k₀ :: es.map Prod.fst := by
            rw [List.mem_cons, not_or]
            exact ⟨Ne.symm h₀, hk⟩
          rw [if_neg hk, if_neg hnew, List.cons_append]

theorem keys_insert (t : Table κ ν) (k : κ) (v : ν) :
    (t.insert k v).keys = if k ∈ t.keys then t.keys else t.keys ++ [k] :=
  keys_put k v t.entries

/-- Where keys are distinct, the entries are exactly what reading finds. -/
theorem mem_entries_iff {t : Table κ ν} (h : t.keys.Nodup) (k : κ) (v : ν) :
    (k, v) ∈ t.entries ↔ t.get? k = some v := by
  obtain ⟨es⟩ := t
  change (es.map Prod.fst).Nodup at h
  change (k, v) ∈ es ↔ es.lookup k = some v
  induction es with
  | nil => simp
  | cons e es ih =>
      obtain ⟨k₀, v₀⟩ := e
      obtain ⟨hnew, hrest⟩ := List.nodup_cons.mp h
      rw [List.mem_cons, List.lookup_cons, ih hrest]
      by_cases hk : k = k₀
      · subst hk
        have hnone : es.lookup k = none := by
          rw [List.lookup_eq_none_iff]
          intro e he
          simp only [bne_iff_ne, ne_eq]
          intro hke
          exact hnew (List.mem_map.mpr ⟨e, he, hke.symm⟩)
        simp [hnone, eq_comm]
      · rw [beq_eq_false_iff_ne.mpr hk]
        simp [hk]

end LateBinding.Table
