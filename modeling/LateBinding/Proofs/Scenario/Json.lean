import LateBinding.Scenario.Render
import LateBinding.Proofs.Text
import LateBinding.Proofs.Document.Json

/-!
# LateBinding.Proofs.Scenario.Json

The results of a scenario are recovered from their JSON text.

The fields of a result share one table with those of its outcome, and what is absent is left out.
The keys still tell which is which: after the call comes the outcome by its name, which fixes the
keys that follow, and no outcome ends in an expectation or a trace.
-/

namespace LateBinding

@[simp] theorem Document.words_inj {ws ws' : List String} :
    Document.words ws = Document.words ws' ↔ ws = ws' := by
  simp [words, List.map_inj_right]

theorem Document.unnumbered_words (ws : List String) : Unnumbered (.words ws) := by
  refine .array fun d hd => ?_
  obtain ⟨w, -, rfl⟩ := List.mem_map.mp hd
  exact .string w

theorem Primitive.map_name_inj {ps ps' : List Primitive} :
    ps.map (·.name) = ps'.map (·.name) ↔ ps = ps' :=
  List.map_inj_right fun _ _ => eq_of_name_eq

/-! ## one result -/

namespace CallReport

theorem unnumbered_of_mem_entries {r : CallReport} {e : String × Document} (he : e ∈ r.entries) :
    Document.Unnumbered e.2 := by
  obtain ⟨call, outcome⟩ := r
  cases outcome with
  | resolved className method signature dynamic =>
      simp only [entries, List.mem_cons, List.not_mem_nil, or_false] at he
      rcases he with rfl | rfl | rfl | rfl | rfl | rfl
      case inr.inr.inr.inr.inl => exact Document.unnumbered_words _
      case inr.inr.inr.inr.inr => exact .bool _
      all_goals exact .string _
  | failed kind message =>
      simp only [entries, List.mem_cons, List.not_mem_nil, or_false] at he
      rcases he with rfl | rfl | rfl | rfl
      all_goals exact .string _

/-- The fields of a report show where they end, whatever fields follow them. -/
theorem entries_append_inj {r r' : CallReport} {more more' : List (String × Document)}
    (heq : r.entries ++ more = r'.entries ++ more') : r = r' ∧ more = more' := by
  obtain ⟨call, outcome⟩ := r
  obtain ⟨call', outcome'⟩ := r'
  cases outcome with
  | resolved className method signature dynamic =>
      cases outcome' with
      | resolved className' method' signature' dynamic' =>
          obtain ⟨params⟩ := signature
          obtain ⟨params'⟩ := signature'
          simp_all [entries, Primitive.map_name_inj]
      | failed kind' message' => simp [entries] at heq
  | failed kind message =>
      cases outcome' with
      | resolved className' method' signature' dynamic' => simp [entries] at heq
      | failed kind' message' => simp_all [entries]

end CallReport

namespace RunEntry

theorem unnumbered_document (e : RunEntry) : e.document.Unnumbered := by
  refine .table fun field hfield => ?_
  obtain ⟨report, expected, trace⟩ := e
  simp only [List.mem_append] at hfield
  rcases hfield with (hreport | hexpected) | htrace
  · exact CallReport.unnumbered_of_mem_entries hreport
  · cases expected with
    | none => simp at hexpected
    | some text =>
        obtain rfl := List.mem_singleton.mp hexpected
        exact .string text
  · split at htrace
    · simp at htrace
    · obtain rfl := List.mem_singleton.mp htrace
      exact Document.unnumbered_words trace

/-- A result is told by its document.  An expectation and a trace have keys of their own, and the
trace that is left out is the empty one. -/
theorem document_inj {e e' : RunEntry} (heq : e.document = e'.document) : e = e' := by
  obtain ⟨report, expected, trace⟩ := e
  obtain ⟨report', expected', trace'⟩ := e'
  simp only [document, Document.table.injEq, List.append_assoc] at heq
  obtain ⟨rfl, hmore⟩ := CallReport.entries_append_inj heq
  cases expected <;> cases expected' <;> cases trace <;> cases trace' <;> simp_all

end RunEntry

/-! ## all results -/

namespace Run

theorem unnumbered_document (r : Run) : r.document.Unnumbered := by
  refine .table fun field hfield => ?_
  obtain rfl := List.mem_singleton.mp hfield
  refine .array fun d hd => ?_
  obtain ⟨e, -, rfl⟩ := List.mem_map.mp hd
  exact e.unnumbered_document

theorem document_inj {r r' : Run} (heq : r.document = r'.document) : r = r' := by
  obtain ⟨entries⟩ := r
  obtain ⟨entries'⟩ := r'
  have hentries : entries.map (·.document) = entries'.map (·.document) := by
    simpa [document] using heq
  rw [(List.map_inj_right fun _ _ => RunEntry.document_inj).mp hentries]

/-- **JSON loses nothing**: runs with the same JSON text are the same in every call, outcome,
expectation and trace. -/
theorem json_eq_iff (r r' : Run) : r.json = r'.json ↔ r = r' :=
  ⟨fun heq =>
    document_inj (r.unnumbered_document.jsonText_inj r'.unnumbered_document heq),
    fun heq => by rw [heq]⟩

end Run

end LateBinding
