import SqlLayout.Source

/-!
# Layouts of source texts

What the layout of a text is, apart from what is reported on the way.  It does not depend on whether
the work is logged, and only an SQL text can be without one.
-/

namespace SqlLayout

theorem layout_layOutSql (debug : Bool) (text : String) :
    (layOutSql debug text).layout =
      match format text with
      | .ok lines => .ok (some ("\n".intercalate lines))
      | .error fault => if fault.isInvalid then .ok none else .error fault := by
  simp only [layOutSql]
  cases format text with
  | ok lines => rfl
  | error fault => simp only [apply_ite LaidOut.layout]

theorem layout_layOutQueries_cons (debug : Bool) (query : Embedded.Query)
    (queries : List Embedded.Query) (text : String) :
    (layOutQueries debug (query :: queries) text).layout =
      match format query.sql with
      | .ok lines =>
        (layOutQueries debug queries
          (Text.replaceAll query.source (query.layout lines) text)).layout
      | .error fault =>
        if fault.isInvalid then (layOutQueries debug queries text).layout else .error fault := by
  simp only [layOutQueries]
  cases format query.sql with
  | ok lines => rfl
  | error fault => simp only [apply_ite LaidOut.layout]

theorem layout_layOutQueries (debug : Bool) (queries : List Embedded.Query) (text : String) :
    (layOutQueries debug queries text).layout = (layOutQueries false queries text).layout := by
  induction queries generalizing text with
  | nil => rfl
  | cons query queries ih => simp only [layout_layOutQueries_cons, ih]

/-- Logging does not change a layout. -/
theorem layout_layOut (kind : SourceKind) (debug : Bool) (text : String) :
    (layOut kind debug text).layout = (layOut kind false text).layout := by
  cases kind with
  | sql => simp only [layOut, layout_layOutSql]
  | python => exact layout_layOutQueries debug _ _

theorem layout_layOutQueries_ne_none (debug : Bool) (queries : List Embedded.Query)
    (text : String) : (layOutQueries debug queries text).layout ≠ .ok none := by
  induction queries generalizing text with
  | nil => simp [layOutQueries]
  | cons query queries ih =>
    rw [layout_layOutQueries_cons]
    split
    · exact ih _
    · split
      · exact ih _
      · simp

/-- Queries have a layout only if none of them stops the work. -/
theorem isInvalid_of_layout_layOutQueries {debug : Bool} {queries : List Embedded.Query}
    {text : String} {layout : Option String}
    (h : (layOutQueries debug queries text).layout = .ok layout) :
    ∀ query ∈ queries, ∀ fault, format query.sql = .error fault → fault.isInvalid = true := by
  induction queries generalizing text with
  | nil => simp
  | cons query queries ih =>
    rw [layout_layOutQueries_cons] at h
    cases hformat : format query.sql with
    | ok lines =>
      simp only [hformat] at h
      simpa [hformat] using ih h
    | error fault =>
      cases hinvalid : fault.isInvalid with
      | false => simp [hformat, hinvalid] at h
      | true =>
        simp only [hformat, hinvalid, if_true] at h
        simpa [hformat, hinvalid] using ih h

/-- Only the text of an SQL file can be without a layout, and it is if it is invalid. -/
theorem layout_layOut_eq_none_iff (kind : SourceKind) (debug : Bool) (text : String) :
    (layOut kind debug text).layout = .ok none ↔
      kind = .sql ∧ ∃ fault, format (String.ofList (Text.unifyLineEnds text.toList)) = .error fault ∧
        fault.isInvalid = true := by
  cases kind with
  | python =>
    simp only [reduceCtorEq, false_and, iff_false]
    exact layout_layOutQueries_ne_none debug _ _
  | sql =>
    simp only [layOut, layout_layOutSql, true_and]
    cases format (String.ofList (Text.unifyLineEnds text.toList)) with
    | ok lines => simp
    | error fault => simp

end SqlLayout
