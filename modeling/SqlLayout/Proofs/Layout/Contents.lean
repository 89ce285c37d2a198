import SqlLayout.Proofs.Layout.Composition
import SqlLayout.Proofs.Layout.Marks

/-!
# What the buffer holds

A buffer that takes its last line back while pieces are pending puts these in front of that line.  A layout
takes a line back only where none is pending, so the buffer holds, at every point of a run, the texts that
were passed to it, all of them and in their order.
-/

namespace SqlLayout

namespace LineBuffer

/-- All the text of a buffer: its finished lines and the pieces that wait for the end of theirs. -/
def contents (buffer : LineBuffer) : List Char :=
  buffer.lines.flatMap String.toList ++ buffer.line.toList

variable {buffer next : LineBuffer}

theorem contents_add (buffer : LineBuffer) (text : String) :
    (buffer.add text).contents = buffer.contents ++ text.toList := by
  simp [contents, line_add]

/-- A line that is dropped has no text. -/
theorem contents_endLine (buffer : LineBuffer) : buffer.endLine.contents = buffer.contents := by
  by_cases h : buffer.line = ""
  · have hpending : String.join buffer.pending = "" := h
    simp [contents, endLine, hpending, line]
  · have hpending : String.join buffer.pending ≠ "" := h
    simp [contents, endLine, hpending, line]

theorem contents_of_pending (h : buffer.pending = []) :
    buffer.contents = buffer.lines.flatMap String.toList := by
  simp [contents, line, h]

theorem contents_extendLast? {text : String} (hpending : buffer.pending = [])
    (h : buffer.extendLast? text = some next) : next.contents = buffer.contents ++ text.toList := by
  unfold extendLast? at h
  split at h
  · cases h
  next final hfinal =>
    cases h
    obtain ⟨front, hfront⟩ := List.getLast?_eq_some_iff.mp hfinal
    rw [contents_endLine, contents_add, contents_add]
    simp [contents, line, hpending, hfront]

end LineBuffer

namespace Edit

open LineBuffer

variable {clean after : Bool} {edits front back : List Edit}

theorem Settles.of_extendLast {text : String}
    (h : Settles clean (front ++ .extendLast text :: back) after) : Settles clean front true := by
  induction front generalizing clean with
  | nil =>
    cases h
    exact settles_nil
  | cons edit front ih =>
    cases h with
    | add h => exact .add (ih h)
    | addLine h => exact .addLine (ih h)
    | blankLines h => exact .blankLines (ih h)
    | endLine h => exact .endLine (ih h)
    | extendLast h => exact .extendLast (ih h)

/-- Each edit puts its text behind all the others: no piece is pending where one takes a line back. -/
theorem Settles.contents_eq {buffer last : LineBuffer} (h : Settles clean edits after)
    (hbuffer : clean = true → buffer.pending = []) (hlast : buffer.steps? edits = some last) :
    last.contents = buffer.contents ++ edits.flatMap chars := by
  induction h generalizing buffer with
  | nil _ =>
    cases hlast
    exact (List.append_nil _).symm
  | add _ ih =>
    rw [ih (fun hfalse ↦ absurd hfalse Bool.false_ne_true) hlast, contents_add, List.append_assoc]
    rfl
  | addLine _ ih =>
    rw [ih (fun _ ↦ rfl) hlast, contents_endLine, contents_add, List.append_assoc]
    rfl
  | @blankLines _ _ count _ _ ih =>
    have hblank : (buffer.blankLines count).contents = buffer.endLine.contents := by
      simp [contents, LineBuffer.blankLines, line]
    rw [ih (fun _ ↦ rfl) hlast, hblank, contents_endLine]
    rfl
  | endLine _ ih =>
    rw [ih (fun _ ↦ rfl) hlast, contents_endLine]
    rfl
  | extendLast _ ih =>
    obtain ⟨next, hnext, hrest⟩ := Option.bind_eq_some_iff.mp hlast
    rw [ih (fun _ ↦ pending_extendLast? hnext) hrest, contents_extendLast? (hbuffer rfl) hnext,
      List.append_assoc]
    rfl

end Edit

namespace Layout

/-- Every line that a layout takes back is taken back with no piece pending, and the lines hold the texts
that were passed to the buffer, in the order in which they were passed. -/
theorem contents_of_style {indent : Int} {nodes : List Node} {styled : Styled}
    (h : style indent nodes = .ok styled) :
    (∀ front text back, (statements indent nodes).edits = front ++ .extendLast text :: back →
        ∃ buffer : LineBuffer, ({} : LineBuffer).steps? front = some buffer ∧ buffer.pending = []) ∧
      (String.join styled.lines).toList = (statements indent nodes).edits.flatMap Edit.chars := by
  obtain ⟨⟨tree, last⟩, hwrite, hstyled⟩ := Read.bind_eq_ok.mp h
  cases hstyled
  unfold Draft.write at hwrite
  split at hwrite
  · cases hwrite
  next written hsteps =>
    obtain ⟨tree, houtcome, hfound⟩ := Read.map_eq_ok.mp hwrite
    cases hfound
    have hsettles : Edit.Settles true (statements indent nodes).edits true :=
      settles_layout.1 indent nodes tree houtcome
    constructor
    · intro front text back hedits
      rw [hedits] at hsteps hsettles
      rw [LineBuffer.steps?_append] at hsteps
      obtain ⟨buffer, hbuffer, -⟩ := Option.bind_eq_some_iff.mp hsteps
      exact ⟨buffer, hbuffer, hsettles.of_extendLast.pending_eq (fun _ ↦ rfl) hbuffer⟩
    · rw [String.toList_join, ← LineBuffer.contents_of_pending (hsettles.pending_eq (fun _ ↦ rfl) hsteps)]
      exact hsettles.contents_eq (fun _ ↦ rfl) hsteps

theorem contents_of_style_storedSearch :
    ∃ styled, style 1 storedSearch = .ok styled ∧
      styled.lines = ["INSERT INTO", "    t (a)", "    SELECT", "        b", "    WHERE",
        "        NOT c IN (", "            SELECT", "                d);"] ∧
      (String.join styled.lines).toList = (statements 1 storedSearch).edits.flatMap Edit.chars :=
  (exists_style_of_toOption (by decide +kernel)).imp fun _ h ↦ ⟨h.1, h.2, (contents_of_style h.1).2⟩

end Layout

end SqlLayout
