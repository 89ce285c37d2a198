import SqlLayout.LineBuffer
import SqlLayout.Proofs.Text.Classes

/-!
# The text of a list of edits

What a buffer holds is read as one text in which a line feed stands in front of every line.  Each edit
then adds to the end of this text, and what it adds depends only on whether the line that is being
written has text.  The single exception is an edit that extends the last line while a line is being
written, and no layout asks for that.
-/

namespace SqlLayout

open Text

namespace Edit

/-- The line feed in front of a line that gets its first text. -/
def opening (fresh : Bool) : List Char :=
  if fresh then ['\n'] else []

/-- What a list of edits adds to the text of a buffer; `fresh` tells whether the line that is being
written has no text. -/
def text : (fresh : Bool) → List Edit → List Char
  | _, [] => []
  | fresh, .add piece :: edits =>
    if piece = "" then text fresh edits else opening fresh ++ (piece.toList ++ text false edits)
  | fresh, .addLine piece :: edits =>
    if piece = "" then text true edits else opening fresh ++ (piece.toList ++ text true edits)
  | _, .blankLines count :: edits => List.replicate count.toNat '\n' ++ text true edits
  | _, .endLine :: edits => text true edits
  | _, .extendLast piece :: edits => piece.toList ++ text true edits

/-- Whether the last line is only extended where no line is being written, and by text that starts with
a stop. -/
def sound : (fresh : Bool) → List Edit → Bool
  | _, [] => true
  | fresh, .add piece :: edits => sound (fresh && piece = "") edits
  | _, .addLine _ :: edits => sound true edits
  | _, .blankLines _ :: edits => sound true edits
  | _, .endLine :: edits => sound true edits
  | fresh, .extendLast piece :: edits =>
    fresh && piece.toList.head?.any isStop && sound true edits

end Edit

namespace LineBuffer

variable {buffer : LineBuffer} {edits : List Edit}

def line (buffer : LineBuffer) : String :=
  String.join buffer.pending

def view (buffer : LineBuffer) : List Char :=
  buffer.lines.flatMap (fun line ↦ '\n' :: line.toList) ++
    if buffer.line = "" then [] else '\n' :: buffer.line.toList

theorem line_add (buffer : LineBuffer) (piece : String) :
    (buffer.add piece).line = buffer.line ++ piece := by
  simp [line, add]

@[simp] theorem lines_add (buffer : LineBuffer) (piece : String) :
    (buffer.add piece).lines = buffer.lines := rfl

@[simp] theorem line_endLine (buffer : LineBuffer) : buffer.endLine.line = "" := rfl

@[simp] theorem view_endLine (buffer : LineBuffer) : buffer.endLine.view = buffer.view := by
  by_cases h : buffer.line = ""
  · have h' : String.join buffer.pending = "" := h
    simp [view, endLine, line, h']
  · have h' : String.join buffer.pending ≠ "" := h
    simp [view, endLine, line, h']

theorem lines_endLine_ne_nil (h : buffer.lines ≠ []) : buffer.endLine.lines ≠ [] := by
  by_cases hline : String.join buffer.pending = ""
  · simpa [endLine, hline] using h
  · simp [endLine, hline]

theorem view_add (buffer : LineBuffer) {piece : String} (h : piece ≠ "") :
    (buffer.add piece).view =
      buffer.view ++ (Edit.opening (buffer.line = "") ++ piece.toList) := by
  have hline : buffer.line ++ piece ≠ "" := by simp [h]
  by_cases hfresh : buffer.line = ""
  · simp [view, line_add, hfresh, h, Edit.opening]
  · simp [view, line_add, hfresh, Edit.opening]

theorem flatMap_replicate_empty (n : Nat) :
    (List.replicate n "").flatMap (fun line ↦ '\n' :: line.toList) = List.replicate n '\n' := by
  induction n with
  | zero => rfl
  | succ n ih => simp [List.replicate_succ, ih]

theorem view_of_line_eq (buffer : LineBuffer) (h : buffer.line = "") :
    buffer.view = buffer.lines.flatMap (fun line ↦ '\n' :: line.toList) := by
  simp [view, h]

@[simp] theorem view_add_empty (buffer : LineBuffer) : (buffer.add "").view = buffer.view := by
  simp [view, line_add]

@[simp] theorem line_blankLines (buffer : LineBuffer) (count : Int) :
    (buffer.blankLines count).line = "" := rfl

theorem view_blankLines (buffer : LineBuffer) (count : Int) :
    (buffer.blankLines count).view = buffer.view ++ List.replicate count.toNat '\n' := by
  rw [← view_endLine buffer, view_of_line_eq buffer.endLine (line_endLine buffer),
    view_of_line_eq (buffer.blankLines count) (line_endLine buffer)]
  simp [blankLines, flatMap_replicate_empty]

theorem exists_extendLast? {piece : String} (hline : buffer.line = "") (hlines : buffer.lines ≠ [])
    (hpiece : piece ≠ "") :
    ∃ next, buffer.extendLast? piece = some next ∧ next.line = "" ∧ next.lines ≠ [] ∧
      next.view = buffer.view ++ piece.toList := by
  obtain ⟨pending, lines⟩ := buffer
  change String.join pending = "" at hline
  change lines ≠ [] at hlines
  have hlast := List.getLast?_eq_some_getLast hlines
  refine ⟨_, by simp only [extendLast?, hlast]; rfl, rfl, ?_, ?_⟩
  · simp [endLine, add, hpiece]
  · rw [view_of_line_eq ⟨pending, lines⟩ hline, view_endLine]
    have hsplit : lines.flatMap (fun line ↦ '\n' :: line.toList) =
        lines.dropLast.flatMap (fun line ↦ '\n' :: line.toList) ++
          '\n' :: (lines.getLast hlines).toList := by
      conv => lhs; rw [← List.dropLast_concat_getLast hlines]
      simp
    rw [hsplit]
    simp [view, line, add, hline, hpiece]

/-- One edit adds its text to the text of a buffer that has a line. -/
theorem exists_step? {edit : Edit} (hsound : Edit.sound (buffer.line = "") (edit :: edits) = true)
    (hlines : buffer.lines ≠ []) :
    ∃ next, buffer.step? edit = some next ∧ next.lines ≠ [] ∧
      Edit.sound (next.line = "") edits = true ∧
      next.view ++ Edit.text (next.line = "") edits =
        buffer.view ++ Edit.text (buffer.line = "") (edit :: edits) := by
  cases edit with
  | add piece =>
    refine ⟨buffer.add piece, rfl, hlines, ?_, ?_⟩
    · simpa [Edit.sound, line_add] using hsound
    · by_cases hpiece : piece = ""
      · subst hpiece
        simp [line_add, Edit.text]
      · simp [line_add, Edit.text, hpiece, view_add buffer hpiece]
  | addLine piece =>
    refine ⟨(buffer.add piece).endLine, rfl, lines_endLine_ne_nil hlines, ?_, ?_⟩
    · simpa [Edit.sound] using hsound
    · by_cases hpiece : piece = ""
      · subst hpiece
        simp [Edit.text]
      · simp [Edit.text, hpiece, view_add buffer hpiece]
  | blankLines count =>
    refine ⟨buffer.blankLines count, rfl, ?_, ?_, ?_⟩
    · simp [blankLines, lines_endLine_ne_nil hlines]
    · simpa [Edit.sound] using hsound
    · simp [Edit.text, view_blankLines]
  | endLine =>
    refine ⟨buffer.endLine, rfl, lines_endLine_ne_nil hlines, ?_, ?_⟩
    · simpa [Edit.sound] using hsound
    · simp [Edit.text]
  | extendLast piece =>
    simp only [Edit.sound, Bool.and_eq_true, decide_eq_true_eq] at hsound
    obtain ⟨⟨hline, hstop⟩, hsound⟩ := hsound
    have hpiece : piece ≠ "" := by
      rintro rfl
      simp at hstop
    obtain ⟨next, hnext, hfresh, hne, hview⟩ := exists_extendLast? hline hlines hpiece
    refine ⟨next, hnext, hne, by simpa [hfresh] using hsound, ?_⟩
    simp [Edit.text, hfresh, hview]

/-- A list of edits adds its text to the text of a buffer that has a line. -/
theorem exists_steps? (buffer : LineBuffer) (hsound : Edit.sound (buffer.line = "") edits = true)
    (hlines : buffer.lines ≠ []) :
    ∃ last, buffer.steps? edits = some last ∧ last.lines ≠ [] ∧
      last.view = buffer.view ++ Edit.text (buffer.line = "") edits := by
  induction edits generalizing buffer with
  | nil => exact ⟨buffer, rfl, hlines, by simp [Edit.text]⟩
  | cons edit edits ih =>
    obtain ⟨next, hnext, hne, hsound', hview⟩ := exists_step? hsound hlines
    obtain ⟨last, hlast, hlast', hview'⟩ := ih next hsound' hne
    refine ⟨last, ?_, hlast', by rw [hview', hview]⟩
    rw [steps?, hnext, Option.bind_some, hlast]

theorem cons_intercalate {lines : List String} (h : lines ≠ []) :
    '\n' :: ("\n".intercalate lines).toList = lines.flatMap fun line ↦ '\n' :: line.toList := by
  induction lines with
  | nil => exact absurd rfl h
  | cons line lines ih =>
    cases lines with
    | nil => simp
    | cons next lines =>
      have := ih (List.cons_ne_nil next lines)
      rw [List.flatMap_cons, ← this]
      simp

/-- Edits that start with a line and end one are all carried out, and the lines joined by line feeds
are their text. -/
theorem exists_lines_of_sound {first : String} (hfirst : first ≠ "")
    (hsound : Edit.sound true (edits ++ [.endLine]) = true) :
    ∃ lines,
      ({} : LineBuffer).steps? (.addLine first :: (edits ++ [.endLine])) = some ⟨[], lines⟩ ∧
      '\n' :: ("\n".intercalate lines).toList =
        Edit.text true (.addLine first :: (edits ++ [.endLine])) := by
  have hstep : ({} : LineBuffer).step? (.addLine first) = some ⟨[], [first]⟩ := by
    simp [step?, add, endLine, hfirst]
  have hsound' :
      Edit.sound ((⟨[], [first]⟩ : LineBuffer).line = "") (edits ++ [.endLine]) = true := by
    simpa [line] using hsound
  obtain ⟨last, hlast, hne, hview⟩ := exists_steps? ⟨[], [first]⟩ hsound' (List.cons_ne_nil _ _)
  -- The last edit leaves no line that is being written.
  obtain ⟨before, -, hbefore⟩ := Option.bind_eq_some_iff.mp ((steps?_append _ _ _).symm.trans hlast)
  obtain rfl : before.endLine = last := by simpa [steps?, step?] using hbefore
  refine ⟨before.endLine.lines, ?_, ?_⟩
  · rw [steps?, hstep, Option.bind_some, hlast]
    rfl
  · rw [cons_intercalate hne, ← view_of_line_eq before.endLine (line_endLine before), hview]
    simp [view, line, Edit.text, hfirst, Edit.opening]

end LineBuffer

end SqlLayout
