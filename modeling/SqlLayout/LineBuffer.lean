/-!
# Line buffers

Text is laid out through a buffer of finished lines and of pieces that wait for the end of their
line.  A layout is a list of edits; the only edit that can fail is to extend the last line where
none is finished yet.
-/

namespace SqlLayout

/-- Finished lines, and the pieces of the line that is being written. -/
structure LineBuffer where
  pending : List String := []
  lines : List String := []
deriving DecidableEq, Repr

inductive Edit where
  /-- Adds a piece to the line that is being written. -/
  | add (text : String)
  /-- Adds a piece and ends the line. -/
  | addLine (text : String)
  /-- Ends the line and adds this many empty lines. -/
  | blankLines (count : Int)
  /-- Ends the line; a line without text is dropped. -/
  | endLine
  /-- Takes the last finished line back, adds a piece to it and ends it. -/
  | extendLast (text : String)
deriving DecidableEq, Repr

namespace LineBuffer

def add (buffer : LineBuffer) (text : String) : LineBuffer :=
  { buffer with pending := buffer.pending ++ [text] }

/-- Ends the line; a line without text is dropped. -/
def endLine (buffer : LineBuffer) : LineBuffer :=
  let line := String.join buffer.pending
  { pending := [], lines := if line = "" then buffer.lines else buffer.lines ++ [line] }

def blankLines (buffer : LineBuffer) (count : Int) : LineBuffer :=
  { buffer.endLine with lines := buffer.endLine.lines ++ List.replicate count.toNat "" }

/-- Takes the last finished line back as a piece, adds another and ends the line. -/
def extendLast? (buffer : LineBuffer) (text : String) : Option LineBuffer :=
  match buffer.lines.getLast? with
  | none => none
  | some last =>
    some (({ buffer with lines := buffer.lines.dropLast }.add last).add text).endLine

def step? (buffer : LineBuffer) : Edit → Option LineBuffer
  | .add text => some (buffer.add text)
  | .addLine text => some (buffer.add text).endLine
  | .blankLines count => some (buffer.blankLines count)
  | .endLine => some buffer.endLine
  | .extendLast text => buffer.extendLast? text

def steps? (buffer : LineBuffer) : List Edit → Option LineBuffer
  | [] => some buffer
  | edit :: edits => (buffer.step? edit).bind fun next ↦ next.steps? edits

theorem steps?_append (buffer : LineBuffer) (xs ys : List Edit) :
    buffer.steps? (xs ++ ys) = (buffer.steps? xs).bind fun next ↦ next.steps? ys := by
  induction xs generalizing buffer with
  | nil => rfl
  | cons edit edits ih =>
    cases h : buffer.step? edit with
    | none => simp [steps?, h]
    | some next => simpa [steps?, h] using ih next

end LineBuffer

end SqlLayout
