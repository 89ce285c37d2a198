import SqlLayout.Text.Ranges

/-!
# Blanks

The white space of Unicode together with the four information separators, and the operations on text
that only blanks decide: its blank-separated pieces and trimming.
-/

namespace SqlLayout.Text

def blankRanges : Ranges :=
  [
    (0x9, 0xD), (0x1C, 0x20), (0x85, 0x85), (0xA0, 0xA0), (0x1680, 0x1680), (0x2000, 0x200A),
    (0x2028, 0x2029), (0x202F, 0x202F), (0x205F, 0x205F), (0x3000, 0x3000)]

theorem sorted_blankRanges : blankRanges.Sorted := by decide

def isBlank (c : Char) : Bool :=
  blankRanges.has c.toNat

/-- The maximal runs of nonblank characters, in order; `piece` is the run being collected. -/
def piecesFrom (piece : List Char) : List Char → List (List Char)
  | [] => if piece.isEmpty then [] else [piece]
  | c :: rest =>
    if isBlank c then
      if piece.isEmpty then piecesFrom [] rest else piece :: piecesFrom [] rest
    else
      piecesFrom (piece ++ [c]) rest

def pieces (text : String) : List String :=
  (piecesFrom [] text.toList).map String.ofList

def trimEnd (text : String) : String :=
  String.ofList (text.toList.reverse.dropWhile isBlank).reverse

def trim (text : String) : String :=
  trimEnd (String.ofList (text.toList.dropWhile isBlank))

/-- The first piece of a text, `none` if all of it is blank. -/
def firstPiece? (text : String) : Option String :=
  (pieces text).head?

def squeeze (text : String) : String :=
  " ".intercalate (pieces text)

end SqlLayout.Text
