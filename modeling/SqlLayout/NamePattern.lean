/-!
# Patterns of file names

In a pattern a star stands for any text, a question mark for any character and a bracket for one
character of a set, or of none of it after an exclamation mark.  A bracket that is never closed
stands for itself.
-/

namespace SqlLayout.NamePattern

inductive Piece where
  | star
  | any
  /-- One character that lies in one of the closed ranges, or in none of them. -/
  | oneOf (negated : Bool) (ranges : List (Char × Char))
  | char (c : Char)
deriving DecidableEq, Repr

def isPattern (name : String) : Bool :=
  name.toList.any fun c ↦ c == '*' || c == '?' || c == '['

/-- Whether a name is hidden from patterns that do not start with a dot. -/
def isHidden (name : String) : Bool :=
  name.toList.head? = some '.'

/-- Splits the inside of a bracket at the dashes that make ranges: none of the first `lead`
characters of a part is such a dash, and the later parts have at least two characters in front of
theirs. -/
def splitAtDashes (part : List Char) : (lead : Nat) → List Char → List (List Char)
  | _, [] => [part]
  | lead + 1, c :: rest => splitAtDashes (part ++ [c]) lead rest
  | 0, c :: rest =>
    if c = '-' then part :: splitAtDashes [] 2 rest else splitAtDashes (part ++ [c]) 0 rest

def keepLastDash : List (List Char) → List (List Char)
  | [] => []
  | [part, []] => [part ++ ['-']]
  | part :: parts => part :: keepLastDash parts

def dropEmptyRanges : List (List Char) → List (List Char)
  | [] => []
  | part :: parts =>
    match part.getLast?, dropEmptyRanges parts with
    | some low, (high :: rest) :: others =>
      if high < low then (part.dropLast ++ rest) :: others else part :: (high :: rest) :: others
    | _, others => part :: others

def singles (text : List Char) : List (Char × Char) :=
  text.map fun c ↦ (c, c)

/-- The ranges of a list of parts: the last character of one part and the first of the next make a
range, and every other character stands for itself.  `low` is the character that a range starts
with, and a dash with nothing in front of it stands for itself. -/
def rangesFrom : (low : Option Char) → List (List Char) → List (Char × Char)
  | none, [] => []
  | none, [part] => singles part
  | none, part :: parts =>
    singles part.dropLast ++ (if part.isEmpty then [('-', '-')] else []) ++
      rangesFrom part.getLast? parts
  | some low, [] => singles [low]
  | some low, [] :: parts => singles [low] ++ rangesFrom none parts
  | some low, [high :: part] => (low, high) :: singles part
  | some low, (high :: part) :: parts =>
    (low, high) :: singles part.dropLast ++ rangesFrom part.getLast? parts

/-- The set of characters that the inside of a bracket stands for.  Whether the set is negated is
told after the empty ranges are gone. -/
def setOf (inside : List Char) : Piece :=
  let lead := if inside.head? = some '!' then 2 else 1
  match dropEmptyRanges (keepLastDash (splitAtDashes [] lead inside)) with
  | ('!' :: part) :: parts => .oneOf true (rangesFrom none (part :: parts))
  | parts => .oneOf false (rangesFrom none parts)

def upToBracket? : List Char → Option (List Char)
  | [] => none
  | c :: rest => if c = ']' then some [] else (upToBracket? rest).map (c :: ·)

/-- The inside of a bracket that is opened in front of the text.  A closing bracket at its very
start belongs to it. -/
def inside? : List Char → Option (List Char)
  | '!' :: ']' :: rest => (upToBracket? rest).map ('!' :: ']' :: ·)
  | '!' :: rest => (upToBracket? rest).map ('!' :: ·)
  | ']' :: rest => (upToBracket? rest).map (']' :: ·)
  | text => upToBracket? text

/-- The parts of a pattern of which the first `skip` characters are already taken. -/
def piecesFrom : (skip : Nat) → List Char → List Piece
  | _, [] => []
  | skip + 1, _ :: rest => piecesFrom skip rest
  | 0, c :: rest =>
    if c = '*' then .star :: piecesFrom 0 rest
    else if c = '?' then .any :: piecesFrom 0 rest
    else if c = '[' then
      match inside? rest with
      | some inside => setOf inside :: piecesFrom (inside.length + 1) rest
      | none => .char '[' :: piecesFrom 0 rest
    else .char c :: piecesFrom 0 rest

def Piece.fits (c : Char) : Piece → Bool
  | star => true
  | any => true
  | oneOf negated ranges => negated != ranges.any fun r ↦ r.1 ≤ c && c ≤ r.2
  | char d => c = d

def suffixes : List Char → List (List Char)
  | [] => [[]]
  | c :: rest => (c :: rest) :: suffixes rest

def fitsAll : List Piece → List Char → Bool
  | [], text => text.isEmpty
  | .star :: pieces, text => (suffixes text).any (fitsAll pieces)
  | _ :: _, [] => false
  | piece :: pieces, c :: rest => piece.fits c && fitsAll pieces rest

/-- Whether a pattern stands for a name.  Hidden names need a pattern that starts with a dot. -/
def matchesName (pattern name : String) : Bool :=
  (isHidden pattern || !isHidden name) && fitsAll (piecesFrom 0 pattern.toList) name.toList

end SqlLayout.NamePattern
