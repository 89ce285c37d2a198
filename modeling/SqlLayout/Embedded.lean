import SqlLayout.Text.Blank
import SqlLayout.Text.WordChar

/-!
# Queries in Python text

A Python text holds SQL between triple quotes.  A segment is what stands between two equal triple
quotes, found from left to right, together with the blanks in front of the assignment or call that
the quotes belong to.  A segment is a query when its first word is SELECT or INSERT.
-/

namespace SqlLayout.Embedded

open Text

/-- The text between two equal triple quotes, and the blanks in front of their statement. -/
structure Segment where
  blanks : List Char
  body : List Char
deriving DecidableEq, Repr

/-- A query as it stands in the text, with its words one space apart, and the indentation of its
layout. -/
structure Query where
  source : String
  sql : String
  indent : String
deriving DecidableEq, Repr

def isNameChar (c : Char) : Bool :=
  isWordChar c || c == '.'

/-- What follows the start of an assignment or a call: blanks, a name, equal signs, another name and
opening parentheses, all of which may be missing. -/
def afterStatementStart (text : List Char) : List Char :=
  let target := (text.dropWhile isBlank).dropWhile isNameChar
  let value := ((target.dropWhile isBlank).dropWhile (· == '=')).dropWhile isBlank
  ((value.dropWhile isNameChar).dropWhile isBlank).dropWhile (· == '(')

def tripleQuote? : List Char → Option (Char × List Char)
  | '"' :: '"' :: '"' :: rest => some ('"', rest)
  | '\'' :: '\'' :: '\'' :: rest => some ('\'', rest)
  | _ => none

def upToTriple? (quote : Char) : List Char → Option (List Char)
  | [] => none
  | c :: rest =>
    if [quote, quote, quote].isPrefixOf (c :: rest) then some []
    else (upToTriple? quote rest).map (c :: ·)

/-- The segment whose statement starts a text, and the length of all of it. -/
def segmentAt? (text : List Char) : Option (Segment × Nat) := do
  let (quote, rest) ← tripleQuote? (afterStatementStart text)
  let body ← upToTriple? quote rest
  return (⟨text.takeWhile isBlank, body⟩, text.length - rest.length + body.length + 3)

/-- The segments of a text of which the first `skip` characters are already taken. -/
def segmentsFrom : (skip : Nat) → List Char → List Segment
  | _, [] => []
  | skip + 1, _ :: rest => segmentsFrom skip rest
  | 0, c :: rest =>
    match segmentAt? (c :: rest) with
    | some (segment, length) => segment :: segmentsFrom (length - 1) rest
    | none => segmentsFrom 0 rest

def segments (text : String) : List Segment :=
  segmentsFrom 0 text.toList

def trimLineFeeds (text : List Char) : List Char :=
  ((text.dropWhile (· == '\n')).reverse.dropWhile (· == '\n')).reverse

/-- Whether a word starts a statement that is laid out.  Only ASCII letters have the letters of
these words as their lower case. -/
def startsQuery (word : String) : Bool :=
  let lower := String.ofList (word.toList.map Char.toLower)
  lower = "select" || lower = "insert"

def Segment.query? (segment : Segment) : Option Query :=
  let source := String.ofList segment.body
  match firstPiece? source with
  | none => none
  | some word =>
    if startsQuery word then
      some ⟨source, squeeze source, String.ofList (trimLineFeeds segment.blanks) ++ "    "⟩
    else none

def queries (text : String) : List Query :=
  (segments text).filterMap Segment.query?

/-- The text that takes the place of a query: a line feed, the lines at the indentation of the query
without the blanks they end in, and a space. -/
def Query.layout (query : Query) (lines : List String) : String :=
  "\n" ++ "\n".intercalate (lines.map fun line ↦ trimEnd (query.indent ++ line)) ++ " "

end SqlLayout.Embedded
