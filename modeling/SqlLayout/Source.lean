import SqlLayout.Embedded
import SqlLayout.Format
import SqlLayout.Text.Replace

/-!
# Source files

The text of an SQL file is formatted as a whole; in a Python file every query is.  A text whose
SQL is invalid is reported and has no layout, while an invalid query in a Python file stays as it
is.
-/

namespace SqlLayout

inductive SourceKind where
  | sql
  | python
deriving DecidableEq, Repr

/-- What came of a text: the lines that were reported, and the layout or the fault that stopped it.
There is no layout if the text is invalid. -/
structure LaidOut where
  report : List String
  layout : Except Fault (Option String)
deriving Repr

namespace SourceKind

/-- The kind of a file by its name; only ASCII letters have the letters of the ending as their lower
case. -/
def ofName (name : String) : SourceKind :=
  if ['.', 'p', 'y'].isSuffixOf (name.toList.map Char.toLower) then python else sql

end SourceKind

def logIf (debug : Bool) (sql : String) : List String :=
  if debug then formatLog sql else []

def layOutSql (debug : Bool) (text : String) : LaidOut :=
  match format text with
  | .ok lines => ⟨logIf debug text, .ok (some ("\n".intercalate lines))⟩
  | .error fault =>
    if fault.isInvalid then ⟨logIf debug text ++ [fault.message], .ok none⟩
    else ⟨logIf debug text, .error fault⟩

def queryLog (debug : Bool) (query : Embedded.Query) : List String :=
  if debug then ("Found query: " ++ query.sql) :: formatLog query.sql else []

/-- Formats queries one after another; each layout takes the place of all the text in the file that
reads like its query. -/
def layOutQueries (debug : Bool) : List Embedded.Query → String → LaidOut
  | [], text => ⟨[], .ok (some text)⟩
  | query :: queries, text =>
    match format query.sql with
    | .ok lines =>
      let changed := Text.replaceAll query.source (query.layout lines) text
      let rest := layOutQueries debug queries changed
      ⟨queryLog debug query ++ rest.report, rest.layout⟩
    | .error fault =>
      if fault.isInvalid then
        let rest := layOutQueries debug queries text
        ⟨queryLog debug query ++ fault.message :: rest.report, rest.layout⟩
      else ⟨queryLog debug query, .error fault⟩

def layOutPython (debug : Bool) (text : String) : LaidOut :=
  layOutQueries debug (Embedded.queries text) text

def layOut (kind : SourceKind) (debug : Bool) (text : String) : LaidOut :=
  let unified := String.ofList (Text.unifyLineEnds text.toList)
  match kind with
  | .sql => layOutSql debug unified
  | .python => layOutPython debug unified

end SqlLayout
