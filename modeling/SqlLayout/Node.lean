import SqlLayout.Text.Quoted
import SqlLayout.Text.Upper

/-!
# Statement trees

A statement is a tree of nodes: clauses hold items, conditions and joins, and those hold terms and
function calls.  Every word that a token supplied is kept as it was written, so keywords appear in
the case of the source.
-/

namespace SqlLayout

open Text

inductive TermKind where
  | identifier
  | number
  | str
deriving DecidableEq, Repr

/-- A single value, with the alias and the sort direction that may follow it. -/
structure Term where
  kind : TermKind
  text : String
  aliasName : Option String := none
  asWord : Option String := none
  sort : Option String := none
deriving DecidableEq, Repr

inductive Node where
  | term (value : Term)
  | call (name : String) (args : List Node) (asWord aliasName : Option String)
  | caseOf (word : String) (branches : List Node)
  | whenThen (whenWord tested thenWord result : String)
  | otherwise (elseWord result : String)
  | semicolon (text : String)
  | is (text : String)
  | null (text : String)
  | join (text : String)
  | link (text : String)
  | not (text : String)
  | between (text : String)
  | operator (text : String)
  /-- Operands and operators of one comparison. -/
  | condition (parts : List Node)
  /-- The values between the parentheses of a membership test. -/
  | group (items : List Node)
  | subselect (statements : List Node)
  | onClause (word : String) (parts : List Node)
  | valuesClause (word : String) (rows : List (List Node))
  | selectClause (word : String) (items : List Node)
  | fromClause (word : String) (parts : List Node)
  | whereClause (word : String) (conditions : List Node)
  | groupByClause (items : List Node) (rollup : Option String)
  | havingClause (word : String) (conditions : List Node)
  | orderByClause (items : List Node)
  | limitClause (count : Term) (offset : Option Term) (offsetWord : Option String)
  /-- Stores either rows of values or what a query selects. -/
  | insertClause (word table : String) (rows : Option (String × List (List Node)))
      (columns query : List Node)

def TermKind.typeName : TermKind → String
  | .identifier => "Identifier"
  | .number => "Number"
  | .str => "Str"

def showRecord (typeName : String) (fields : List (String × String)) : String :=
  typeName ++ "(" ++ ", ".intercalate (fields.map fun f ↦ f.1 ++ "=" ++ f.2) ++ ")"

def showOption : Option String → String
  | none => "None"
  | some text => quoted text

def Term.display (t : Term) : String :=
  showRecord t.kind.typeName
    [("value", quoted t.text), ("alias", showOption t.aliasName), ("as_", showOption t.asWord),
      ("sort", showOption t.sort)]

def Term.displayOption : Option Term → String
  | none => "None"
  | some t => t.display

namespace Node

def plain (kind : TermKind) (text : String) : Node :=
  term ⟨kind, text, none, none, none⟩

def typeName : Node → String
  | term t => t.kind.typeName
  | call .. => "Func"
  | caseOf .. => "Case"
  | whenThen .. => "When"
  | otherwise .. => "Else"
  | semicolon _ => "Semicolon"
  | is _ => "Is"
  | null _ => "Null"
  | join _ => "Join"
  | link _ => "Link"
  | not _ => "Not"
  | between _ => "Between"
  | operator _ => "Operator"
  | condition _ => "Condition"
  | group _ => "list"
  | subselect _ => "SubSelect"
  | onClause .. => "On"
  | valuesClause .. => "Values"
  | selectClause .. => "Select"
  | fromClause .. => "From"
  | whereClause .. => "Where"
  | groupByClause .. => "GroupBy"
  | havingClause .. => "Having"
  | orderByClause _ => "OrderBy"
  | limitClause .. => "Limit"
  | insertClause .. => "Insert"

mutual

def display : Node → String
  | term t => t.display
  | call name args asWord aliasName =>
    showRecord "Func" [("name", quoted name), ("args", bracketed (displayEach args)),
      ("as_", showOption asWord), ("alias", showOption aliasName)]
  | caseOf word branches =>
    showRecord "Case" [("value", quoted word), ("when_elses", bracketed (displayEach branches))]
  | whenThen whenWord tested thenWord result =>
    showRecord "When" [("when", quoted whenWord), ("condition", quoted tested),
      ("then", quoted thenWord), ("result", quoted result)]
  | otherwise elseWord result =>
    showRecord "Else" [("else_", quoted elseWord), ("result", quoted result)]
  | semicolon text => showRecord "Semicolon" [("value", quoted text)]
  | is text => showRecord "Is" [("value", quoted text)]
  | null text => showRecord "Null" [("value", quoted text)]
  | join text => showRecord "Join" [("value", quoted text)]
  | link text => showRecord "Link" [("value", quoted text)]
  | not text => showRecord "Not" [("value", quoted text)]
  | between text => showRecord "Between" [("value", quoted text)]
  | operator text => showRecord "Operator" [("value", quoted text)]
  | condition parts => showRecord "Condition" [("values", bracketed (displayEach parts))]
  | group items => bracketed (displayEach items)
  | subselect statements => showRecord "SubSelect" [("values", bracketed (displayEach statements))]
  | onClause word parts =>
    showRecord "On" [("value", quoted word), ("values", bracketed (displayEach parts))]
  | valuesClause word rows =>
    showRecord "Values" [("value", quoted word), ("values", bracketed (displayRows rows))]
  | selectClause word items =>
    showRecord "Select" [("value", quoted word), ("values", bracketed (displayEach items))]
  | fromClause word parts =>
    showRecord "From" [("value", quoted word), ("values", bracketed (displayEach parts))]
  | whereClause word conditions =>
    showRecord "Where" [("value", quoted word), ("conditions", bracketed (displayEach conditions))]
  | groupByClause items rollup =>
    showRecord "GroupBy" [("values", bracketed (displayEach items)),
      ("with_rollup", showOption rollup)]
  | havingClause word conditions =>
    showRecord "Having" [("value", quoted word), ("values", bracketed (displayEach conditions))]
  | orderByClause items => showRecord "OrderBy" [("values", bracketed (displayEach items))]
  | limitClause count offset offsetWord =>
    showRecord "Limit" [("row_count", count.display), ("offset", Term.displayOption offset),
      ("offset_keyword", showOption offsetWord)]
  | insertClause word table none columns query =>
    showRecord "Insert" [("insert", quoted word), ("table", quoted table), ("values", "[]"),
      ("cols", bracketed (displayEach columns)), ("select", bracketed (displayEach query))]
  | insertClause word table (some (valuesWord, rows)) columns query =>
    showRecord "Insert" [("insert", quoted word), ("table", quoted table),
      ("values", showRecord "Values"
        [("value", quoted valuesWord), ("values", bracketed (displayRows rows))]),
      ("cols", bracketed (displayEach columns)), ("select", bracketed (displayEach query))]

def displayEach : List Node → List String
  | [] => []
  | node :: nodes => node.display :: displayEach nodes

def displayRows : List (List Node) → List String
  | [] => []
  | row :: rows => bracketed (displayEach row) :: displayRows rows

end

/-- The text of a node on a line.  Terms, operators and branches have one of their own; any other
node shows all its fields. -/
def text : Node → String
  | term t => t.text
  | operator o => upper o
  | whenThen _ tested _ result => "WHEN " ++ tested ++ " THEN " ++ result
  | otherwise _ result => "ELSE " ++ result
  | node => node.display

def isIdentifier : Node → Bool
  | term t => t.kind = .identifier
  | _ => false

def isNumber : Node → Bool
  | term t => t.kind = .number
  | _ => false

end Node

end SqlLayout
