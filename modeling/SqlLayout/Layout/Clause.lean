import SqlLayout.Layout.Value

/-!
# Layout of clauses

The clauses that hold no statements: each starts with its keyword on a line of its own, followed
by its items, one to a line and one level further in.
-/

namespace SqlLayout.Layout

open Text

/-- One item of a SELECT clause; nodes that cannot be selected leave no text. -/
def selectItemEdits (indent : Int) : Node → List Edit
  | .term t => .add t.text :: aliasEdits t.asWord t.aliasName
  | .caseOf word branches => caseEdits indent word branches
  | .call name args asWord aliasName => callEdits (.call name args asWord aliasName)
  | _ => []

def selectItemsEdits (indent : Int) : List Node → List Edit
  | [] => []
  | item :: rest =>
    .add (indentation (indent + 1)) :: selectItemEdits indent item ++ commaBefore rest "," ++
      .endLine :: selectItemsEdits indent rest

def selectEdits (indent : Int) (word : String) (items : List Node) : List Edit :=
  .addLine (indentation indent ++ upper word) :: selectItemsEdits indent items

def operandEdits : Node → List Edit
  | .call name args asWord aliasName => callEdits (.call name args asWord aliasName)
  | node => if node.isIdentifier then [.add node.text] else [.add (" " ++ node.text ++ " ")]

/-- The conditions after an ON, each on a line of its own.  Every link is written AND, at the
start of the line of the condition that follows it. -/
def joinConditionEdits (indent : Int) : (newLine : Bool) → List Node → List Edit
  | _, [] => []
  | newLine, part :: rest =>
    let start : List Edit := if newLine then [.add (indentation (indent + 2))] else []
    match part with
    | .link _ => start ++ .add "AND " :: joinConditionEdits indent false rest
    | .condition operands =>
      start ++ operands.flatMap operandEdits ++ .endLine :: joinConditionEdits indent true rest
    | _ => start ++ joinConditionEdits indent newLine rest

def startsWithJoin : List Node → Bool
  | .join _ :: _ => true
  | _ => false

def startsWithOn : List Node → Bool
  | .onClause .. :: _ => true
  | _ => false

/-- The parts of a FROM clause.  A join takes the next part on its line, and the part after an ON is
passed over. -/
def fromParts (indent : Int) : List Node → Draft Unit
  | [] => pure ()
  | [.join word] => do
    .emit [.add (indentation (indent + 1)), .add (upper word), .add " "]
    .fail .invalidStatement
  | .join word :: table :: rest => do
    .emit [.add (indentation (indent + 1)), .add (upper word), .add " "]
    named table
    .emit ((if startsWithOn rest then [.add " ON"] else []) ++ [.endLine])
    fromParts indent rest
  | [.onClause _ parts] => .emit (joinConditionEdits indent true parts ++ [.endLine])
  | .onClause _ parts :: _ :: rest => do
    .emit (joinConditionEdits indent true parts ++ [.endLine])
    fromParts indent rest
  | part :: rest => do
    if part.isIdentifier then
      .emit [.add (indentation (indent + 1))]
      named part
      .emit (if startsWithJoin rest then [] else commaBefore rest ",")
    .emit [.endLine]
    fromParts indent rest

def fromClause (indent : Int) (parts : List Node) : Draft Unit := do
  .emit [.addLine (indentation indent ++ "FROM")]
  fromParts indent parts

def groupItemsEdits : List Node → List Edit
  | [] => []
  | item :: rest =>
    .add ("    " ++ item.text) :: commaBefore rest "," ++ .endLine :: groupItemsEdits rest

def groupByEdits (indent : Int) (items : List Node) (rollup : Option String) : List Edit :=
  .addLine (indentation indent ++ "GROUP BY") :: groupItemsEdits items ++
    if isPresent rollup then [.addLine (indentation (indent + 1) ++ "WITH ROLLUP")] else []

def limitText (count : Term) (offset : Option Term) (offsetWord : Option String) : String :=
  match offset with
  | none => "LIMIT " ++ count.text
  | some offset =>
    if isPresent offsetWord then "LIMIT " ++ count.text ++ " OFFSET " ++ offset.text
    else "LIMIT " ++ offset.text ++ ", " ++ count.text

/-- The direction that an item is sorted in, in upper case; only terms have one. -/
def sortEdits : Node → Draft Unit
  | .term t =>
    .emit (match t.sort with
      | none => []
      | some word => if word = "" then [] else [.add (" " ++ upper word)])
  | _ => .fail .missingPart

def orderItems (indent : Int) : List Node → Draft Unit
  | [] => pure ()
  | item :: rest => do
    .emit [.add (indentation (indent + 1) ++ item.text)]
    sortEdits item
    .emit (commaBefore rest "," ++ [.endLine])
    orderItems indent rest

def orderBy (indent : Int) (items : List Node) : Draft Unit := do
  .emit [.addLine (indentation indent ++ "ORDER BY")]
  orderItems indent items

/-- The values of a node that stands where a condition is laid out.  Any node that has values will do; the
rows of an INSERT cannot be counted. -/
def valuesOf : Node → Except Fault (List Node)
  | .condition parts | .subselect parts | .orderByClause parts | .groupByClause parts _
  | .onClause _ parts | .selectClause _ parts | .fromClause _ parts | .havingClause _ parts => .ok parts
  | .valuesClause _ rows => .ok (rows.map .group)
  | .insertClause _ _ none _ _ => .ok []
  | .insertClause _ _ (some _) _ _ => .error .uncountable
  | _ => .error .missingPart

/-- The values of a condition after HAVING: a name compared with a number, or a negated call compared with
one.  The layout of any others never ends. -/
def havingValues : List Node → Draft Unit
  | [left, .operator op, right] =>
    if left.isIdentifier && right.isNumber then
      .emit [.add (left.text ++ " " ++ upper op ++ " " ++ right.text), .endLine]
    else .fail .endless
  | [.not _, .call name args asWord aliasName, .operator op, right] =>
    if right.isNumber then
      .emit (.add "NOT" :: .add " " :: callEdits (.call name args asWord aliasName) ++
        [.add " ", .add (upper op), .add " ", .add right.text])
    else .fail .endless
  | _ => .fail .endless

def havingCondition (node : Node) : Draft Unit :=
  match valuesOf node with
  | .ok values => havingValues values
  | .error fault => .fail fault

theorem havingCondition_condition (values : List Node) :
    havingCondition (.condition values) = havingValues values := rfl

def havingConditions (indent : Int) : List Node → Draft Unit
  | [] => .emit [.endLine]
  | [.link word] => do
    .emit [.add (indentation (indent + 1)), .add (upper word ++ " ")]
    .fail .invalidStatement
  | .link word :: condition :: rest => do
    .emit [.add (indentation (indent + 1)), .add (upper word ++ " ")]
    havingCondition condition
    havingConditions indent rest
  | condition :: rest => do
    .emit [.add (indentation (indent + 1))]
    havingCondition condition
    havingConditions indent rest

def having (indent : Int) (conditions : List Node) : Draft Unit := do
  .emit [.addLine (indentation indent ++ "HAVING")]
  havingConditions indent conditions

end SqlLayout.Layout
