import SqlLayout.Layout.Clause

/-!
# Layout of statements

Statements are laid out one after another, with two empty lines after a semicolon that others
follow.  Laying a condition out detaches a leading NOT from it, so a layout returns the tree it
leaves behind together with the lines: laid out again, the condition appears without its NOT.
-/

namespace SqlLayout.Layout

open Text

def detachNot : List Node → List Node
  | [.not _, a, b, c] => [a, b, c]
  | parts => parts

/-- The edit for a NOT that `detachNot` takes off. -/
def notEdits : List Node → List Edit
  | [.not _, _, _, _] => [.add "NOT "]
  | _ => []

def groupEdits (indent : Int) : List Node → List Edit
  | [] => []
  | item :: rest =>
    .add (indentation (indent + 2)) :: .add item.text ::
      .add (if rest.isEmpty then ")" else ",") :: .endLine :: groupEdits indent rest

/-- A condition without a query in it, after its NOT; other shapes leave no text. -/
def plainConditionEdits (indent : Int) : List Node → List Edit
  | [.term left, .operator op, .term right] =>
    [.add (left.text ++ " " ++ upper op ++ " " ++ right.text)]
  | [.term left, .between _, .term low, .link _, .term high] =>
    [.add (left.text ++ " BETWEEN " ++ low.text ++ " AND " ++ high.text)]
  | [.term left, .is _, .null _] => [.add (left.text ++ " IS NULL")]
  | [.term left, .is _, .not _, .null _] => [.add (left.text ++ " IS NOT NULL")]
  | [.term left, .operator _, .group items] =>
    .add (left.text ++ " IN (") :: .endLine :: groupEdits indent items
  | _ => []

def tableEdits (table : String) (columns : List Node) : List Edit :=
  [.addLine "INSERT INTO", .addLine ("    " ++ table)] ++
    if columns.isEmpty then []
    else [.extendLast (" (" ++ ", ".intercalate (columns.map Node.text) ++ ")")]

def rowEdits : List (List Node) → List Edit
  | [] => []
  | row :: rest =>
    .addLine ("    (" ++ ", ".intercalate (row.map Node.text) ++ ")") ::
      (if rest.isEmpty then [] else [.extendLast ","]) ++ rowEdits rest

/-- A name compared with a query, whose own layout is passed in; only a name can be compared so, and
the query of anything else is left alone. -/
def membership (left : Term) (op : String) (query : List Node) (laid : Draft (List Node)) :
    Draft (List Node) := do
  if left.kind = .identifier then
    .emit [.add (left.text ++ " " ++ upper (upper op) ++ " ("), .endLine]
    let leftBehind ← laid
    .emit [.extendLast ")", .endLine]
    return leftBehind
  else
    .emit [.endLine]
    return query

def isSemicolon : Node → Bool
  | .semicolon _ => true
  | _ => false

mutual

def statements (indent : Int) : List Node → Draft (List Node)
  | [] => do
    .emit [.endLine]
    return []
  | node :: rest => do
    let left ← statement indent node
    .emit (if isSemicolon node && !rest.isEmpty then [.blankLines 2] else [])
    return left :: (← statements indent rest)

def statement (indent : Int) : Node → Draft Node
  | .selectClause word items => do
    .emit (selectEdits indent word items)
    return .selectClause word items
  | .fromClause word parts => do
    fromClause indent parts
    return .fromClause word parts
  | .whereClause word nodes => do
    .emit [.addLine (indentation indent ++ "WHERE")]
    return .whereClause word (← conditions indent nodes)
  | .groupByClause items rollup => do
    .emit (groupByEdits indent items rollup)
    return .groupByClause items rollup
  | .havingClause word nodes => do
    having indent nodes
    return .havingClause word nodes
  | .orderByClause items => do
    orderBy indent items
    return .orderByClause items
  | .limitClause count offset offsetWord => do
    .emit [.addLine (indentation indent ++ limitText count offset offsetWord)]
    return .limitClause count offset offsetWord
  | .insertClause word table (some (valuesWord, rows)) columns query => do
    .emit (tableEdits table columns ++ .addLine "VALUES" :: rowEdits rows)
    return .insertClause word table (some (valuesWord, rows)) columns query
  | .insertClause word table none columns query => do
    .emit (tableEdits table columns)
    if query.isEmpty then return .insertClause word table none columns query
    return .insertClause word table none columns (← statements indent query)
  | .semicolon text => do
    .emit [.extendLast text]
    return .semicolon text
  | node => .fail (.unsupported node.typeName)

def conditions (indent : Int) : List Node → Draft (List Node)
  | [] => return []
  | [.link word] => do
    .emit [.add (indentation (indent + 1)), .add (upper word ++ " ")]
    .fail .invalidStatement
  | .link word :: node :: rest => do
    .emit [.add (indentation (indent + 1)), .add (upper word ++ " ")]
    let left ← condition indent node
    return .link word :: left :: (← conditions indent rest)
  | node :: rest => do
    .emit [.add (indentation (indent + 1))]
    let left ← condition indent node
    return left :: (← conditions indent rest)

/-- What stands where a condition is expected, with what is left of it.  It is laid out by its values,
whatever node has them. -/
def condition (indent : Int) : Node → Draft Node
  | .condition values => return .condition (← conditionValues indent values)
  | .subselect values => return .subselect (← conditionValues indent values)
  | .orderByClause values => return .orderByClause (← conditionValues indent values)
  | .groupByClause values rollup => return .groupByClause (← conditionValues indent values) rollup
  | .onClause word values => return .onClause word (← conditionValues indent values)
  | .selectClause word values => return .selectClause word (← conditionValues indent values)
  | .fromClause word values => return .fromClause word (← conditionValues indent values)
  | .havingClause word values => return .havingClause word (← conditionValues indent values)
  | .valuesClause word rows => do
    .emit [.endLine]
    return .valuesClause word rows
  | .insertClause word table none columns query => do
    .emit [.endLine]
    return .insertClause word table none columns query
  | .insertClause _ _ (some _) _ _ => .fail .uncountable
  | _ => .fail .missingPart

def conditionValues (indent : Int) : List Node → Draft (List Node)
  | [.not _, .term left, .operator op, .subselect query] => do
    .emit [.add "NOT "]
    let leftBehind ← membership left op query (statements (indent + 2) query)
    return [.term left, .operator op, .subselect leftBehind]
  | [.term left, .operator op, .subselect query] => do
    let leftBehind ← membership left op query (statements (indent + 2) query)
    return [.term left, .operator op, .subselect leftBehind]
  | values => do
    .emit (notEdits values ++ plainConditionEdits indent (detachNot values) ++ [.endLine])
    return detachNot values

end

structure Styled where
  lines : List String
  tree : List Node

def style (indent : Int) (nodes : List Node) : Except Fault Styled := do
  let (tree, buffer) ← (statements indent nodes).write {}
  return ⟨buffer.lines, tree⟩

/-- Lays one tree out again and again, once for each level of indentation.  A layout that fails is followed
by one of the same tree: where it has already detached a NOT, it fails at every level, with the NOT and
without it. -/
def restyle : (indents : List Int) → List Node → List (Except Fault (List String))
  | [], _ => []
  | indent :: indents, nodes =>
    match style indent nodes with
    | .ok styled => .ok styled.lines :: restyle indents styled.tree
    | .error fault => .error fault :: restyle indents nodes

end SqlLayout.Layout
