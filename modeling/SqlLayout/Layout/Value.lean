import SqlLayout.Layout.Draft
import SqlLayout.Node

/-!
# Layout of values

Names with their aliases, function calls and case expressions.
-/

namespace SqlLayout.Layout

open Text

/-- Four spaces for each level, none below zero. -/
def indentation (level : Int) : String :=
  String.join (List.replicate level.toNat "    ")

def isPresent : Option String → Bool
  | none => false
  | some text => text != ""

def commaBefore (rest : List Node) (text : String) : List Edit :=
  if rest.isEmpty then [] else [.add text]

def aliasEdits (asWord aliasName : Option String) : List Edit :=
  (if isPresent asWord then [.add " AS"] else []) ++
    match aliasName with
    | none => []
    | some name => if name = "" then [] else [.add " ", .add name]

/-- A node and its alias.  Only terms and calls can have one. -/
def named (node : Node) : Draft Unit := do
  .emit [.add node.text]
  match node with
  | .term t => .emit (aliasEdits t.asWord t.aliasName)
  | .call _ _ asWord aliasName => .emit (aliasEdits asWord aliasName)
  | _ => .fail .missingPart

/-- The alias of a call, which is only written with its AS. -/
def callAliasEdits (asWord aliasName : Option String) : List Edit :=
  match aliasName with
  | none => []
  | some name => if isPresent asWord && name != "" then [.add " AS ", .add name] else []

mutual

/-- A call, or a value inside one; other nodes leave no text. -/
def callEdits : Node → List Edit
  | .call name args asWord aliasName =>
    .add (upper name) :: .add "(" :: argEdits args ++ .add ")" :: callAliasEdits asWord aliasName
  | .term t => [.add t.text]
  | _ => []

def argEdits : List Node → List Edit
  | [] => []
  | arg :: rest => callEdits arg ++ commaBefore rest ", " ++ argEdits rest

end

def call : Node → Draft Unit
  | .call name args asWord aliasName => .emit (callEdits (.call name args asWord aliasName))
  | _ => .fail .missingPart

/-- The branches of a case expression, all but the last on lines of their own. -/
def branchEdits (indent : Int) : List Node → List Edit
  | [] => []
  | [branch] => [.add (indentation (indent + 2) ++ branch.text)]
  | branch :: rest =>
    .add (indentation (indent + 2) ++ branch.text) :: .endLine :: branchEdits indent rest

def caseEdits (indent : Int) (word : String) (branches : List Node) : List Edit :=
  .addLine (upper word) :: branchEdits indent branches

end SqlLayout.Layout
