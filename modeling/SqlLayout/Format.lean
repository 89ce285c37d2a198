import SqlLayout.Layout.Statement
import SqlLayout.Read.Statement

/-!
# Formatting SQL text

A text is cut into tokens, the tokens are read as statements, and the statements are laid out as
lines.  The log shows what each of the three stages gave, as far as the work came.
-/

namespace SqlLayout

def tokensOf (sql : String) : Except Fault (List Token) :=
  match (tokenize sql).unclosed with
  | some rest => .error (.unclosedQuote rest)
  | none => .ok (tokenize sql).tokens

def format (sql : String) : Except Fault (List String) := do
  let tokens ← tokensOf sql
  let nodes ← Read.parse tokens
  let styled ← Layout.style 0 nodes
  return styled.lines

def outputLog (nodes : List Node) : List String :=
  match Layout.style 0 nodes with
  | .error _ => []
  | .ok styled => ["Output: " ++ Text.bracketed (styled.lines.map Text.quoted)]

def statementLog (tokens : List Token) : List String :=
  match Read.parse tokens with
  | .error _ => []
  | .ok nodes => ("Statements: " ++ Text.bracketed (nodes.map Node.display)) :: outputLog nodes

def formatLog (sql : String) : List String :=
  match tokensOf sql with
  | .error _ => []
  | .ok tokens => ("Tokens: " ++ Token.displayAll tokens) :: statementLog tokens

end SqlLayout
