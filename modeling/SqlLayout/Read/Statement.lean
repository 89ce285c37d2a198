import SqlLayout.Read.Insert
import SqlLayout.Read.Items
import SqlLayout.Read.Joins

/-!
# Reading statements

The first token of a statement tells how to read it.  Reading goes on with the tokens that the
statement did not take, and a fault leaves the statements before it in place.
-/

namespace SqlLayout.Read

def readSemicolon (_ : List Token) : Except Fault (Node × Nat) :=
  .ok (.semicolon ";", 1)

/-- One statement; `statements` reads the statements inside it. -/
def readStatement (statements : List Token → Statements) (tokens : List Token) :
    Except Fault (Node × Nat) :=
  match tokens with
  | [] => .error .endOfTokens
  | token :: _ =>
    match token.kind with
    | .groupWord => readGroupBy tokens
    | .fromWord => readFrom tokens
    | .func => readCall tokens
    | .havingWord => readHaving statements tokens
    | .insertWord => readInsert statements tokens
    | .limitWord => readLimit tokens
    | .orderWord => readOrderBy tokens
    | .selectWord => readSelect tokens
    | .semicolon => readSemicolon tokens
    | .whereWord => readWhere statements tokens
    | .closeParen => .error .strayParenthesis
    | _ => .error .invalidStatement

/-- The statements of a list of tokens; `bound` is a bound on the number of tokens. -/
def readStatements : (bound : Nat) → List Token → Statements
  | 0, _ => ⟨[], none⟩
  | _ + 1, [] => ⟨[], none⟩
  | bound + 1, token :: rest =>
    match readStatement (readStatements bound) (token :: rest) with
    | .error fault => ⟨[], some fault⟩
    | .ok (node, count) =>
      let others := readStatements bound ((token :: rest).drop count)
      ⟨(node, count) :: others.read, others.fault⟩

def statements (tokens : List Token) : Statements :=
  readStatements tokens.length tokens

def parse (tokens : List Token) : Except Fault (List Node) :=
  match (statements tokens).fault with
  | some fault => .error fault
  | none => .ok ((statements tokens).read.map Prod.fst)

end SqlLayout.Read
