import SqlLayout.Read.Conditions

/-!
# Reading INSERT statements

A table, an optional list of columns, and either rows of values or a query.  A query takes all the
statements that follow it, and the parenthesis that closes the last row is left standing.
-/

namespace SqlLayout.Read

/-- The columns of an INSERT up to and including the closing parenthesis.  At a token that is no value
and no comma the reading never ends. -/
def readColumns : List Token → Except Fault (List Node × Nat)
  | [] => .error .endOfTokens
  | token :: rest =>
    match value? token with
    | some column => do
      let (columns, count) ← readColumns rest
      .ok (column :: columns, count + 1)
    | none =>
      match token.kind with
      | .closeParen => .ok ([], 1)
      | .comma => do
        let (columns, count) ← readColumns rest
        .ok (columns, count + 1)
      | _ => .error .endless

/-- The rows of values from inside the first parenthesis up to the one that closes the last row,
which is not counted.  `row` holds the values of the row that is being read, and `bound` is a
bound on the number of tokens. -/
def readRows : (bound : Nat) → (row : List Node) → List Token →
    Except Fault (List (List Node) × Nat)
  | 0, _, _ => .error .endOfTokens
  | _ + 1, _, [] => .error .endOfTokens
  | bound + 1, row, token :: rest =>
    let (values, count) :=
      match value? token with
      | some item => ([item], 1)
      | none => ([], 0)
    match (token :: rest).drop count with
    | [] => .error .endOfTokens
    | ⟨.comma, _⟩ :: more => do
      let (rows, taken) ← readRows bound (row ++ values) more
      .ok (rows, count + 1 + taken)
    | ⟨.closeParen, _⟩ :: ⟨.comma, _⟩ :: ⟨.openParen, _⟩ :: more => do
      let (rows, taken) ← readRows bound [] more
      .ok ((row ++ values) :: rows, count + 3 + taken)
    | ⟨.closeParen, _⟩ :: _ => .ok ([row ++ values], count)
    | _ :: _ => .error .misplacedToken

def readSource (statements : List Token → Statements) (word table : String)
    (columns : List Node) : List Token → Except Fault (Node × Nat)
  | [] => .error .endOfTokens
  | ⟨.valuesWord, valuesWord⟩ :: ⟨.openParen, _⟩ :: rest => do
    let (rows, count) ← readRows rest.length [] rest
    .ok (.insertClause word table (some (valuesWord, rows)) columns [], count + 2)
  | ⟨.selectWord, selectWord⟩ :: rest =>
    let query := statements (⟨.selectWord, selectWord⟩ :: rest)
    match query.fault with
    | some fault => .error fault
    | none =>
      .ok (.insertClause word table none columns (query.read.map Prod.fst), totalCount query.read)
  | _ :: _ => .ok (.insertClause word table none columns [], 0)

def readInsert (statements : List Token → Statements) : List Token → Except Fault (Node × Nat)
  | insert :: table :: rest =>
    if table.kind = .identifier then
      match rest with
      | [] => .error .endOfTokens
      | ⟨.openParen, _⟩ :: inner => do
        let (columns, count) ← readColumns inner
        let (node, taken) ← readSource statements insert.text table.text columns (inner.drop count)
        .ok (node, 3 + count + taken)
      | source => do
        let (node, taken) ← readSource statements insert.text table.text [] source
        .ok (node, 2 + taken)
    else .error .misplacedToken
  | _ => .error .endOfTokens

end SqlLayout.Read
