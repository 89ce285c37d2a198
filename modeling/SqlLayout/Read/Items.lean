import SqlLayout.Read.Call

/-!
# Reading lists of items

The clauses that are a keyword and a list of items: SELECT with names, calls and case expressions,
GROUP BY, ORDER BY and LIMIT.
-/

namespace SqlLayout.Read

def readBranches : List Token → List Node × Nat
  | ⟨.whenWord, whenWord⟩ :: condition :: ⟨.thenWord, thenWord⟩ :: result :: rest =>
    if condition.kind.isValue && result.kind.isValue then
      let (branches, count) := readBranches rest
      (.whenThen whenWord condition.text thenWord result.text :: branches, count + 4)
    else ([], 0)
  | ⟨.elseWord, elseWord⟩ :: result :: rest =>
    if result.kind.isValue then
      let (branches, count) := readBranches rest
      (.otherwise elseWord result.text :: branches, count + 2)
    else ([], 0)
  | _ => ([], 0)

def readCase : List Token → Except Fault (Node × Nat)
  | [] => .error .endOfTokens
  | token :: rest =>
    let (branches, count) := readBranches rest
    .ok (.caseOf token.text branches, count + 1)

def readSelectItem (tokens : List Token) : Except Fault (Node × Nat) :=
  match tokens with
  | ⟨.identifier, _⟩ :: _ | ⟨.number, _⟩ :: _ => readNamed tokens
  | ⟨.func, _⟩ :: _ => readCall tokens
  | ⟨.caseWord, _⟩ :: _ => readCase tokens
  | _ => .error .invalidSelect

/-- The items of a SELECT clause; `bound` is a bound on the number of tokens. -/
def readSelectItems : (bound : Nat) → List Token → Except Fault (List Node × Nat)
  | 0, _ => .ok ([], 0)
  | _ + 1, [] => .ok ([], 0)
  | bound + 1, token :: rest => do
    let (item, count) ← readSelectItem (token :: rest)
    match (token :: rest).drop count with
    | ⟨.comma, _⟩ :: more =>
      let (items, taken) ← readSelectItems bound more
      .ok (item :: items, count + 1 + taken)
    | _ => .ok ([item], count)

def readSelect : List Token → Except Fault (Node × Nat)
  | [] => .error .endOfTokens
  | token :: rest => do
    let (items, count) ← readSelectItems rest.length rest
    .ok (.selectClause token.text items, count + 1)

def readGroupItems : List Token → Except Fault (List Node × Nat)
  | [] => .ok ([], 0)
  | token :: rest =>
    match columnKind? token.kind with
    | none => .error .invalidGroupBy
    | some kind =>
      match rest with
      | ⟨.comma, _⟩ :: more => do
        let (items, count) ← readGroupItems more
        .ok (.plain kind token.text :: items, count + 2)
      | _ => .ok ([.plain kind token.text], 1)

def readGroupBy (tokens : List Token) : Except Fault (Node × Nat) := do
  let (items, count) ← readGroupItems (tokens.drop 1)
  match tokens.drop (count + 1) with
  | ⟨.rollupWord, word⟩ :: _ => .ok (.groupByClause items (some word), count + 2)
  | _ => .ok (.groupByClause items none, count + 1)

def sortWord? : List Token → Option String
  | ⟨.ascWord, word⟩ :: _ | ⟨.descWord, word⟩ :: _ => some word
  | _ => none

/-- The items of an ORDER BY clause; `bound` is a bound on the number of tokens. -/
def readOrderItems : (bound : Nat) → List Token → Except Fault (List Node × Nat)
  | 0, _ => .ok ([], 0)
  | _ + 1, [] => .ok ([], 0)
  | bound + 1, token :: rest =>
    match columnKind? token.kind with
    | none => .error .invalidOrderBy
    | some kind =>
      let sort := sortWord? rest
      let count := if sort.isSome then 2 else 1
      let item := Node.term ⟨kind, token.text, none, none, sort⟩
      match (token :: rest).drop count with
      | ⟨.comma, _⟩ :: more => do
        let (items, taken) ← readOrderItems bound more
        .ok (item :: items, count + 1 + taken)
      | _ => .ok ([item], count)

def readOrderBy (tokens : List Token) : Except Fault (Node × Nat) := do
  let (items, count) ← readOrderItems tokens.length (tokens.drop 1)
  .ok (.orderByClause items, count + 1)

def readPlainLimit (tokens : List Token) : Except Fault (Node × Nat) :=
  match tokens with
  | ⟨.limitWord, _⟩ :: ⟨.number, count⟩ :: _ =>
    .ok (.limitClause ⟨.number, count, none, none, none⟩ none none, 2)
  | _ => .error (.invalidLimit tokens)

def readLimit (tokens : List Token) : Except Fault (Node × Nat) :=
  match tokens with
  | ⟨.limitWord, _⟩ :: ⟨.number, offset⟩ :: ⟨.comma, _⟩ :: ⟨.number, count⟩ :: _ =>
    .ok (.limitClause ⟨.number, count, none, none, none⟩
      (some ⟨.number, offset, none, none, none⟩) none, 4)
  | ⟨.limitWord, _⟩ :: ⟨.number, count⟩ :: ⟨.identifier, word⟩ :: ⟨.number, offset⟩ :: _ =>
    if Text.upper word = "OFFSET" then
      .ok (.limitClause ⟨.number, count, none, none, none⟩
        (some ⟨.number, offset, none, none, none⟩) (some word), 4)
    else readPlainLimit tokens
  | _ => readPlainLimit tokens

end SqlLayout.Read
