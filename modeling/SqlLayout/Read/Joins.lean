import SqlLayout.Read.Call

/-!
# Reading FROM clauses

The parts of a FROM clause are tables, joins and the conditions that an ON introduces.  Commas
between them are optional.
-/

namespace SqlLayout.Read

def readNameComparison : List Token → List Node × Nat
  | ⟨.identifier, left⟩ :: ⟨.compare, op⟩ :: ⟨.identifier, right⟩ :: _ =>
    ([.condition [.plain .identifier left, .operator op, .plain .identifier right]], 3)
  | _ => ([], 0)

def readCallOnRight : List Token → Except Fault (List Node × Nat)
  | ⟨.identifier, left⟩ :: ⟨.compare, op⟩ :: ⟨.func, name⟩ :: rest => do
    let (call, count) ← readCall (⟨.func, name⟩ :: rest)
    .ok ([.condition [.plain .identifier left, .operator op, call]], count + 2)
  | _ => .ok ([], 0)

/-- A comparison of a call with a name or with another call.  After two calls the token that follows
the second is taken too. -/
def readCallOnLeft : List Token → Except Fault (List Node × Nat)
  | ⟨.func, name⟩ :: rest => do
    let (call, count) ← readCall (⟨.func, name⟩ :: rest)
    match (⟨.func, name⟩ :: rest : List Token).drop count with
    | ⟨.compare, op⟩ :: ⟨.identifier, right⟩ :: _ =>
      .ok ([.condition [call, .operator op, .plain .identifier right]], count + 2)
    | ⟨.compare, op⟩ :: ⟨.func, other⟩ :: more =>
      let (right, taken) ← readCall (⟨.func, other⟩ :: more)
      .ok ([.condition [call, .operator op, right]], count + 2 + taken)
    | _ => .ok ([], 0)
  | _ => .ok ([], 0)

/-- The comparisons that stand next to each other at the front: at most one of each form. -/
def readComparisons (tokens : List Token) : Except Fault (List Node × Nat) := do
  let (names, n) := readNameComparison tokens
  let (right, m) ← readCallOnRight (tokens.drop n)
  let (left, k) ← readCallOnLeft (tokens.drop (n + m))
  .ok (names ++ right ++ left, n + m + k)

/-- The linked conditions after an ON; `bound` is a bound on the number of tokens. -/
def readJoinConditions : (bound : Nat) → List Token → Except Fault (List Node × Nat)
  | 0, _ => .ok ([], 0)
  | _ + 1, [] => .ok ([], 0)
  | bound + 1, token :: rest => do
    let (conditions, count) ← readComparisons (token :: rest)
    match (token :: rest).drop count with
    | ⟨.link, word⟩ :: more =>
      let (others, taken) ← readJoinConditions bound more
      .ok (conditions ++ .link word :: others, count + 1 + taken)
    | _ => .ok (conditions, count)

/-- The part that starts a list of tokens, `none` if no part of a FROM clause does. -/
def readFromPart (tokens : List Token) : Except Fault (Option (List Node × Nat)) :=
  match tokens with
  | ⟨.identifier, _⟩ :: _ | ⟨.number, _⟩ :: _ => do
    let (node, count) ← readNamed tokens
    .ok (some ([node], count))
  | ⟨.join, word⟩ :: _ => .ok (some ([.join word], 1))
  | ⟨.onWord, word⟩ :: rest => do
    let (conditions, count) ← readJoinConditions rest.length rest
    .ok (some ([.onClause word conditions], count + 1))
  | ⟨.comma, _⟩ :: _ => .ok (some ([], 1))
  | _ => .ok none

/-- The parts of a FROM clause; `bound` is a bound on the number of tokens. -/
def readFromParts : (bound : Nat) → List Token → Except Fault (List Node × Nat)
  | 0, _ => .ok ([], 0)
  | bound + 1, tokens => do
    match ← readFromPart tokens with
    | none => .ok ([], 0)
    | some (part, count) =>
      let (parts, taken) ← readFromParts bound (tokens.drop count)
      .ok (part ++ parts, count + taken)

def readFrom : List Token → Except Fault (Node × Nat)
  | [] => .error .endOfTokens
  | token :: rest => do
    let (parts, count) ← readFromParts rest.length rest
    .ok (.fromClause token.text parts, count + 1)

end SqlLayout.Read
