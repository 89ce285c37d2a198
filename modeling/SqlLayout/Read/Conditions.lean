import SqlLayout.Read.Call

/-!
# Reading conditions

The conditions of WHERE and HAVING, linked by AND and OR.  Whether a condition may be a membership
test is decided once, by the way the whole list of conditions starts.  A query inside a membership
test is read by the reader of statements, which is passed in.
-/

namespace SqlLayout.Read

/-- The statements read from a list of tokens, each with the number of tokens it took, up to the
end or to a fault. -/
structure Statements where
  read : List (Node × Nat)
  fault : Option Fault

/-- `NOT a = b` -/
def negated? : List Token → Option (Node × Nat)
  | ⟨.notWord, word⟩ :: left :: ⟨.compare, op⟩ :: right :: _ => do
    return (.condition [.not word, ← value? left, .operator op, ← value? right], 4)
  | _ => none

/-- `a BETWEEN b AND c` -/
def between? : List Token → Option (Node × Nat)
  | left :: ⟨.betweenWord, word⟩ :: low :: ⟨.link, link⟩ :: high :: _ => do
    return (.condition [← value? left, .between word, ← value? low, .link link, ← value? high], 5)
  | _ => none

/-- `a = b` -/
def comparison? : List Token → Option (Node × Nat)
  | left :: ⟨.compare, op⟩ :: right :: _ => do
    return (.condition [← value? left, .operator op, ← value? right], 3)
  | _ => none

/-- `a IS NULL` -/
def isNull? : List Token → Option (Node × Nat)
  | left :: ⟨.isWord, word⟩ :: ⟨.nullWord, null⟩ :: _ => do
    return (.condition [← value? left, .is word, .null null], 3)
  | _ => none

/-- `a IS NOT NULL` -/
def isNotNull? : List Token → Option (Node × Nat)
  | left :: ⟨.isWord, word⟩ :: ⟨.notWord, no⟩ :: ⟨.nullWord, null⟩ :: _ => do
    return (.condition [← value? left, .is word, .not no, .null null], 4)
  | _ => none

def simpleCondition? (tokens : List Token) : Option (Node × Nat) :=
  negated? tokens <|> between? tokens <|> comparison? tokens <|> isNull? tokens <|>
    isNotNull? tokens

/-- `NOT f(x) = a`, where the count covers the NOT and all of the call but its last token. -/
def readNegatedCall (word : String) (rest : List Token) : Except Fault (Node × Nat) := do
  let (call, count) ← readCall rest
  match rest.drop count with
  | op :: right :: _ =>
    .ok (.condition [.not word, call, .operator op.text, ← readOperand right], count)
  | _ => .error .endOfTokens

def opensMembership : List Token → Bool
  | left :: op :: ⟨.openParen, _⟩ :: _ :: _ :: _ =>
    left.kind.isColumn && (op.kind = .inWord || op.kind = .compare)
  | _ => false

def totalCount (statements : List (Node × Nat)) : Nat :=
  statements.foldr (fun statement total ↦ statement.2 + total) 0

/-- What stands in a parenthesis, up to and including the one that closes it.  A value joins those
found so far.  A query takes their place, and no value can join it.  At any other token but a comma
the reading never ends.  `bound` is a bound on the number of tokens. -/
def readGroup (statements : List Token → Statements) :
    (bound : Nat) → (found : Node) → List Token → Except Fault (Node × Nat)
  | 0, _, _ => .error .endOfTokens
  | _ + 1, _, [] => .error .endOfTokens
  | bound + 1, found, token :: rest =>
    match value? token with
    | some item =>
      match found with
      | .group items => do
        let (all, count) ← readGroup statements bound (.group (items ++ [item])) rest
        .ok (all, count + 1)
      | _ => .error .missingPart
    | none =>
      match token.kind with
      | .closeParen => .ok (found, 1)
      | .comma => do
        let (all, count) ← readGroup statements bound found rest
        .ok (all, count + 1)
      | .selectWord =>
        let query := statements (token :: rest)
        match query.fault with
        | some fault => .error fault
        | none => do
          let taken := totalCount query.read
          let (all, count) ← readGroup statements bound (.subselect (query.read.map Prod.fst))
            ((token :: rest).drop taken)
          .ok (all, taken + count)
      | _ => .error .endless

def readMembership (statements : List Token → Statements) : List Token → Except Fault (Node × Nat)
  | [] => .error .endOfTokens
  | left :: rest => do
    let operand ← readOperand left
    match rest with
    | [] => .error .endOfTokens
    | op :: inner =>
      let (found, count) ← readGroup statements inner.length (.group []) (inner.drop 1)
      .ok (.condition [operand, .operator op.text, found], count + 3)

/-- One condition.  A negated call needs four tokens after the name of the function. -/
def readCondition (statements : List Token → Statements) (membership : Bool)
    (tokens : List Token) : Except Fault (Node × Nat) :=
  match simpleCondition? tokens with
  | some found => .ok found
  | none =>
    match tokens with
    | ⟨.notWord, word⟩ :: ⟨.func, name⟩ :: a :: b :: c :: d :: rest =>
      readNegatedCall word (⟨.func, name⟩ :: a :: b :: c :: d :: rest)
    | _ => if membership then readMembership statements tokens else .error .invalidCondition

/-- Linked conditions; `bound` is a bound on the number of tokens. -/
def readLinked (statements : List Token → Statements) (membership : Bool) :
    (bound : Nat) → List Token → Except Fault (List Node × Nat)
  | 0, _ => .ok ([], 0)
  | _ + 1, [] => .ok ([], 0)
  | bound + 1, token :: rest => do
    let (condition, count) ← readCondition statements membership (token :: rest)
    match (token :: rest).drop count with
    | ⟨.link, word⟩ :: more =>
      let (others, taken) ← readLinked statements membership bound more
      .ok (condition :: .link word :: others, count + 1 + taken)
    | _ => .ok ([condition], count)

def readConditions (statements : List Token → Statements) (tokens : List Token) :
    Except Fault (List Node × Nat) :=
  readLinked statements (opensMembership tokens) tokens.length tokens

def readWhere (statements : List Token → Statements) : List Token → Except Fault (Node × Nat)
  | [] => .error .endOfTokens
  | token :: rest => do
    let (conditions, count) ← readConditions statements rest
    .ok (.whereClause token.text conditions, count + 1)

def readHaving (statements : List Token → Statements) : List Token → Except Fault (Node × Nat)
  | [] => .error .endOfTokens
  | token :: rest => do
    let (conditions, count) ← readConditions statements rest
    .ok (.havingClause token.text conditions, count + 1)

end SqlLayout.Read
