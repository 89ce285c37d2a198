import SqlLayout.Read.Alias

/-!
# Reading function calls

A call is a function, an opening parenthesis, arguments with commas between them, a closing
parenthesis and an alias.  An argument is a value or again a call.  A comma may stand in front of
the first argument and behind the last.
-/

namespace SqlLayout.Read

/-- The arguments of a call up to and including the closing parenthesis.  `bound` is a bound on the
number of tokens, and `first` tells whether no argument or comma stands in front. -/
def readArgs : (bound : Nat) → (first : Bool) → List Token → Except Fault (List Node × Nat)
  | 0, _, _ => .error .unbalanced
  | _ + 1, _, [] => .error .unbalanced
  | bound + 1, first, token :: rest => do
    let (arg, count) ←
      match value? token with
      | some node => .ok ([node], 1)
      | none =>
        if token.kind = .func then
          match rest with
          | [] => .error .endOfTokens
          | paren :: inner =>
            if paren.kind = .openParen then do
              let (args, count) ← readArgs bound true inner
              let (found, taken) := readAlias (inner.drop count)
              .ok ([.call token.text args found.asWord found.name], 2 + count + taken)
            else .error .unbalanced
        else if !first && token.kind != .closeParen then .error .invalidCall
        else .ok ([], 0)
    match (token :: rest).drop count with
    | [] => .error .endOfTokens
    | ⟨.comma, _⟩ :: more =>
      let (args, taken) ← readArgs bound false more
      .ok (arg ++ args, count + 1 + taken)
    | ⟨.closeParen, _⟩ :: _ => .ok (arg, count + 1)
    | _ :: _ => .error .invalidCall

def readCall : List Token → Except Fault (Node × Nat)
  | [] => .error .endOfTokens
  | token :: rest =>
    if token.kind = .func then
      match rest with
      | [] => .error .endOfTokens
      | paren :: inner =>
        if paren.kind = .openParen then do
          let (args, count) ← readArgs inner.length true inner
          let (found, taken) := readAlias (inner.drop count)
          .ok (.call token.text args found.asWord found.name, 2 + count + taken)
        else .error .unbalanced
    else .error .notACall

end SqlLayout.Read
