import SqlLayout.Fault
import SqlLayout.Node

/-!
# Reading values and aliases

A reader takes what it wants from the front of a list of tokens and returns it with the number of
tokens taken.  Here are the readers of single values and of the alias that may follow one.
-/

namespace SqlLayout.Read

structure Alias where
  asWord : Option String
  name : Option String
deriving DecidableEq, Repr

def aliasName? : List Token → Option String
  | token :: _ => if token.kind.isValue then some token.text else none
  | [] => none

def readAlias : List Token → Alias × Nat
  | ⟨.asWord, word⟩ :: rest =>
    match aliasName? rest with
    | some name => (⟨some word, some name⟩, 2)
    | none => (⟨some word, none⟩, 1)
  | tokens =>
    match aliasName? tokens with
    | some name => (⟨none, some name⟩, 1)
    | none => (⟨none, none⟩, 0)

def termKind? : Kind → Option TermKind
  | .identifier => some .identifier
  | .number => some .number
  | .str => some .str
  | _ => none

def columnKind? : Kind → Option TermKind
  | .identifier => some .identifier
  | .number => some .number
  | _ => none

def value? (token : Token) : Option Node :=
  (termKind? token.kind).map fun kind ↦ Node.plain kind token.text

def readOperand (token : Token) : Except Fault Node :=
  match value? token with
  | some node => .ok node
  | none =>
    if token.kind = .notWord then .ok (.not token.text) else .error (.notAValue token.kind)

def readNamed : List Token → Except Fault (Node × Nat)
  | ⟨.identifier, text⟩ :: rest =>
    let (found, count) := readAlias rest
    .ok (.term ⟨.identifier, text, found.name, found.asWord, none⟩, count + 1)
  | ⟨.number, text⟩ :: rest =>
    let (found, count) := readAlias rest
    .ok (.term ⟨.number, text, found.name, found.asWord, none⟩, count + 1)
  | ⟨.str, _⟩ :: _ => .error .quotedName
  | tokens => .error (.invalidName tokens)

end SqlLayout.Read
