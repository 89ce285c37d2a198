import SqlLayout.Text.Quoted
import SqlLayout.Text.Upper
import SqlLayout.Word

/-!
# Tokens

A token is a word together with its kind.  Keywords are recognised by their first piece, so `group
by` and `group by` are of one kind, and joins by their last.  A name in front of a parenthesis is
a function, except that after `INSERT INTO` it is the name of a table.
-/

namespace SqlLayout

open Text

inductive Kind where
  | insertWord
  | valuesWord
  | inWord
  | onWord
  | ascWord
  | asWord
  | isWord
  | nullWord
  | semicolon
  | comma
  | descWord
  | fromWord
  | groupWord
  | havingWord
  | selectWord
  | limitWord
  | notWord
  | orderWord
  | openParen
  | closeParen
  | rollupWord
  | whereWord
  | betweenWord
  | caseWord
  | whenWord
  | thenWord
  | elseWord
  | join
  | compare
  | link
  | func
  | number
  | str
  | identifier
  /-- A kind that no word has and no clause asks for. -/
  | other (name : String)
deriving DecidableEq, Repr

namespace Kind

/-- The kinds that a word is recognised as by its first piece, each with that piece in upper case.
-/
def keywords : List (String × Kind) :=
  [("INSERT", insertWord), ("VALUES", valuesWord), ("IN", inWord), ("ON", onWord),
    ("ASC", ascWord), ("AS", asWord), ("IS", isWord), ("NULL", nullWord), (";", semicolon),
    (",", comma), ("DESC", descWord), ("FROM", fromWord), ("GROUP", groupWord),
    ("HAVING", havingWord), ("SELECT", selectWord), ("LIMIT", limitWord), ("NOT", notWord),
    ("ORDER", orderWord), ("(", openParen), (")", closeParen), ("WITH", rollupWord),
    ("WHERE", whereWord), ("BETWEEN", betweenWord), ("CASE", caseWord), ("WHEN", whenWord),
    ("THEN", thenWord), ("ELSE", elseWord)]

def forms : List (String × Kind) :=
  [("join", join), ("compare", compare), ("link", link), ("func", func), ("number", number),
    ("str", str), ("identifier", identifier)]

def name : Kind → String
  | insertWord => "INSERT"
  | valuesWord => "VALUES"
  | inWord => "IN"
  | onWord => "ON"
  | ascWord => "ASC"
  | asWord => "AS"
  | isWord => "IS"
  | nullWord => "NULL"
  | semicolon => ";"
  | comma => ","
  | descWord => "DESC"
  | fromWord => "FROM"
  | groupWord => "GROUP"
  | havingWord => "HAVING"
  | selectWord => "SELECT"
  | limitWord => "LIMIT"
  | notWord => "NOT"
  | orderWord => "ORDER"
  | openParen => "("
  | closeParen => ")"
  | rollupWord => "WITH"
  | whereWord => "WHERE"
  | betweenWord => "BETWEEN"
  | caseWord => "CASE"
  | whenWord => "WHEN"
  | thenWord => "THEN"
  | elseWord => "ELSE"
  | join => "join"
  | compare => "compare"
  | link => "link"
  | func => "func"
  | number => "number"
  | str => "str"
  | identifier => "identifier"
  | other name => name

def ofName (name : String) : Kind :=
  ((keywords ++ forms).lookup name).getD (other name)

def ofPieces? (first last : String) : Option Kind :=
  match keywords.lookup (upper first) with
  | some kind => some kind
  | none => if upper last = "JOIN" then some join else none

/-- What a word is recognised as: a keyword, a join or neither.  A word of blanks alone has no piece
to recognise it by. -/
def recognise? (word : String) : Option (Option Kind) :=
  match pieces word with
  | [] => none
  | first :: rest => some (ofPieces? first ((first :: rest).getLast (List.cons_ne_nil _ _)))

def ofWord? (word : String) : Option Kind :=
  (recognise? word).join

/-- Whether tokens of this kind are values: names, numbers and quoted text. -/
def isValue : Kind → Bool
  | identifier | number | str => true
  | _ => false

/-- Whether tokens of this kind name a column or count one: names and numbers. -/
def isColumn : Kind → Bool
  | identifier | number => true
  | _ => false

end Kind

structure Token where
  kind : Kind
  text : String
deriving DecidableEq, Repr

namespace Token

def comparisons : List String :=
  ["=", "<>", "<", ">", "!=", ">=", "<="]

/-- The kind of a word that is no keyword, no number and no head of a call. -/
def plainKind (word : String) : Kind :=
  if word.toList.head?.any Word.isQuote then .str
  else if comparisons.contains word || upper word = "LIKE" then .compare
  else if upper word = "AND" || upper word = "OR" then .link
  else .identifier

def isNumber (word : String) : Bool :=
  word.toList.head?.any fun c ↦ isDigit c || c == '+' || c == '-'

/-- The tokens of one word; `last` is the kind of the last keyword before it. -/
def ofWord (last : Option Kind) (word : String) : List Token :=
  match Kind.ofWord? word with
  | some kind => [⟨kind, word⟩]
  | none =>
    if isNumber word then [⟨.number, word⟩]
    else if word.toList.getLast? = some '(' then
      [⟨if last = some .insertWord then .identifier else .func,
          trim (String.ofList word.toList.dropLast)⟩, ⟨.openParen, "("⟩]
    else [⟨plainKind word, word⟩]

/-- The tokens of a list of words; `last` is the kind of the last keyword before them. -/
def ofWords (last : Option Kind) : List String → List Token
  | [] => []
  | word :: words => ofWord last word ++ ofWords (Kind.ofWord? word <|> last) words

def display (token : Token) : String :=
  "<" ++ token.kind.name ++ ": " ++ token.text ++ ">"

def displayAll (tokens : List Token) : String :=
  bracketed (tokens.map display)

/-- Whether the tokens start with tokens of the given kinds, place by place; `none` is any kind. -/
def startWith : List Token → List (Option (List Kind)) → Bool
  | _, [] => true
  | [], _ :: _ => false
  | token :: tokens, kinds :: shape =>
    (match kinds with
      | none => true
      | some allowed => allowed.contains token.kind) && startWith tokens shape

end Token

structure Tokens where
  tokens : List Token
  unclosed : Option String
deriving DecidableEq, Repr

def tokenize (text : String) : Tokens :=
  let cut := Word.cut text
  ⟨Token.ofWords none cut.words, cut.unclosed⟩

end SqlLayout
