import SqlLayout.Text.Blank
import SqlLayout.Text.Digit
import SqlLayout.Text.WordChar

/-!
# Words of SQL text

A text is cut into words from left to right.  At a quote the word reaches to the next equal quote.
Anywhere else the first rule of `Word.rules` that fits the start of the text gives the word, and
where no rule fits one character is dropped.  Keyword phrases stand before names in the order of
rules, so a name is only what no phrase claims.
-/

namespace SqlLayout.Word

open Text

/-- Whether `c` spells the lower-case letter `letter` when case is ignored.  The long s spells s,
the dotless and the dotted capital i spell i, and the Kelvin sign spells k. -/
def spells (letter c : Char) : Bool :=
  c.toLower == letter || (letter == 's' && c == 'ſ') ||
    (letter == 'i' && (c == 'ı' || c == 'İ')) || (letter == 'k' && c.toNat == 0x212A)

def runLength (p : Char → Bool) (text : List Char) : Nat :=
  (text.takeWhile p).length

/-- As `runLength`, but at least one character has to be there. -/
def runLength? (p : Char → Bool) (text : List Char) : Option Nat :=
  match runLength p text with
  | 0 => none
  | n + 1 => some (n + 1)

def spelledLength? : (letters text : List Char) → Option Nat
  | [], _ => some 0
  | _ :: _, [] => none
  | letter :: letters, c :: text =>
    if spells letter c then (spelledLength? letters text).map (· + 1) else none

/-- The length of the start of the text that spells the given words with blanks between them. -/
def phraseLength? : List String → List Char → Option Nat
  | [], _ => some 0
  | [word], text => spelledLength? word.toList text
  | word :: next :: words, text => do
    let head ← spelledLength? word.toList text
    let gap ← runLength? isBlank (text.drop head)
    let tail ← phraseLength? (next :: words) (text.drop (head + gap))
    return head + gap + tail

/-- Whether a word that ends where this text starts is complete. -/
def atWordEnd : List Char → Bool
  | [] => true
  | c :: _ => !isWordChar c

inductive Rule where
  /-- Keywords with blanks between them, complete at their end. -/
  | phrase (words : List String)
  /-- Keywords with blanks between them, whatever follows. -/
  | openPhrase (words : List String)
  /-- Fixed characters. -/
  | symbol (text : String)
  /-- A name and the parenthesis that opens its arguments. -/
  | callHead
  /-- Decimal digits with an optional sign in front and an optional point inside or after. -/
  | number
  /-- Two names in backticks with a point between them. -/
  | backtickPair
  /-- A name in backticks. -/
  | backtickName
  /-- Two names with a point between them. -/
  | dottedName
  /-- All columns of a named table. -/
  | dottedStar
  /-- A name. -/
  | name
  /-- A placeholder for a named argument. -/
  | namedPlaceholder
  /-- A placeholder for an argument. -/
  | placeholder
deriving DecidableEq, Repr

def backtickLength? : List Char → Option Nat
  | '`' :: text => do
    let n ← runLength? isWordChar text
    if (text.drop n).head? = some '`' then some (n + 2) else none
  | _ => none

def unsignedLength? (text : List Char) : Option Nat := do
  let whole ← runLength? isDecimal text
  match text.drop whole with
  | '.' :: fraction => return whole + 1 + runLength isDecimal fraction
  | _ => return whole

def numberLength? : List Char → Option Nat
  | '-' :: text => (unsignedLength? text).map (· + 1)
  | '+' :: text => (unsignedLength? text).map (· + 1)
  | text => unsignedLength? text

def Rule.length? (text : List Char) : Rule → Option Nat
  | .phrase words => do
    let n ← phraseLength? words text
    if atWordEnd (text.drop n) then some n else none
  | .openPhrase words => phraseLength? words text
  | .symbol s => if s.toList.isPrefixOf text then some s.length else none
  | .callHead => do
    let n ← runLength? isWordChar text
    let gap := runLength isBlank (text.drop n)
    if (text.drop (n + gap)).head? = some '(' then some (n + gap + 1) else none
  | .number => numberLength? text
  | .backtickPair => do
    let n ← backtickLength? text
    match text.drop n with
    | '.' :: rest => return n + 1 + (← backtickLength? rest)
    | _ => none
  | .backtickName => backtickLength? text
  | .dottedName => do
    let n ← runLength? isWordChar text
    match text.drop n with
    | '.' :: rest => return n + 1 + (← runLength? isWordChar rest)
    | _ => none
  | .dottedStar => do
    let n ← runLength? isWordChar text
    match text.drop n with
    | '.' :: '*' :: _ => return n + 2
    | _ => none
  | .name => runLength? isWordChar text
  | .namedPlaceholder =>
    match text with
    | '%' :: '(' :: rest => do
      let n ← runLength? isWordChar rest
      match rest.drop n with
      | ')' :: c :: _ => if spells 's' c then some (n + 4) else none
      | _ => none
    | _ => none
  | .placeholder =>
    match text with
    | '%' :: c :: _ => if spells 's' c then some 2 else none
    | _ => none

def rules : List Rule :=
  [.phrase ["insert", "into"], .phrase ["values"], .phrase ["in"], .phrase ["on"], .phrase ["asc"],
    .phrase ["as"], .phrase ["is"], .phrase ["null"], .symbol ";", .symbol ",", .symbol "=",
    .symbol "!=", .symbol ">=", .symbol "<=", .symbol "<>", .symbol "<", .symbol ">",
    .phrase ["desc"], .phrase ["from"], .openPhrase ["group", "by"], .phrase ["having"],
    .phrase ["select", "distinct"], .phrase ["select", "sql_no_cache"],
    .phrase ["select", "sql_calc_found_rows"], .phrase ["select"], .phrase ["limit"],
    .phrase ["and"], .phrase ["or"], .phrase ["not"], .phrase ["order", "by"], .symbol "(",
    .symbol ")", .phrase ["with", "rollup"], .phrase ["where"], .callHead,
    .phrase ["left", "outer", "join"], .phrase ["left", "join"], .phrase ["right", "outer", "join"],
    .phrase ["right", "join"], .phrase ["natural", "join"], .phrase ["inner", "join"],
    .phrase ["join"], .phrase ["between"], .phrase ["case"], .phrase ["when"], .phrase ["then"],
    .phrase ["else"], .number, .backtickPair, .backtickName, .dottedName, .dottedStar, .name,
    .namedPlaceholder, .placeholder, .symbol "*"]

def isQuote (c : Char) : Bool :=
  c == '"' || c == '\''

inductive Start where
  /-- A word of this length. -/
  | word (length : Nat)
  /-- A character that belongs to no word. -/
  | dropped
  /-- A quote that is never closed. -/
  | unclosed
deriving DecidableEq, Repr

/-- What stands at the start of the text `c :: rest`. -/
def startOf (c : Char) (rest : List Char) : Start :=
  if isQuote c then
    match rest.idxOf? c with
    | some n => .word (n + 2)
    | none => .unclosed
  else
    match rules.findSome? (Rule.length? (c :: rest)) with
    | some n => .word n
    | none => .dropped

/-- The words of a text up to its end or to a quote that is never closed, which is then kept with
all that follows it. -/
structure Cut where
  words : List String
  unclosed : Option String
deriving DecidableEq, Repr

/-- The words of a text of which the first `skip` characters are already taken. -/
def cutFrom : (skip : Nat) → List Char → Cut
  | _, [] => ⟨[], none⟩
  | skip + 1, _ :: rest => cutFrom skip rest
  | 0, c :: rest =>
    match startOf c rest with
    | .word n =>
      let cut := cutFrom (n - 1) rest
      ⟨String.ofList ((c :: rest).take n) :: cut.words, cut.unclosed⟩
    | .dropped => cutFrom 0 rest
    | .unclosed => ⟨[], some (String.ofList (c :: rest))⟩

def cut (text : String) : Cut :=
  cutFrom 0 text.toList

end SqlLayout.Word
