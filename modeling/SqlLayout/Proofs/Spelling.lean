import SqlLayout.Layout.Statement
import SqlLayout.Proofs.Words.Written

/-!
# The tokens of a tree

The tokens that the layout of a tree is written with.  Keywords and the names of functions are in
upper case, so what is read back is the tree in upper case.
-/

namespace SqlLayout

open Text

namespace Node

mutual

def upperCased : Node → Node
  | term t => term { t with asWord := t.asWord.map upper, sort := t.sort.map upper }
  | call name args asWord aliasName =>
    call (upper name) (upperCasedEach args) (asWord.map upper) aliasName
  | caseOf word branches => caseOf (upper word) (upperCasedEach branches)
  | whenThen whenWord tested thenWord result =>
    whenThen (upper whenWord) tested (upper thenWord) result
  | otherwise elseWord result => otherwise (upper elseWord) result
  | semicolon text => semicolon text
  | is text => is (upper text)
  | null text => null (upper text)
  | join text => join (upper text)
  | link text => link (upper text)
  | not text => not (upper text)
  | between text => between (upper text)
  | operator text => operator (upper text)
  | condition parts => condition (upperCasedEach parts)
  | group items => group (upperCasedEach items)
  | subselect statements => subselect (upperCasedEach statements)
  | onClause word parts => onClause (upper word) (upperCasedEach parts)
  | valuesClause word rows => valuesClause (upper word) (upperCasedRows rows)
  | selectClause word items => selectClause (upper word) (upperCasedEach items)
  | fromClause word parts => fromClause (upper word) (upperCasedEach parts)
  | whereClause word conditions => whereClause (upper word) (upperCasedEach conditions)
  | groupByClause items rollup => groupByClause (upperCasedEach items) (rollup.map upper)
  | havingClause word conditions => havingClause (upper word) (upperCasedEach conditions)
  | orderByClause items => orderByClause (upperCasedEach items)
  | limitClause count offset offsetWord => limitClause count offset (offsetWord.map upper)
  | insertClause word table none columns query =>
    insertClause (upper word) table none (upperCasedEach columns) (upperCasedEach query)
  | insertClause word table (some (valuesWord, rows)) columns query =>
    insertClause (upper word) table (some (upper valuesWord, upperCasedRows rows))
      (upperCasedEach columns) (upperCasedEach query)

def upperCasedEach : List Node → List Node
  | [] => []
  | node :: nodes => node.upperCased :: upperCasedEach nodes

def upperCasedRows : List (List Node) → List (List Node)
  | [] => []
  | row :: rows => upperCasedEach row :: upperCasedRows rows

end

end Node

def Kind.startsClause : Kind → Bool
  | insertWord | fromWord | groupWord | havingWord | selectWord | limitWord | orderWord | whereWord
  | semicolon => true
  | _ => false

namespace Token

def ofValue (text : String) : Token :=
  ⟨if isNumber text then .number else plainKind text, text⟩

@[simp] theorem ofValue_text (text : String) : (ofValue text).text = text := rfl

def comma : Token := ⟨.comma, ","⟩

def openParen : Token := ⟨.openParen, "("⟩

def closeParen : Token := ⟨.closeParen, ")"⟩

end Token

def TermKind.tokenKind : TermKind → Kind
  | .identifier => .identifier
  | .number => .number
  | .str => .str

namespace Spelling

open Token

def termToken (t : Term) : Token :=
  ⟨t.kind.tokenKind, t.text⟩

def aliasTokens (asWord aliasName : Option String) : List Token :=
  (asWord.map fun word ↦ ⟨.asWord, upper word⟩).toList ++ (aliasName.map ofValue).toList

def namedTokens (t : Term) : List Token :=
  termToken t :: aliasTokens t.asWord t.aliasName

def commaBefore (rest : List Node) : List Token :=
  if rest.isEmpty then [] else [comma]

def separated (item : Node → List Token) : List Node → List Token
  | [] => []
  | node :: rest => item node ++ commaBefore rest ++ separated item rest

mutual

def callTokens : Node → List Token
  | .call name args asWord aliasName =>
    ⟨.func, upper name⟩ :: openParen :: argTokens args ++ closeParen :: aliasTokens asWord aliasName
  | .term t => [termToken t]
  | _ => []

def argTokens : List Node → List Token
  | [] => []
  | arg :: rest => callTokens arg ++ commaBefore rest ++ argTokens rest

end

def branchTokens : Node → List Token
  | .whenThen whenWord tested thenWord result =>
    [⟨.whenWord, upper whenWord⟩, ofValue tested, ⟨.thenWord, upper thenWord⟩, ofValue result]
  | .otherwise elseWord result => [⟨.elseWord, upper elseWord⟩, ofValue result]
  | _ => []

def itemTokens : Node → List Token
  | .term t => namedTokens t
  | .call name args asWord aliasName => callTokens (.call name args asWord aliasName)
  | .caseOf word branches => ⟨.caseWord, upper word⟩ :: branches.flatMap branchTokens
  | _ => []

def plainTokens : Node → List Token
  | .term t => [termToken t]
  | _ => []

def partTokens : Node → List Token
  | .term t => [termToken t]
  | .call name args asWord aliasName => callTokens (.call name args asWord aliasName)
  | .operator op => [⟨if upper op = "IN" then .inWord else .compare, upper op⟩]
  | .not word => [⟨.notWord, upper word⟩]
  | .is word => [⟨.isWord, upper word⟩]
  | .null word => [⟨.nullWord, upper word⟩]
  | .between word => [⟨.betweenWord, upper word⟩]
  | .link word => [⟨.link, upper word⟩]
  | .group items => openParen :: separated plainTokens items ++ [closeParen]
  | _ => []

def conditionTokens : Node → List Token
  | .condition parts => parts.flatMap partTokens
  | .link word => [⟨.link, upper word⟩]
  | _ => []

def startsWithTerm : List Node → Bool
  | .term _ :: _ => true
  | _ => false

/-- The tokens of the parts of a FROM clause.  No comma follows the table of a join. -/
def fromTokens : List Node → List Token
  | .join word :: .term t :: rest => ⟨.join, upper word⟩ :: namedTokens t ++ fromTokens rest
  | .onClause word parts :: rest =>
    ⟨.onWord, upper word⟩ :: parts.flatMap conditionTokens ++ fromTokens rest
  | .term t :: rest =>
    namedTokens t ++ (if startsWithTerm rest then [comma] else []) ++ fromTokens rest
  | _ => []

def sortToken (word : String) : Token :=
  ⟨if upper word = "ASC" then .ascWord else .descWord, upper word⟩

def orderTokens : Node → List Token
  | .term t => termToken t :: (t.sort.map sortToken).toList
  | _ => []

def limitTokens (count : Term) : Option Term → Option String → List Token
  | none, _ => [termToken count]
  | some offset, some word => [termToken count, ⟨.identifier, upper word⟩, termToken offset]
  | some offset, none => [termToken offset, comma, termToken count]

def columnTokens (columns : List Node) : List Token :=
  if columns.isEmpty then [] else openParen :: separated plainTokens columns ++ [closeParen]

mutual

def statementTokens : Node → List Token
  | .selectClause word items => ⟨.selectWord, upper word⟩ :: separated itemTokens items
  | .fromClause word parts => ⟨.fromWord, upper word⟩ :: fromTokens parts
  | .whereClause word conditions =>
    ⟨.whereWord, upper word⟩ :: conditions.flatMap conditionTokens
  | .groupByClause items rollup =>
    ⟨.groupWord, "GROUP BY"⟩ :: separated plainTokens items ++
      (rollup.map fun word ↦ ⟨.rollupWord, upper word⟩).toList
  | .havingClause word conditions =>
    ⟨.havingWord, upper word⟩ :: conditions.flatMap conditionTokens
  | .orderByClause items => ⟨.orderWord, "ORDER BY"⟩ :: separated orderTokens items
  | .limitClause count offset offsetWord =>
    ⟨.limitWord, "LIMIT"⟩ :: limitTokens count offset offsetWord
  | .insertClause word table _ columns query =>
    ⟨.insertWord, upper word⟩ :: ⟨.identifier, table⟩ :: columnTokens columns ++ tokens query
  | .semicolon text => [⟨.semicolon, text⟩]
  | _ => []

def tokens : List Node → List Token
  | [] => []
  | node :: nodes => statementTokens node ++ tokens nodes

end

end Spelling

end SqlLayout
