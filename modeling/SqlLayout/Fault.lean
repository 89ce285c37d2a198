import SqlLayout.Token

/-!
# Faults

Why a text could not be cut, read or laid out.  The invalid faults are the ones that are reported
as a defect of the SQL text; a file with such a text is left to the reader of the report.
-/

namespace SqlLayout

inductive Fault where
  /-- A quote is never closed; kept with all that follows it. -/
  | unclosedQuote (rest : String)
  /-- No statement starts here, or a statement cannot be laid out. -/
  | invalidStatement
  | invalidSelect
  | invalidCondition
  | invalidGroupBy
  | invalidCall
  | invalidOrderBy
  /-- A call is not opened, or its arguments are not closed. -/
  | unbalanced
  | invalidLimit (tokens : List Token)
  | invalidName (tokens : List Token)
  /-- The tokens end where one more is needed. -/
  | endOfTokens
  /-- A call has to start with the name of a function. -/
  | notACall
  /-- A value is needed, and a token of this kind stands there. -/
  | notAValue (kind : Kind)
  /-- Another token has to stand here. -/
  | misplacedToken
  /-- Quoted text stands where a name can have an alias. -/
  | quotedName
  /-- A parenthesis is closed between statements. -/
  | strayParenthesis
  /-- No layout is known for a statement of this type. -/
  | unsupported (typeName : String)
  /-- A node lacks a part that the layout needs. -/
  | missingPart
  /-- What a node has for its values is no list. -/
  | uncountable
  /-- The work on this input never ends. -/
  | endless
deriving DecidableEq, Repr

namespace Fault

def isInvalid : Fault → Bool
  | invalidStatement | invalidSelect | invalidCondition | invalidGroupBy | invalidCall
  | invalidOrderBy | unbalanced | invalidLimit _ | invalidName _ => true
  | _ => false

def message : Fault → String
  | unclosedQuote rest => rest
  | invalidLimit tokens | invalidName tokens => Token.displayAll tokens
  | notAValue kind => Text.quoted kind.name
  | unsupported typeName => typeName
  | _ => ""

end Fault

end SqlLayout
