/-!
# Replacing text

Every occurrence of one text by another, and line ends of all conventions by a single one.
-/

namespace SqlLayout.Text

/-- Replaces the occurrences of `old` from left to right; the first `skip` characters belong to an
occurrence that is already replaced. -/
def replaceFrom (old new : List Char) : (skip : Nat) → List Char → List Char
  | _, [] => []
  | skip + 1, _ :: rest => replaceFrom old new skip rest
  | 0, c :: rest =>
    if old.isPrefixOf (c :: rest) then new ++ replaceFrom old new (old.length - 1) rest
    else c :: replaceFrom old new 0 rest

/-- Replaces every occurrence of the nonempty text `old` by `new`. -/
def replaceAll (old new text : String) : String :=
  String.ofList (replaceFrom old.toList new.toList 0 text.toList)

def unifyLineEnds : List Char → List Char
  | [] => []
  | '\r' :: '\n' :: rest => '\n' :: unifyLineEnds rest
  | '\r' :: rest => '\n' :: unifyLineEnds rest
  | c :: rest => c :: unifyLineEnds rest

end SqlLayout.Text
