import SqlLayout.Proofs.Spelling

/-!
# Trees that can be read back

A tree is regular if the readers can tell its parts from the tokens it is written with: its nodes have
the shapes that clauses are read into, and every keyword is one.  It is readable if in addition its
words are the words of a text: each is one by itself, and no keyword phrase of several words begins in one
of them and ends in a later one.
-/

namespace SqlLayout

open Text Spelling

def Term.isPlain (t : Term) : Bool :=
  t.aliasName.isNone && t.asWord.isNone && t.sort.isNone

theorem Node.exists_of_isIdentifier {node : Node} (h : node.isIdentifier = true) :
    ∃ t : Term, node = .term t ∧ t.kind = .identifier := by
  cases node with
  | term t => exact ⟨t, rfl, of_decide_eq_true h⟩
  | _ => cases h

theorem Node.exists_of_isNumber {node : Node} (h : node.isNumber = true) :
    ∃ t : Term, node = .term t ∧ t.kind = .number := by
  cases node with
  | term t => exact ⟨t, rfl, of_decide_eq_true h⟩
  | _ => cases h

namespace Regular

variable {node : Node}

def isAlias (asWord aliasName : Option String) : Bool :=
  asWord.all (upper · = "AS") && aliasName.all fun name ↦ (Token.ofValue name).kind.isValue

def isNamed (t : Term) : Bool :=
  t.kind ≠ .str && t.sort.isNone && isAlias t.asWord t.aliasName

mutual

/-- Whether a node is a plain value or a call.  The alias of a call is written with its AS or not at
all. -/
def isArg : Node → Bool
  | .term t => t.isPlain
  | .call _ args asWord aliasName =>
    areArgs args && asWord.isSome = aliasName.isSome && isAlias asWord aliasName
  | _ => false

def areArgs : List Node → Bool
  | [] => true
  | arg :: rest => isArg arg && areArgs rest

end

def isValueText (text : String) : Bool :=
  (Token.ofValue text).kind.isValue

def isBranch : Node → Bool
  | .whenThen whenWord tested thenWord result =>
    upper whenWord = "WHEN" && isValueText tested && upper thenWord = "THEN" && isValueText result
  | .otherwise elseWord result => upper elseWord = "ELSE" && isValueText result
  | _ => false

def isItem : Node → Bool
  | .term t => isNamed t
  | .call name args asWord aliasName => isArg (.call name args asWord aliasName)
  | .caseOf _ branches => branches.all isBranch
  | _ => false

def isPlainTerm : Node → Bool
  | .term t => t.isPlain
  | _ => false

def isPlainName : Node → Bool
  | .term t => t.kind = .identifier && t.isPlain
  | _ => false

def isPlainNumber : Node → Bool
  | .term t => t.kind = .number && t.isPlain
  | _ => false

def isPlainColumn : Node → Bool
  | .term t => t.kind ≠ .str && t.isPlain
  | _ => false

def isCall : Node → Bool
  | .call name args asWord aliasName => isArg (.call name args asWord aliasName)
  | _ => false

/-- Whether the parts of an ON are conditions and links.  Between two links at most one condition of
each form is read: two names, a name and a call, and a call and a name, in this order.  The forms up
to `stage` are past.  Two calls are compared where the text ends (`last`): a token behind them would be
lost. -/
def areJoinParts (last : Bool) : (stage : Nat) → List Node → Bool
  | _, [] => true
  | _, .link word :: rest => upper word = "AND" && areJoinParts last 0 rest
  | stage, .condition [left, .operator op, right] :: rest =>
    upper op ≠ "IN" &&
      if isPlainName left && isPlainName right then stage = 0 && areJoinParts last 1 rest
      else if isPlainName left && isCall right then stage ≤ 1 && areJoinParts last 2 rest
      else if isCall left && isPlainName right then stage ≤ 2 && areJoinParts last 3 rest
      else last && rest.isEmpty && stage ≤ 2 && isCall left && isCall right
  | _, _ => false

/-- Whether the parts of a FROM clause are tables, joins with their table, and conditions at the end
that the table of a join is followed by.  Where a table follows that of a join, only an alias keeps
it from being read as one. -/
def areFromParts (last : Bool) : List Node → Bool
  | [] => true
  | [.join _, .term t, .onClause word parts] =>
    isNamed t && upper word = "ON" && areJoinParts last 0 parts
  | .join _ :: .term t :: rest =>
    isNamed t && (!startsWithTerm rest || t.aliasName.isSome) && areFromParts last rest
  | .term t :: rest => t.kind = .identifier && isNamed t && areFromParts last rest
  | _ => false

def areLinked (isCondition : Node → Bool) : List Node → Bool
  | [condition] => isCondition condition
  | condition :: .link _ :: rest => isCondition condition && areLinked isCondition rest
  | _ => false

/-- Whether a node is a condition of a WHERE clause; `membership` tells whether it may be a membership
test. -/
def isCondition (membership : Bool) : Node → Bool
  | .condition [.term left, .operator op, .term right] =>
    upper op ≠ "IN" && left.isPlain && right.isPlain
  | .condition [.not word, .term left, .operator op, .term right] =>
    upper word = "NOT" && upper op ≠ "IN" && left.isPlain && right.isPlain
  | .condition [.term left, .between word, .term low, .link link, .term high] =>
    upper word = "BETWEEN" && upper link = "AND" && left.isPlain && low.isPlain && high.isPlain
  | .condition [.term left, .is word, .null null] =>
    upper word = "IS" && upper null = "NULL" && left.isPlain
  | .condition [.term left, .is word, .not no, .null null] =>
    upper word = "IS" && upper no = "NOT" && upper null = "NULL" && left.isPlain
  | .condition [.term left, .operator op, .group items] =>
    membership && upper op = "IN" && left.isPlain && !items.isEmpty && items.all isPlainTerm
  | _ => false

def opensMembership : List Node → Bool
  | .condition [.term left, .operator _, .group _] :: _ => left.kind ≠ .str
  | _ => false

def isHavingCondition : Node → Bool
  | .condition [left, .operator op, right] =>
    upper op ≠ "IN" && isPlainName left && isPlainNumber right
  | _ => false

def isOrderItem : Node → Bool
  | .term t =>
    t.kind ≠ .str && t.aliasName.isNone && t.asWord.isNone &&
      t.sort.all fun word ↦ upper word = "ASC" || upper word = "DESC"
  | _ => false

def startsWithSelect : List Node → Bool
  | .selectClause .. :: _ => true
  | _ => false

/-- Whether a statement may stand in front of others.  A query of an INSERT takes all that follows, and
an INSERT without one needs another statement behind it. -/
def mayPrecede : Node → List Node → Bool
  | .insertClause _ _ _ _ [], rest => !rest.isEmpty && !startsWithSelect rest
  | .insertClause _ _ _ _ query, rest => startsWithSelect query && rest.isEmpty
  | _, _ => true

/-- Whether a statement is read back at the end of a text: a clause with nothing behind its keyword, or
a FROM clause, which may end with a comparison of two calls. -/
def endsText : Node → Bool
  | .selectClause _ [] | .groupByClause [] none | .orderByClause [] => true
  | .fromClause word parts => upper word = "FROM" && areFromParts true parts
  | .whereClause word [] => upper word = "WHERE"
  | .havingClause word [] => upper word = "HAVING"
  | _ => false

mutual

def isStatement : Node → Bool
  | .selectClause _ items => !items.isEmpty && items.all isItem
  | .fromClause word parts => upper word = "FROM" && areFromParts false parts
  | .whereClause word conditions =>
    upper word = "WHERE" && areLinked (isCondition (opensMembership conditions)) conditions
  | .groupByClause items rollup =>
    !items.isEmpty && items.all isPlainColumn && rollup.all (upper · = "WITH ROLLUP")
  | .havingClause word conditions =>
    upper word = "HAVING" && areLinked isHavingCondition conditions
  | .orderByClause items => !items.isEmpty && items.all isOrderItem
  | .limitClause count offset offsetWord =>
    isPlainNumber (.term count) && (offset.all fun t ↦ isPlainNumber (.term t)) &&
      offsetWord.all (upper · = "OFFSET") && (offsetWord.isNone || offset.isSome)
  | .insertClause word table none columns query =>
    upper word = "INSERT INTO" && columns.all isPlainTerm &&
      (columns.isEmpty || Token.isTableName table) && areStatements query
  | .semicolon text => text = ";"
  | _ => false

def areStatements : List Node → Bool
  | [] => true
  | node :: rest =>
    isStatement node && mayPrecede node rest && areStatements rest || endsText node && rest.isEmpty

end

def startsWithSemicolon : List Node → Bool
  | .semicolon _ :: _ => true
  | _ => false

/-! ### What the shapes are -/

theorem areStatements_cons {rest : List Node} (h : areStatements (node :: rest) = true) :
    (isStatement node = true ∨ endsText node = true) ∧ areStatements rest = true := by
  simp only [areStatements, Bool.or_eq_true, Bool.and_eq_true, List.isEmpty_iff] at h
  rcases h with h | ⟨hnode, rfl⟩
  · exact ⟨.inl h.1.1, h.2⟩
  · exact ⟨.inr hnode, rfl⟩

theorem cases_of_endsText (h : endsText node = true) :
    (∃ word, node = .selectClause word []) ∨
      (∃ word parts, node = .fromClause word parts ∧ upper word = "FROM" ∧ areFromParts true parts = true) ∨
      (∃ word, node = .whereClause word [] ∧ upper word = "WHERE") ∨ node = .groupByClause [] none ∨
      (∃ word, node = .havingClause word [] ∧ upper word = "HAVING") ∨ node = .orderByClause [] := by
  unfold endsText at h
  split at h
  · exact .inl ⟨_, rfl⟩
  · exact .inr (.inr (.inr (.inl rfl)))
  · exact .inr (.inr (.inr (.inr (.inr rfl))))
  · simp only [Bool.and_eq_true, decide_eq_true_eq] at h
    exact .inr (.inl ⟨_, _, rfl, h⟩)
  · exact .inr (.inr (.inl ⟨_, rfl, of_decide_eq_true h⟩))
  · exact .inr (.inr (.inr (.inr (.inl ⟨_, rfl, of_decide_eq_true h⟩))))
  · cases h

theorem exists_of_isPlainName (h : isPlainName node = true) :
    ∃ t, node = .term t ∧ t.kind = .identifier ∧ t.isPlain = true := by
  cases node with
  | term t =>
    simp only [isPlainName, Bool.and_eq_true, decide_eq_true_eq] at h
    exact ⟨t, rfl, h⟩
  | _ => cases h

theorem exists_of_isPlainNumber (h : isPlainNumber node = true) :
    ∃ t, node = .term t ∧ t.kind = .number ∧ t.isPlain = true := by
  cases node with
  | term t =>
    simp only [isPlainNumber, Bool.and_eq_true, decide_eq_true_eq] at h
    exact ⟨t, rfl, h⟩
  | _ => cases h

theorem exists_of_isPlainTerm (h : isPlainTerm node = true) : ∃ t, node = .term t ∧ t.isPlain = true := by
  cases node with
  | term t => exact ⟨t, rfl, h⟩
  | _ => cases h

theorem exists_of_isPlainColumn (h : isPlainColumn node = true) :
    ∃ t, node = .term t ∧ t.kind ≠ .str ∧ t.isPlain = true := by
  cases node with
  | term t =>
    simp only [isPlainColumn, Bool.and_eq_true, decide_eq_true_eq] at h
    exact ⟨t, rfl, h⟩
  | _ => cases h

theorem exists_of_isCall (h : isCall node = true) :
    ∃ name args asWord aliasName, node = .call name args asWord aliasName ∧
      isArg (.call name args asWord aliasName) = true := by
  cases node with
  | call name args asWord aliasName => exact ⟨name, args, asWord, aliasName, rfl, h⟩
  | _ => cases h

theorem exists_of_isOrderItem (h : isOrderItem node = true) :
    ∃ t, node = .term t ∧ t.kind ≠ .str ∧ t.aliasName = none ∧ t.asWord = none ∧
      ∀ word ∈ t.sort, upper word = "ASC" ∨ upper word = "DESC" := by
  cases node with
  | term t =>
    simp only [isOrderItem, Bool.and_eq_true, decide_eq_true_eq, Option.isNone_iff_eq_none] at h
    refine ⟨t, rfl, h.1.1.1, h.1.1.2, h.1.2, ?_⟩
    intro word hword
    simpa [Option.mem_def.mp hword] using h.2
  | _ => cases h

theorem exists_of_isHavingCondition (h : isHavingCondition node = true) :
    ∃ left op right, node = .condition [.term left, .operator op, .term right] ∧
      upper op ≠ "IN" ∧ left.kind = .identifier ∧ left.isPlain = true ∧ right.kind = .number ∧
      right.isPlain = true := by
  unfold isHavingCondition at h
  split at h
  · simp only [Bool.and_eq_true, decide_eq_true_eq] at h
    obtain ⟨left, rfl, hleft, hleft'⟩ := exists_of_isPlainName h.1.2
    obtain ⟨right, rfl, hright, hright'⟩ := exists_of_isPlainNumber h.2
    exact ⟨left, _, right, rfl, h.1.1, hleft, hleft', hright, hright'⟩
  · cases h

inductive FromParts (last : Bool) : List Node → Prop
  | nil : FromParts last []
  | on {join word : String} {t : Term} {parts : List Node} :
      isNamed t = true → upper word = "ON" → areJoinParts last 0 parts = true →
      FromParts last [.join join, .term t, .onClause word parts]
  | join {word : String} {t : Term} {rest : List Node} :
      isNamed t = true → (t.aliasName = none → startsWithTerm rest = false) → FromParts last rest →
      FromParts last (.join word :: .term t :: rest)
  | table {t : Term} {rest : List Node} :
      t.kind = .identifier → isNamed t = true → FromParts last rest → FromParts last (.term t :: rest)

theorem fromParts_of_areFromParts {last : Bool} {parts : List Node}
    (h : areFromParts last parts = true) : FromParts last parts := by
  fun_induction areFromParts last parts with
  | case1 => exact .nil
  | case2 join t word parts =>
    simp only [Bool.and_eq_true, decide_eq_true_eq] at h
    exact .on h.1.1 h.1.2 h.2
  | case3 join t rest hrest ih =>
    simp only [Bool.and_eq_true, Bool.or_eq_true, Bool.not_eq_true'] at h
    exact .join h.1.1 (fun hnone ↦ h.1.2.resolve_right (by simp [hnone])) (ih h.2)
  | case4 t rest ih =>
    simp only [Bool.and_eq_true, decide_eq_true_eq] at h
    exact .table h.1.1 h.1.2 (ih h.2)
  | case5 => cases h

/-- The forms of the comparisons after an ON.  Each is read up to some stage and leaves the stage
behind it. -/
inductive Comparison : (stage next : Nat) → (left right : Node) → Prop
  | names {left right : Node} :
      isPlainName left = true → isPlainName right = true → Comparison 0 1 left right
  | callOnRight {stage : Nat} {left right : Node} :
      stage ≤ 1 → isPlainName left = true → isCall right = true → Comparison stage 2 left right
  | callOnLeft {stage : Nat} {left right : Node} :
      stage ≤ 2 → isCall left = true → isPlainName right = true → Comparison stage 3 left right

/-- Parts of an ON are links and comparisons, and two calls may be compared at the end. -/
theorem areJoinParts_cons {last : Bool} {stage : Nat} {part : Node} {rest : List Node}
    (h : areJoinParts last stage (part :: rest) = true) :
    (∃ word, part = .link word ∧ upper word = "AND" ∧ areJoinParts last 0 rest = true) ∨
      (∃ left op right next, part = .condition [left, .operator op, right] ∧ upper op ≠ "IN" ∧
        Comparison stage next left right ∧ areJoinParts last next rest = true) ∨
      ∃ left op right, part = .condition [left, .operator op, right] ∧ upper op ≠ "IN" ∧
        isCall left = true ∧ isCall right = true ∧ stage ≤ 2 ∧ last = true ∧ rest = [] := by
  unfold areJoinParts at h
  split at h
  · rename_i heq
    simp at heq
  · rename_i word rest heq
    obtain ⟨rfl, rfl⟩ := List.cons.inj heq
    simp only [Bool.and_eq_true, decide_eq_true_eq] at h
    exact .inl ⟨word, rfl, h.1, h.2⟩
  · rename_i left op right rest heq
    obtain ⟨rfl, rfl⟩ := List.cons.inj heq
    simp only [Bool.and_eq_true, decide_eq_true_eq] at h
    obtain ⟨hop, h⟩ := h
    right
    split at h
    · rename_i hnames
      simp only [Bool.and_eq_true, decide_eq_true_eq] at h
      obtain ⟨rfl, hrest⟩ := h
      exact .inl ⟨left, op, right, 1, rfl, hop, .names hnames.1 hnames.2, hrest⟩
    · split at h
      · rename_i hcall
        simp only [Bool.and_eq_true, decide_eq_true_eq] at h
        exact .inl ⟨left, op, right, 2, rfl, hop, .callOnRight h.1 hcall.1 hcall.2, h.2⟩
      · split at h
        · rename_i hcall
          simp only [Bool.and_eq_true, decide_eq_true_eq] at h
          exact .inl ⟨left, op, right, 3, rfl, hop, .callOnLeft h.1 hcall.1 hcall.2, h.2⟩
        · simp only [Bool.and_eq_true, decide_eq_true_eq, List.isEmpty_iff] at h
          obtain ⟨⟨⟨⟨hlast, hrest⟩, hstage⟩, hleft⟩, hright⟩ := h
          exact .inr ⟨left, op, right, rfl, hop, hleft, hright, hstage, hlast, hrest⟩
  · simp at h

inductive Condition (membership : Bool) : Node → Prop
  | comparison {left right : Term} {op : String} :
      upper op ≠ "IN" → left.isPlain = true → right.isPlain = true →
      Condition membership (.condition [.term left, .operator op, .term right])
  | negated {left right : Term} {word op : String} :
      upper word = "NOT" → upper op ≠ "IN" → left.isPlain = true → right.isPlain = true →
      Condition membership (.condition [.not word, .term left, .operator op, .term right])
  | between {left low high : Term} {word link : String} :
      upper word = "BETWEEN" → upper link = "AND" → left.isPlain = true → low.isPlain = true →
      high.isPlain = true →
      Condition membership
        (.condition [.term left, .between word, .term low, .link link, .term high])
  | isNull {left : Term} {word null : String} :
      upper word = "IS" → upper null = "NULL" → left.isPlain = true →
      Condition membership (.condition [.term left, .is word, .null null])
  | isNotNull {left : Term} {word no null : String} :
      upper word = "IS" → upper no = "NOT" → upper null = "NULL" → left.isPlain = true →
      Condition membership (.condition [.term left, .is word, .not no, .null null])
  | member {left : Term} {op : String} {items : List Node} :
      membership = true → upper op = "IN" → left.isPlain = true → items ≠ [] →
      items.all isPlainTerm = true →
      Condition membership (.condition [.term left, .operator op, .group items])

theorem condition_of_isCondition {membership : Bool} (h : isCondition membership node = true) :
    Condition membership node := by
  unfold isCondition at h
  split at h <;> simp only [Bool.and_eq_true, decide_eq_true_eq, Bool.not_eq_true',
    List.isEmpty_eq_false_iff, Bool.false_eq_true] at h
  · exact .comparison h.1.1 h.1.2 h.2
  · exact .negated h.1.1.1 h.1.1.2 h.1.2 h.2
  · exact .between h.1.1.1.1 h.1.1.1.2 h.1.1.2 h.1.2 h.2
  · exact .isNull h.1.1 h.1.2 h.2
  · exact .isNotNull h.1.1.1 h.1.1.2 h.1.2 h.2
  · exact .member h.1.1.1.1 h.1.1.1.2 h.1.1.2 h.1.2 h.2

/-- A list of linked conditions is one condition, or a condition, a link and such a list. -/
theorem areLinked_cases {isCondition : Node → Bool} {nodes : List Node}
    (h : areLinked isCondition nodes = true) :
    ∃ node rest, nodes = node :: rest ∧ isCondition node = true ∧
      (rest = [] ∨ ∃ word next more, rest = .link word :: next :: more ∧
        areLinked isCondition (next :: more) = true) := by
  unfold areLinked at h
  split at h
  · rename_i node
    exact ⟨node, [], rfl, h, .inl rfl⟩
  · rename_i node word rest
    simp only [Bool.and_eq_true] at h
    cases rest with
    | nil => simp [areLinked] at h
    | cons next more => exact ⟨node, _, rfl, h.1, .inr ⟨word, next, more, rfl, h.2⟩⟩
  · simp at h

theorem head_of_areLinked {isCondition : Node → Bool} {rest : List Node}
    (h : areLinked isCondition (node :: rest) = true) : isCondition node = true := by
  obtain ⟨first, others, heq, hfirst, -⟩ := areLinked_cases h
  rw [(List.cons.inj heq).1]
  exact hfirst

end Regular

open Regular

def isReadable (nodes : List Node) : Bool :=
  areStatements nodes && !startsWithSemicolon nodes && (tokens nodes).all Token.isSound &&
    Token.unglued (tokens nodes)

end SqlLayout
