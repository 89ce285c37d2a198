import SqlLayout.Proofs.Read.Joins
import SqlLayout.Read.Statement

/-!
# Reading statements back

The tokens of a regular tree are read as the tree in upper case, and all of them are taken.
-/

namespace SqlLayout.Read

open Text Token Spelling Regular

variable {nodes : List Node}

theorem opens_statementTokens {node : Node} (hnode : isStatement node = true ∨ endsText node = true)
    (rest : List Token) :
    ∃ token more, statementTokens node ++ rest = token :: more ∧ token.kind.startsClause = true := by
  cases node with
  | insertClause word table rows columns query => exact ⟨_, _, rfl, rfl⟩
  | selectClause word items => exact ⟨_, _, rfl, rfl⟩
  | fromClause word parts => exact ⟨_, _, rfl, rfl⟩
  | whereClause word conditions => exact ⟨_, _, rfl, rfl⟩
  | groupByClause items rollup => exact ⟨_, _, rfl, rfl⟩
  | havingClause word conditions => exact ⟨_, _, rfl, rfl⟩
  | orderByClause items => exact ⟨_, _, rfl, rfl⟩
  | limitClause count offset offsetWord => exact ⟨_, _, rfl, rfl⟩
  | semicolon text => exact ⟨_, _, rfl, rfl⟩
  | _ => simp [isStatement, endsText] at hnode

theorem opens_tokens (hnodes : areStatements nodes = true) :
    opens Kind.startsClause (tokens nodes) = true := by
  cases nodes with
  | nil => rfl
  | cons node nodes =>
    obtain ⟨token, more, htokens, htoken⟩ :=
      opens_statementTokens (areStatements_cons hnodes).1 (tokens nodes)
    rw [tokens, htokens]
    exact htoken

theorem tokens_ne_nil (hnodes : areStatements nodes = true) (hne : nodes ≠ []) : tokens nodes ≠ [] := by
  obtain ⟨node, rest, rfl⟩ := List.exists_cons_of_ne_nil hne
  obtain ⟨token, more, htokens, -⟩ := opens_statementTokens (areStatements_cons hnodes).1 (tokens rest)
  simp [tokens, htokens]

theorem readColumns_separated {columns : List Node} (rest : List Token)
    (hcolumns : columns.all isPlainTerm = true) :
    readColumns (separated plainTokens columns ++ closeParen :: rest) =
      .ok (Node.upperCasedEach columns, (separated plainTokens columns).length + 1) := by
  induction columns with
  | nil => rfl
  | cons column more ih =>
    simp only [List.all_cons, Bool.and_eq_true] at hcolumns
    obtain ⟨t, rfl, hplain⟩ := exists_of_isPlainTerm hcolumns.1
    have hmore := ih hcolumns.2
    simp only [separated, plainTokens, List.append_assoc, List.cons_append, List.nil_append,
      readColumns, value?_termToken hplain]
    cases more with
    | nil =>
      simp only [commaBefore, List.isEmpty_nil, if_true, List.nil_append, hmore]
      rfl
    | cons next more =>
      have hcomma : value? comma = none := rfl
      simp only [commaBefore, List.isEmpty_cons, Bool.false_eq_true, if_false, List.cons_append,
        List.nil_append, readColumns, hcomma, hmore]
      rfl

/-- The columns of an INSERT are read back, and then what it stores. -/
theorem readInsert_columns (statements : List Token → Statements) (word table : String)
    {columns : List Node} (hcolumns : columns.all isPlainTerm = true) {source : List Token}
    (hsource : opens Kind.startsClause source = true) (hne : source ≠ []) :
    readInsert statements
        (⟨.insertWord, word⟩ :: ⟨.identifier, table⟩ :: (columnTokens columns ++ source)) =
      (readSource statements word table (Node.upperCasedEach columns) source).map
        fun (node, taken) ↦ (node, (columnTokens columns).length + 2 + taken) := by
  cases columns with
  | nil =>
    obtain ⟨⟨kind, text⟩, more, rfl⟩ := List.exists_cons_of_ne_nil hne
    have hread : readInsert statements
        (⟨.insertWord, word⟩ :: ⟨.identifier, table⟩ :: ⟨kind, text⟩ :: more) = (do
          let (node, taken) ← readSource statements word table [] (⟨kind, text⟩ :: more)
          .ok (node, 2 + taken)) := by
      cases kind <;> first | rfl | cases hsource
    rw [columnTokens, List.isEmpty_nil, if_pos rfl, List.nil_append, hread, Node.upperCasedEach]
    cases readSource statements word table [] (⟨kind, text⟩ :: more) <;>
      simp [bind, Except.bind, Except.map]
  | cons column columns =>
    have hread := readColumns_separated source hcolumns
    simp only [columnTokens, List.isEmpty_cons, Bool.false_eq_true, if_false, List.cons_append,
      List.append_assoc, List.nil_append, readInsert, openParen, if_true, hread, bind,
      Except.bind, drop_length_succ]
    cases readSource statements word table (Node.upperCasedEach (column :: columns)) source with
    | error fault => rfl
    | ok found =>
      simp [Except.map]
      omega

theorem startsWith_select (h : startsWithSelect nodes = true) :
    ∃ word items rest, nodes = .selectClause word items :: rest := by
  unfold startsWithSelect at h
  split at h
  · exact ⟨_, _, _, rfl⟩
  · cases h

theorem readSource_of_not_select (statements : List Token → Statements) (word table : String)
    (columns : List Node) (hnodes : areStatements nodes = true) (hne : nodes ≠ [])
    (hselect : startsWithSelect nodes = false) :
    readSource statements word table columns (tokens nodes) =
      .ok (.insertClause word table none columns [], 0) := by
  obtain ⟨node, rest, rfl⟩ := List.exists_cons_of_ne_nil hne
  have hnode := (areStatements_cons hnodes).1
  cases node with
  | selectClause word items => simp [startsWithSelect] at hselect
  | insertClause word table rows columns query => rfl
  | fromClause word parts => rfl
  | whereClause word conditions => rfl
  | groupByClause items rollup => rfl
  | havingClause word conditions => rfl
  | orderByClause items => rfl
  | limitClause count offset offsetWord => rfl
  | semicolon text => rfl
  | _ => simp [isStatement, endsText] at hnode

/-- The query of an INSERT is read as statements, whose counts are added up. -/
theorem readSource_of_select (statements : List Token → Statements) (word table : String)
    (columns : List Node) (hselect : startsWithSelect nodes = true)
    (hfault : (statements (tokens nodes)).fault = none) :
    readSource statements word table columns (tokens nodes) =
      .ok (.insertClause word table none columns ((statements (tokens nodes)).read.map Prod.fst),
        totalCount (statements (tokens nodes)).read) := by
  obtain ⟨selectWord, items, rest, rfl⟩ := startsWith_select hselect
  simp only [tokens, statementTokens, List.cons_append] at hfault ⊢
  simp only [readSource, hfault]

theorem exists_readStatement_of_eq {node : Node} (statements : List Token → Statements)
    (h : readStatement statements (statementTokens node ++ tokens nodes) =
      .ok (node.upperCased, (statementTokens node).length)) :
    ∃ count, readStatement statements (statementTokens node ++ tokens nodes) =
        .ok (node.upperCased, count) ∧
      TakesAll nodes.isEmpty (statementTokens node) count :=
  ⟨_, h, takesAll_length _ _⟩

theorem readStatement_of_endsText {node : Node} (hnode : endsText node = true)
    (statements : List Token → Statements) :
    ∃ count, readStatement statements (statementTokens node ++ tokens []) =
        .ok (node.upperCased, count) ∧
      TakesAll true (statementTokens node) count := by
  rcases cases_of_endsText hnode with ⟨word, rfl⟩ | ⟨word, parts, rfl, -, hparts⟩ |
    ⟨word, rfl, hword⟩ | rfl | ⟨word, rfl, hword⟩ | rfl
  · exact exists_readStatement_of_eq statements rfl
  · exact readFrom_statementTokens word hparts rfl fun _ ↦ rfl
  · exact exists_readStatement_of_eq statements rfl
  · exact exists_readStatement_of_eq statements rfl
  · exact exists_readStatement_of_eq statements rfl
  · exact exists_readStatement_of_eq statements rfl

mutual

/-- A statement is read back, whatever it may stand in front of. -/
theorem readStatement_statementTokens {node : Node} {nodes : List Node} {bound : Nat}
    (hnode : isStatement node = true) (hprecede : mayPrecede node nodes = true)
    (hnodes : areStatements nodes = true)
    (hbound : (statementTokens node ++ tokens nodes).length ≤ bound + 1) :
    ∃ count, readStatement (readStatements bound) (statementTokens node ++ tokens nodes) =
        .ok (node.upperCased, count) ∧
      TakesAll nodes.isEmpty (statementTokens node) count := by
  have hrest := opens_tokens hnodes
  cases node with
  | selectClause word items =>
    exact exists_readStatement_of_eq _ (readSelect_statementTokens word hnode hrest)
  | fromClause word parts =>
    simp only [isStatement, Bool.and_eq_true] at hnode
    obtain ⟨count, hread, hcount⟩ : ∃ count,
        readFrom (statementTokens (.fromClause word parts) ++ tokens nodes) = .ok (_, count) ∧ _ :=
      readFrom_statementTokens word hnode.2 hrest fun hlast ↦ absurd hlast (by decide)
    exact exists_readStatement_of_eq _ (by rw [← hcount.2 rfl]; exact hread)
  | whereClause word conditions =>
    exact exists_readStatement_of_eq _ (readWhere_statementTokens _ hnode hrest)
  | groupByClause items rollup =>
    exact exists_readStatement_of_eq _ (readGroupBy_statementTokens hnode hrest)
  | havingClause word conditions =>
    exact exists_readStatement_of_eq _ (readHaving_statementTokens _ hnode hrest)
  | orderByClause items =>
    exact exists_readStatement_of_eq _ (readOrderBy_statementTokens hnode hrest)
  | limitClause count offset offsetWord =>
    exact exists_readStatement_of_eq _ (readLimit_statementTokens hnode hrest)
  | semicolon text =>
    have htext : text = ";" := by simpa [isStatement] using hnode
    rw [htext]
    exact exists_readStatement_of_eq _ rfl
  | insertClause word table rows columns query =>
    cases rows with
    | some rows => simp [isStatement] at hnode
    | none =>
      simp only [isStatement, Bool.and_eq_true] at hnode
      obtain ⟨⟨⟨-, hcolumns⟩, -⟩, hquery⟩ := hnode
      simp only [statementTokens, List.cons_append, List.append_assoc] at hbound ⊢
      cases query with
      | nil =>
        -- The next statement shows that the INSERT stores no query.
        simp only [mayPrecede, Bool.and_eq_true, Bool.not_eq_true', List.isEmpty_eq_false_iff]
          at hprecede
        have hread := readInsert_columns (readStatements bound) (upper word) table hcolumns
          hrest (tokens_ne_nil hnodes hprecede.1)
        rw [readSource_of_not_select _ _ _ _ hnodes hprecede.1 hprecede.2] at hread
        refine ⟨_, ?_, takesAll_length _ _⟩
        rw [readStatement]
        simp [tokens, hread, Except.map, Node.upperCased, Node.upperCasedEach]
      | cons first others =>
        -- The query takes all tokens that are left, so the INSERT is the last statement.
        simp only [mayPrecede, Bool.and_eq_true, List.isEmpty_iff] at hprecede
        obtain ⟨hselect, rfl⟩ := hprecede
        have hread := readInsert_columns (readStatements bound) (upper word) table hcolumns
          (opens_tokens hquery) (tokens_ne_nil hquery (List.cons_ne_nil first others))
        obtain ⟨hfault, hfound, hcount⟩ : (readStatements bound
            (tokens (first :: others))).fault = none ∧ _ :=
          readStatements_tokens hquery (by simp at hbound; omega)
        have hnil : tokens ([] : List Node) = [] := rfl
        rw [readSource_of_select _ _ _ _ hselect hfault, hfound] at hread
        refine ⟨_, by rw [readStatement, hnil, List.append_nil]; exact hread, ?_,
          fun hlast ↦ absurd hlast (by decide)⟩
        simp
        omega
  | _ => simp [isStatement] at hnode

/-- Statements are read back, and all their tokens are taken. -/
theorem readStatements_tokens {nodes : List Node} {bound : Nat}
    (hnodes : areStatements nodes = true) (hbound : (tokens nodes).length ≤ bound) :
    (readStatements bound (tokens nodes)).fault = none ∧
      (readStatements bound (tokens nodes)).read.map Prod.fst = Node.upperCasedEach nodes ∧
      (tokens nodes).length ≤ totalCount (readStatements bound (tokens nodes)).read := by
  cases nodes with
  | nil => cases bound <;> exact ⟨rfl, rfl, Nat.le_refl _⟩
  | cons node nodes =>
    obtain ⟨hnode, hrest⟩ := areStatements_cons hnodes
    obtain ⟨token, more, htokens, -⟩ := opens_statementTokens hnode (tokens nodes)
    have hpos : 0 < (statementTokens node).length := by
      obtain ⟨first, others, hfirst, -⟩ := opens_statementTokens hnode []
      rw [← List.append_nil (statementTokens node), hfirst]
      exact Nat.succ_pos _
    rw [tokens, List.length_append] at hbound
    obtain ⟨bound, rfl⟩ : ∃ n, bound = n + 1 := ⟨bound - 1, by omega⟩
    obtain ⟨count, hread, hcount⟩ : ∃ count,
        readStatement (readStatements bound) (statementTokens node ++ tokens nodes) =
          .ok (node.upperCased, count) ∧ TakesAll nodes.isEmpty (statementTokens node) count := by
      simp only [areStatements, Bool.or_eq_true, Bool.and_eq_true, List.isEmpty_iff] at hnodes
      rcases hnodes with ⟨⟨hnode, hprecede⟩, -⟩ | ⟨hlast, rfl⟩
      · exact readStatement_statementTokens hnode hprecede hrest (by simpa using hbound)
      · exact readStatement_of_endsText hlast _
    have hdrop : (token :: more).drop count = tokens nodes := by
      rw [← htokens]
      exact hcount.drop_eq fun hlast ↦ by rw [List.isEmpty_iff.mp hlast]; rfl
    obtain ⟨hfault, hothers, htotal⟩ : _ ∧ _ ∧
        _ ≤ totalCount (readStatements bound (tokens nodes)).read :=
      readStatements_tokens hrest (by omega)
    rw [htokens] at hread
    rw [tokens, htokens, readStatements, hread]
    simp only [hdrop]
    refine ⟨hfault, ?_, ?_⟩
    · simpa [Node.upperCasedEach] using hothers
    · rw [← htokens, List.length_append]
      exact Nat.add_le_add hcount.1 htotal

end

/-- The tokens of regular statements are read as the statements in upper case. -/
theorem parse_tokens (hnodes : areStatements nodes = true) :
    parse (tokens nodes) = .ok (Node.upperCasedEach nodes) := by
  obtain ⟨hfault, hread, -⟩ := readStatements_tokens hnodes (Nat.le_refl (tokens nodes).length)
  simp only [parse, statements, hfault, hread]

end SqlLayout.Read
