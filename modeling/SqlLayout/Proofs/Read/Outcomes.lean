import SqlLayout.Proofs.Read.Steps

/-!
# What a reader returns

The ways in which the readers of conditions, limits and INSERT statements come to a result, each with the
tokens that it was read from.
-/

namespace SqlLayout.Read

variable {statements : List Token → Statements} {tokens : List Token} {token : Token} {node : Node}
variable {bound count : Nat}

/-! ### Values in parentheses -/

theorem readOperand_eq_ok (h : readOperand token = .ok node) :
    node = part token ∧ (token.kind.isValue = true ∨ token.kind = .notWord) := by
  unfold readOperand at h
  rw [value?_eq] at h
  split at h
  · rename_i found hfound
    split at hfound
    · rename_i hkind
      cases h
      cases hfound
      exact ⟨rfl, .inl hkind⟩
    · cases hfound
  · split at h
    · rename_i hnot
      cases h
      obtain ⟨kind, text⟩ := token
      dsimp only at hnot
      subst hnot
      exact ⟨rfl, .inr rfl⟩
    · cases h

theorem value?_of_comma (h : token.kind = .comma) : value? token = none := by
  simp [value?, termKind?, h]

/-- The columns of an INSERT are the values in front of the parenthesis that closes. -/
theorem readColumns_cases {columns : List Node} (h : readColumns tokens = .ok (columns, count)) :
    ∃ inner closing more, tokens = inner ++ closing :: more ∧
      inner.all (fun token ↦ token.kind.isValue || token.kind = .comma) = true ∧
      closing.kind = .closeParen ∧ columns = inner.filterMap value? ∧ count = inner.length + 1 := by
  induction tokens generalizing columns count with
  | nil => cases h
  | cons token rest ih =>
    rw [readColumns] at h
    split at h
    · rename_i column hvalue
      obtain ⟨⟨others, taken⟩, hothers, hpair⟩ := bind_eq_ok.mp h
      cases hpair
      obtain ⟨inner, closing, more, rfl, hinner, hclosing, rfl, rfl⟩ := ih hothers
      exact ⟨token :: inner, closing, more, rfl, by simp [isValue_of_value? hvalue, hinner], hclosing,
        by simp [hvalue], rfl⟩
    · split at h
      · rename_i hclosing
        cases h
        exact ⟨[], token, rest, rfl, rfl, hclosing, rfl, rfl⟩
      · rename_i hcomma
        obtain ⟨⟨others, taken⟩, hothers, hpair⟩ := bind_eq_ok.mp h
        cases hpair
        obtain ⟨inner, closing, more, rfl, hinner, hclosing, rfl, rfl⟩ := ih hothers
        exact ⟨token :: inner, closing, more, rfl, by simp [hcomma, hinner], hclosing,
          by simp [value?_of_comma hcomma], rfl⟩
      · cases h

theorem readGroup_of_subselect {query : List Node}
    (h : readGroup statements bound (.subselect query) tokens = .ok (node, count)) :
    ∃ found, node = .subselect found := by
  induction bound generalizing tokens query node count with
  | zero => cases h
  | succ bound ih =>
    cases tokens with
    | nil => cases h
    | cons token rest =>
      unfold readGroup at h
      split at h
      · cases h
      · split at h
        · cases h
          exact ⟨query, rfl⟩
        · obtain ⟨⟨all, taken⟩, hall, hpair⟩ := bind_eq_ok.mp h
          cases hpair
          exact ih hall
        · dsimp only at h
          split at h
          · cases h
          · obtain ⟨⟨all, taken⟩, hall, hpair⟩ := bind_eq_ok.mp h
            cases hpair
            exact ih hall
        · cases h

/-- Behind the values and commas in a parenthesis stands the one that closes, or a query. -/
theorem readGroup_cases {items : List Node}
    (h : readGroup statements bound (.group items) tokens = .ok (node, count)) :
    (∃ inner closing more, tokens = inner ++ closing :: more ∧
        inner.all (fun token ↦ token.kind.isValue || token.kind = .comma) = true ∧
        closing.kind = .closeParen ∧ node = .group (items ++ inner.filterMap value?) ∧
        count = inner.length + 1) ∨
      ∃ inner query less taken, tokens = inner ++ query ∧ (statements query).fault = none ∧
        readGroup statements less (.subselect ((statements query).read.map Prod.fst))
          (query.drop (totalCount (statements query).read)) = .ok (node, taken) := by
  induction bound generalizing items tokens count with
  | zero => cases h
  | succ bound ih =>
    cases tokens with
    | nil => cases h
    | cons token rest =>
      rw [readGroup] at h
      split at h
      · rename_i item hvalue
        obtain ⟨⟨all, taken⟩, hall, hpair⟩ := bind_eq_ok.mp h
        cases hpair
        rcases ih hall with ⟨inner, closing, more, rfl, hinner, hclosing, rfl, rfl⟩ |
          ⟨inner, query, less, counted, rfl, hquery⟩
        · exact .inl ⟨token :: inner, closing, more, rfl, by simp [isValue_of_value? hvalue, hinner],
            hclosing, by simp [hvalue], rfl⟩
        · exact .inr ⟨token :: inner, query, less, counted, rfl, hquery⟩
      · split at h
        · rename_i hclosing
          cases h
          exact .inl ⟨[], token, rest, rfl, rfl, hclosing, by simp, rfl⟩
        · rename_i hcomma
          obtain ⟨⟨all, taken⟩, hall, hpair⟩ := bind_eq_ok.mp h
          cases hpair
          rcases ih hall with ⟨inner, closing, more, rfl, hinner, hclosing, rfl, rfl⟩ |
            ⟨inner, query, less, counted, rfl, hquery⟩
          · exact .inl ⟨token :: inner, closing, more, rfl, by simp [hcomma, hinner], hclosing,
              by simp [value?_of_comma hcomma], rfl⟩
          · exact .inr ⟨token :: inner, query, less, counted, rfl, hquery⟩
        · dsimp only at h
          split at h
          · cases h
          · rename_i hfault
            obtain ⟨⟨all, taken⟩, hall, hpair⟩ := bind_eq_ok.mp h
            cases hpair
            exact .inr ⟨[], token :: rest, bound, taken, rfl, hfault, hall⟩
        · cases h

/-! ### Conditions -/

theorem readMembership_eq_ok :
    readMembership statements tokens = .ok (node, count) ↔
      ∃ left op inner operand found taken, tokens = left :: op :: inner ∧ readOperand left = .ok operand ∧
        readGroup statements inner.length (.group []) (inner.drop 1) = .ok (found, taken) ∧
        node = .condition [operand, .operator op.text, found] ∧ count = taken + 3 := by
  constructor
  · intro h
    cases tokens with
    | nil => cases h
    | cons left rest =>
      obtain ⟨operand, hoperand, h⟩ := bind_eq_ok.mp h
      cases rest with
      | nil => cases h
      | cons op inner =>
        obtain ⟨⟨found, taken⟩, hgroup, hpair⟩ := bind_eq_ok.mp h
        cases hpair
        exact ⟨left, op, inner, operand, found, taken, rfl, hoperand, hgroup, rfl, rfl⟩
  · rintro ⟨left, op, inner, operand, found, taken, rfl, hoperand, hgroup, rfl, rfl⟩
    simp only [readMembership, hoperand, hgroup, bind, Except.bind]

theorem readNegatedCall_eq_ok {word : String} :
    readNegatedCall word tokens = .ok (node, count) ↔
      ∃ call op right more operand, readCall tokens = .ok (call, count) ∧
        tokens.drop count = op :: right :: more ∧ readOperand right = .ok operand ∧
        node = .condition [.not word, call, .operator op.text, operand] := by
  constructor
  · intro h
    obtain ⟨⟨call, taken⟩, hcall, h⟩ := bind_eq_ok.mp h
    dsimp only at h
    split at h
    · rename_i op right more hdrop
      obtain ⟨operand, hoperand, hpair⟩ := bind_eq_ok.mp h
      cases hpair
      exact ⟨call, op, right, more, operand, hcall, hdrop, hoperand, rfl⟩
    · cases h
  · rintro ⟨call, op, right, more, operand, hcall, hdrop, hoperand, rfl⟩
    simp only [readNegatedCall, hcall, hdrop, hoperand, bind, Except.bind]

/-- A condition is one on plain values if it can be, or else a negated call, or else a membership test. -/
theorem readCondition_cases {membership : Bool}
    (h : readCondition statements membership tokens = .ok (node, count)) :
    simpleCondition? tokens = some (node, count) ∨ simpleCondition? tokens = none ∧
      ((∃ word rest, tokens = ⟨.notWord, word⟩ :: rest ∧ negatesCall tokens = true ∧
          readNegatedCall word rest = .ok (node, count)) ∨
        negatesCall tokens = false ∧ membership = true ∧
          readMembership statements tokens = .ok (node, count)) := by
  rw [readCondition_eq] at h
  split at h
  · rename_i found hfound
    cases h
    exact .inl hfound
  · rename_i hsimple
    refine .inr ⟨hsimple, ?_⟩
    split at h
    · rename_i hnegates
      rcases tokens with _ | ⟨⟨kind, word⟩, rest⟩
      · cases hnegates
      · obtain rfl : kind = .notWord := by
          simp only [negatesCall, fits, Bool.and_eq_true, decide_eq_true_eq] at hnegates
          exact hnegates.1
        exact .inl ⟨word, rest, rfl, hnegates, h⟩
    · rename_i hnegates
      split at h
      · rename_i hmembership
        exact .inr ⟨by simpa using hnegates, hmembership, h⟩
      · cases h

/-- Linked conditions are a condition and, if a link follows it, the conditions behind the link. -/
theorem readLinked_cases {membership : Bool} {nodes : List Node} (hne : tokens ≠ [])
    (h : readLinked statements membership (bound + 1) tokens = .ok (nodes, count)) :
    ∃ condition taken, readCondition statements membership tokens = .ok (condition, taken) ∧
      ((∃ word more others counted, tokens.drop taken = ⟨.link, word⟩ :: more ∧
          readLinked statements membership bound more = .ok (others, counted) ∧
          nodes = condition :: .link word :: others ∧ count = taken + 1 + counted) ∨
        nodes = [condition] ∧ count = taken) := by
  cases tokens with
  | nil => exact absurd rfl hne
  | cons token rest =>
    obtain ⟨⟨condition, taken⟩, hcondition, h⟩ := bind_eq_ok.mp h
    refine ⟨condition, taken, hcondition, ?_⟩
    dsimp only at h
    split at h
    · rename_i word more hdrop
      obtain ⟨⟨others, counted⟩, hothers, hpair⟩ := bind_eq_ok.mp h
      cases hpair
      exact .inl ⟨word, more, others, counted, hdrop, hothers, rfl, rfl⟩
    · cases h
      exact .inr ⟨rfl, rfl⟩

/-! ### Limits and INSERT statements -/

theorem exists_of_readLimit (h : readLimit tokens = .ok (node, count)) :
    ∃ limit offset word, node = .limitClause limit offset word ∧ 0 < count := by
  have hplain : readPlainLimit tokens = .ok (node, count) →
      ∃ limit offset word, node = .limitClause limit offset word ∧ 0 < count := by
    intro h
    unfold readPlainLimit at h
    split at h
    · cases h
      exact ⟨_, _, _, rfl, by decide⟩
    · cases h
  unfold readLimit at h
  split at h
  · cases h
    exact ⟨_, _, _, rfl, by decide⟩
  · split at h
    · cases h
      exact ⟨_, _, _, rfl, by decide⟩
    · exact hplain h
  · exact hplain h

theorem readColumnList_cases {columns : List Node} (h : readColumnList tokens = .ok (columns, count)) :
    columns = [] ∧ count = 0 ∨ ∃ word inner taken, tokens = ⟨.openParen, word⟩ :: inner ∧
      readColumns inner = .ok (columns, taken) ∧ count = taken + 1 := by
  unfold readColumnList at h
  split at h
  · cases h
  · obtain ⟨⟨found, taken⟩, hfound, hpair⟩ := map_eq_ok.mp h
    cases hpair
    exact .inr ⟨_, _, taken, rfl, hfound, rfl⟩
  · cases h
    exact .inl ⟨rfl, rfl⟩

/-- An INSERT stores rows of values, the rows of a query or nothing. -/
theorem readSource_cases {word table : String} {columns : List Node}
    (h : readSource statements word table columns tokens = .ok (node, count)) :
    (∃ values paren rest rows taken, tokens = ⟨.valuesWord, values⟩ :: ⟨.openParen, paren⟩ :: rest ∧
        readRows rest.length [] rest = .ok (rows, taken) ∧
        node = .insertClause word table (some (values, rows)) columns [] ∧ count = taken + 2) ∨
      (∃ select rest, tokens = ⟨.selectWord, select⟩ :: rest ∧ (statements tokens).fault = none ∧
        node = .insertClause word table none columns ((statements tokens).read.map Prod.fst) ∧
        count = totalCount (statements tokens).read) ∨
      (∀ select rest, tokens ≠ ⟨.selectWord, select⟩ :: rest) ∧
        node = .insertClause word table none columns [] ∧ count = 0 := by
  unfold readSource at h
  split at h
  · cases h
  · obtain ⟨⟨rows, taken⟩, hrows, hpair⟩ := bind_eq_ok.mp h
    cases hpair
    exact .inl ⟨_, _, _, rows, taken, rfl, hrows, rfl, rfl⟩
  · dsimp only at h
    split at h
    · cases h
    · rename_i hfault
      cases h
      exact .inr (.inl ⟨_, _, rfl, hfault, rfl, rfl⟩)
  · rename_i hselect
    cases h
    refine .inr (.inr ⟨?_, rfl, rfl⟩)
    rintro select rest heq
    cases heq
    exact hselect _ rfl

theorem readInsert_eq_ok :
    readInsert statements tokens = .ok (node, count) ↔
      ∃ insert table rest columns taken counted, tokens = insert :: table :: rest ∧
        table.kind = .identifier ∧ readColumnList rest = .ok (columns, taken) ∧
        readSource statements insert.text table.text columns (rest.drop taken) = .ok (node, counted) ∧
        count = 2 + taken + counted := by
  constructor
  · intro h
    rcases tokens with _ | ⟨insert, _ | ⟨table, rest⟩⟩
    · cases h
    · cases h
    · rw [readInsert_eq] at h
      split at h
      · rename_i hkind
        obtain ⟨⟨columns, taken⟩, hcolumns, h⟩ := bind_eq_ok.mp h
        obtain ⟨⟨found, counted⟩, hsource, hpair⟩ := map_eq_ok.mp h
        cases hpair
        exact ⟨insert, table, rest, columns, taken, counted, rfl, hkind, hcolumns, hsource, rfl⟩
      · cases h
  · rintro ⟨insert, table, rest, columns, taken, counted, rfl, hkind, hcolumns, hsource, rfl⟩
    simp only [readInsert_eq, if_pos hkind, hcolumns, Except.bind, hsource, Except.map]

end SqlLayout.Read
