import SqlLayout.Proofs.Read.Trees

/-!
# What a completed reading holds

Three sorts of nodes are built, or could be, and yet no text that is read to its end has one: a query in
a parenthesis, rows of values, and a negated call.  The first takes the tokens up to the end and leaves
none to close the parenthesis.  The other two leave their last token standing, a parenthesis or a
part of an alias, and no statement starts with that.
-/

namespace SqlLayout

/-- The kinds that the last token of a call or of a row of values has.  No statement starts with one. -/
def Kind.endsCall : Kind → Bool
  | .closeParen | .asWord => true
  | kind => kind.isValue

namespace Node

/-- The nodes that no completed reading holds. -/
def isAbandoned : Node → Bool
  | subselect _ => true
  | insertClause _ _ (some _) _ _ => true
  | condition [.not _, .call .., .operator _, _] => true
  | _ => false

def isConditionPart : Node → Bool
  | term _ | call .. | operator _ | not _ | between _ | link _ | is _ | null _ | group _ => true
  | _ => false

/-- The nodes that are read to their last token, and below which all are. -/
def isWhole : Node → Bool
  | subselect _ | valuesClause .. | insertClause .. | whereClause .. | havingClause .. => false
  | condition [.not _, .call .., .operator _, _] => false
  | condition parts => parts.all isConditionPart
  | _ => true

end Node

namespace Read

open Node

variable {tokens : List Token} {node : Node} {nodes : List Node} {count bound : Nat}

/-! ### Nodes that are read to their last token -/

theorem isWhole_of_isTerm (h : node.isTerm = true) : node.isWhole = true := by
  cases node <;> first | rfl | cases h

theorem isWhole_of_isOperand (h : node.isOperand = true) : node.isWhole = true := by
  cases node <;> first | rfl | cases h

theorem isWhole_of_isConditionPart (h : node.isConditionPart = true) : node.isWhole = true := by
  cases node <;> first | rfl | cases h

theorem isConditionPart_of_isOperand (h : node.isOperand = true) : node.isConditionPart = true := by
  cases node <;> first | rfl | cases h

theorem isWhole_of_isJoinPart (h : IsJoinPart node) : node.isWhole = true := by
  cases h with
  | link word => rfl
  | comparison op hleft hright =>
    simp only [isWhole, List.all_cons, List.all_nil, Bool.and_true, Bool.and_eq_true]
    exact ⟨isConditionPart_of_isOperand hleft, rfl, isConditionPart_of_isOperand hright⟩

theorem isConditionPart_of_isWhole {parts : List Node}
    (h : (Node.condition parts).isWhole = true) : ∀ part ∈ parts, part.isConditionPart = true := by
  unfold isWhole at h
  split at h <;> simp_all

theorem isAbandoned_eq_false_of_isWhole (h : node.isWhole = true) : node.isAbandoned = false := by
  unfold isAbandoned
  split
  · cases h
  · cases h
  · cases h
  · rfl

theorem isWhole_of_mem_children (hfits : Fits node) (h : node.isWhole = true) :
    ∀ child ∈ node.children, child.isWhole = true := by
  intro child hchild
  cases node with
  | call name args asWord aliasName => exact isWhole_of_isOperand (hfits child hchild)
  | caseOf word branches =>
    have hbranch := hfits child hchild
    cases child <;> first | rfl | cases hbranch
  | condition parts =>
    exact isWhole_of_isConditionPart (isConditionPart_of_isWhole h child hchild)
  | group items => exact isWhole_of_isTerm (hfits child hchild)
  | onClause word parts => exact isWhole_of_isJoinPart (hfits child hchild)
  | selectClause word items =>
    have hitem := hfits child hchild
    cases child <;> first | rfl | cases hitem
  | fromClause word parts =>
    have hpart := hfits child hchild
    cases child <;> first | rfl | cases hpart
  | groupByClause items rollup => exact isWhole_of_isTerm (hfits child hchild)
  | orderByClause items => exact isWhole_of_isTerm (hfits child hchild)
  | limitClause number offset offsetWord =>
    rcases List.mem_cons.mp hchild with rfl | hchild
    · rfl
    · obtain ⟨t, -, rfl⟩ := Option.map_eq_some_iff.mp (Option.mem_toList.mp hchild)
      rfl
  | subselect statements => cases h
  | valuesClause word rows => cases h
  | whereClause word conditions => cases h
  | havingClause word conditions => cases h
  | insertClause word table rows columns query => cases h
  | _ => cases hchild

def IsKept (node : Node) : Prop :=
  node.Everywhere fun part ↦ part.isAbandoned = false

theorem isKept_of_isWhole (hbuilt : WellBuilt node) (h : node.isWhole = true) : IsKept node := by
  have hwhole : node.Everywhere fun part ↦ part.isWhole = true :=
    hbuilt.induction h fun _ ↦ isWhole_of_mem_children
  exact fun part hpart ↦ isAbandoned_eq_false_of_isWhole (hwhole part hpart)

theorem isKept_of_children (h : node.isAbandoned = false)
    (hchildren : ∀ child ∈ node.children, IsKept child) : IsKept node :=
  everywhere_iff.mpr ⟨h, hchildren⟩

/-! ### Tokens that are left standing -/

/-- The tokens start with one that no statement starts with. -/
def Stuck (tokens : List Token) : Prop :=
  ∃ token more, tokens = token :: more ∧ token.kind.endsCall = true

theorem readStatement_of_stuck {statements : List Token → Statements} (h : Stuck tokens) :
    ∃ fault, readStatement statements tokens = .error fault := by
  obtain ⟨⟨kind, text⟩, more, rfl, hends⟩ := h
  cases kind with
  | closeParen | asWord | number | str | identifier => exact ⟨_, rfl⟩
  | _ => cases hends

theorem stuck_of_aliasName? {name : String} (h : aliasName? tokens = some name) : Stuck tokens := by
  unfold aliasName? at h
  split at h
  · rename_i token more
    split at h
    · rename_i hkind
      refine ⟨token, more, rfl, ?_⟩
      unfold Kind.endsCall
      split <;> first | rfl | exact hkind
    · cases h
  · cases h

/-- An alias ends with its name, or with the word in front of a name that is missing. -/
theorem readAlias_last (tokens : List Token) :
    (readAlias tokens).2 = 0 ∨ ∃ n, (readAlias tokens).2 = n + 1 ∧ Stuck (tokens.drop n) := by
  unfold readAlias
  split
  · rename_i word rest
    split
    · rename_i name hname
      exact .inr ⟨1, rfl, stuck_of_aliasName? hname⟩
    · exact .inr ⟨0, rfl, ⟨.asWord, word⟩, rest, rfl, rfl⟩
  · split
    · rename_i name hname
      exact .inr ⟨0, rfl, stuck_of_aliasName? hname⟩
    · exact .inl rfl

theorem readCall_last (h : readCall tokens = .ok (node, count)) :
    ∃ n, count = n + 1 ∧ Stuck (tokens.drop n) := by
  obtain ⟨name, paren, inner, args, taken, rfl, -, hargs, -, rfl⟩ := readCall_eq_ok.mp h
  obtain ⟨front, word, more, rfl, rfl⟩ := readArgs_last hargs
  have hmore : (front ++ ⟨.closeParen, word⟩ :: more).drop (front.length + 1) = more := by simp
  rw [hmore]
  rcases readAlias_last more with hnone | ⟨n, hcount, hstuck⟩
  · refine ⟨front.length + 2, by omega, ⟨.closeParen, word⟩, more, ?_, rfl⟩
    simp
  · refine ⟨front.length + 1 + n + 2, by omega, ?_⟩
    rw [List.drop_succ_cons, List.drop_succ_cons, ← List.drop_drop, hmore]
    exact hstuck

theorem readRows_last {row : List Node} {rows : List (List Node)}
    (h : readRows bound row tokens = .ok (rows, count)) : Stuck (tokens.drop count) := by
  induction bound generalizing row tokens rows count with
  | zero => cases h
  | succ bound ih =>
    cases tokens with
    | nil => cases h
    | cons token rest =>
      rw [readRows_succ] at h
      rcases readAfterValue_cases h with ⟨word, more, others, counted, hdrop, hothers, -, rfl⟩ |
        ⟨close, comma, opened, more, others, counted, hdrop, hothers, -, rfl⟩ |
        ⟨word, more, hdrop, -, rfl⟩
      · rw [Nat.add_assoc, ← List.drop_drop, hdrop, Nat.add_comm, List.drop_succ_cons]
        exact ih hothers
      · rw [Nat.add_assoc, ← List.drop_drop, hdrop, Nat.add_comm, List.drop_succ_cons,
          List.drop_succ_cons, List.drop_succ_cons]
        exact ih hothers
      · exact ⟨⟨.closeParen, word⟩, more, hdrop, rfl⟩

/-! ### Statements -/

theorem IsPlainCondition.isWhole (h : IsPlainCondition node) : node.isWhole = true := by
  cases h <;> rfl

section Statements

variable {statements : List Token → Statements} {limit : Nat}

theorem readCondition_isWhole_or_stuck (hstatements : Exhausts statements limit)
    (hlimit : tokens.length ≤ limit) {membership : Bool}
    (h : readCondition statements membership tokens = .ok (node, count)) :
    node.isWhole = true ∨ Stuck (tokens.drop count) := by
  rcases readCondition_cases h with hsimple | ⟨-, ⟨word, rest, rfl, -, hnegated⟩ | ⟨-, -, hmember⟩⟩
  · exact .inl (isPlainCondition_of_simpleCondition? hsimple).isWhole
  · -- The count of a negated call covers the NOT in place of the call's last token.
    obtain ⟨call, -, -, -, -, hcall, -⟩ := readNegatedCall_eq_ok.mp hnegated
    obtain ⟨n, rfl, hstuck⟩ := readCall_last hcall
    exact .inr hstuck
  · left
    have hcondition := (readMembership_wellBuilt hstatements hlimit hmember).1
    obtain ⟨left, op, inner, operand, found, taken, rfl, -, -, rfl, -⟩ := readMembership_eq_ok.mp hmember
    cases hcondition with
    | plain hplain => exact hplain.isWhole
    | membership op items hleft => cases hleft <;> rfl

/-- The first of linked conditions is whole, or the reading stops behind it. -/
theorem readLinked_isWhole_or_stuck (hstatements : Exhausts statements limit)
    (hlimit : tokens.length ≤ limit) (hne : tokens ≠ []) {membership : Bool}
    (h : readLinked statements membership (bound + 1) tokens = .ok (nodes, count)) :
    (∃ condition taken, readCondition statements membership tokens = .ok (condition, taken) ∧
        condition.isWhole = true ∧
        ((∃ word more others counted, tokens.drop taken = ⟨.link, word⟩ :: more ∧
            readLinked statements membership bound more = .ok (others, counted) ∧
            nodes = condition :: .link word :: others ∧ count = taken + 1 + counted) ∨
          nodes = [condition] ∧ count = taken)) ∨
      Stuck (tokens.drop count) := by
  obtain ⟨condition, taken, hcondition, hmore⟩ := readLinked_cases hne h
  rcases readCondition_isWhole_or_stuck hstatements hlimit hcondition with hwhole | hstuck
  · exact .inl ⟨condition, taken, hcondition, hwhole, hmore⟩
  · right
    rcases hmore with ⟨word, more, others, counted, hdrop, -⟩ | ⟨-, rfl⟩
    · obtain ⟨last, others, hlast, hends⟩ := hstuck
      rw [hdrop] at hlast
      cases hlast
      cases hends
    · exact hstuck

theorem readLinked_isKept_or_stuck (hstatements : Exhausts statements limit)
    (hlimit : tokens.length ≤ limit) {membership : Bool}
    (h : readLinked statements membership bound tokens = .ok (nodes, count)) :
    (∀ node ∈ nodes, IsKept node) ∨ Stuck (tokens.drop count) := by
  induction bound generalizing tokens nodes count with
  | zero =>
    cases h
    left
    simp
  | succ bound ih =>
    cases tokens with
    | nil =>
      cases h
      left
      simp
    | cons token rest =>
      rcases readLinked_isWhole_or_stuck hstatements hlimit (List.cons_ne_nil _ _) h with
        ⟨condition, taken, hcondition, hwhole, hmore⟩ | hstuck
      · have hbuilt := (readCondition_wellBuilt hstatements hlimit hcondition).2
        have hkept := isKept_of_isWhole hbuilt hwhole
        rcases hmore with ⟨word, more, others, counted, hdrop, hothers, rfl, rfl⟩ | ⟨rfl, -⟩
        · have hlength := congrArg List.length hdrop
          simp only [List.length_drop, List.length_cons] at hlength hlimit
          rcases ih (by omega) hothers with hall | hstuck
          · left
            simp only [List.forall_mem_cons]
            exact ⟨hkept, everywhere_leaf rfl rfl, hall⟩
          · right
            rw [Nat.add_assoc, ← List.drop_drop, hdrop, Nat.add_comm, List.drop_succ_cons]
            exact hstuck
        · left
          simpa using hkept
      · exact .inr hstuck

def Keeps (statements : List Token → Statements) (bound : Nat) : Prop :=
  ∀ tokens : List Token, tokens.length ≤ bound → (statements tokens).fault = none →
    ∀ found ∈ (statements tokens).read, IsKept found.1

theorem isKept_of_isTerm (h : node.isTerm = true) : IsKept node := by
  cases node with
  | term t => exact everywhere_leaf rfl rfl
  | _ => cases h

theorem readSource_isKept_or_stuck (hquery : Keeps statements limit)
    (hlimit : tokens.length ≤ limit) {word table : String} {columns : List Node}
    (hcolumns : ∀ column ∈ columns, column.isTerm = true)
    (h : readSource statements word table columns tokens = .ok (node, count)) :
    IsKept node ∨ Stuck (tokens.drop count) := by
  rcases readSource_cases h with ⟨values, paren, rest, rows, taken, rfl, hrows, -, rfl⟩ |
    ⟨-, -, -, hfault, rfl, -⟩ | ⟨-, rfl, -⟩
  · right
    rw [List.drop_succ_cons, List.drop_succ_cons]
    exact readRows_last hrows
  · left
    apply isKept_of_children rfl
    intro child hchild
    simp only [children, Option.map_none, Option.getD_none, List.nil_append, List.mem_append,
      List.mem_map] at hchild
    rcases hchild with hchild | ⟨found, hread, rfl⟩
    · exact isKept_of_isTerm (hcolumns child hchild)
    · exact hquery _ hlimit hfault found hread
  · left
    apply isKept_of_children rfl
    intro child hchild
    simp only [children, Option.map_none, Option.getD_none, List.nil_append,
      List.append_nil] at hchild
    exact isKept_of_isTerm (hcolumns child hchild)

theorem readInsert_isKept_or_stuck (hquery : Keeps statements limit)
    (hlimit : tokens.length ≤ limit + 1) (h : readInsert statements tokens = .ok (node, count)) :
    IsKept node ∨ Stuck (tokens.drop count) := by
  obtain ⟨insert, table, rest, columns, taken, counted, rfl, -, hcolumns, hsource, rfl⟩ :=
    readInsert_eq_ok.mp h
  have hrest : (rest.drop taken).length ≤ limit := by
    simp only [List.length_cons] at hlimit
    rw [List.length_drop]
    omega
  have hkept := readSource_isKept_or_stuck hquery hrest (readColumnList_isTerm hcolumns) hsource
  rw [List.drop_drop] at hkept
  rw [Nat.add_assoc, Nat.add_comm 2]
  exact hkept

theorem readStatement_isKept_or_stuck (hstatements : Exhausts statements limit)
    (hdelivers : Delivers statements limit) (hquery : Keeps statements limit)
    (hlimit : tokens.length ≤ limit + 1)
    (h : readStatement statements tokens = .ok (node, count)) :
    IsKept node ∨ Stuck (tokens.drop count) := by
  have hbuilt := (readStatement_wellBuilt hstatements hdelivers hlimit h).2
  have hwhole : node.isWhole = true → IsKept node ∨ Stuck (tokens.drop count) :=
    fun hwhole ↦ .inl (isKept_of_isWhole hbuilt hwhole)
  unfold readStatement at h
  split at h
  · cases h
  · rename_i token rest
    have hrest : rest.length ≤ limit := Nat.le_of_succ_le_succ hlimit
    split at h
    · apply hwhole
      obtain ⟨_, -, hfound⟩ := bind_eq_ok.mp h
      dsimp only at hfound
      split at hfound <;> cases hfound <;> rfl
    · apply hwhole
      obtain ⟨_, -, hfound⟩ := bind_eq_ok.mp h
      cases hfound
      rfl
    · apply hwhole
      obtain ⟨_, _, _, _, _, -, -, -, rfl, -⟩ := readCall_eq_ok.mp h
      rfl
    · obtain ⟨⟨conditions, taken⟩, hconditions, hfound⟩ := bind_eq_ok.mp h
      cases hfound
      rcases readLinked_isKept_or_stuck hstatements hrest hconditions with hall | hstuck
      · exact .inl (isKept_of_children rfl hall)
      · exact .inr hstuck
    · exact readInsert_isKept_or_stuck hquery hlimit h
    · apply hwhole
      obtain ⟨_, _, _, rfl, -⟩ := exists_of_readLimit h
      rfl
    · apply hwhole
      obtain ⟨_, -, hfound⟩ := bind_eq_ok.mp h
      cases hfound
      rfl
    · apply hwhole
      obtain ⟨_, -, hfound⟩ := bind_eq_ok.mp h
      cases hfound
      rfl
    · apply hwhole
      cases h
      rfl
    · obtain ⟨⟨conditions, taken⟩, hconditions, hfound⟩ := bind_eq_ok.mp h
      cases hfound
      rcases readLinked_isKept_or_stuck hstatements hrest hconditions with hall | hstuck
      · exact .inl (isKept_of_children rfl hall)
      · exact .inr hstuck
    · cases h
    · cases h

end Statements

theorem fault_readStatements_of_stuck (h : Stuck tokens) (hbound : tokens.length ≤ bound) :
    (readStatements bound tokens).fault ≠ none := by
  obtain ⟨token, more, rfl, hends⟩ := h
  cases bound with
  | zero => cases hbound
  | succ bound =>
    obtain ⟨fault, hfault⟩ : ∃ fault,
        readStatement (readStatements bound) (token :: more) = .error fault :=
      readStatement_of_stuck ⟨token, more, rfl, hends⟩
    rw [readStatements, hfault]
    simp

theorem readStatements_keeps (bound : Nat) : Keeps (readStatements bound) bound := by
  induction bound with
  | zero =>
    intro tokens _ _ found hfound
    cases hfound
  | succ bound ih =>
    intro tokens hlength hfault found hfound
    cases tokens with
    | nil => cases hfound
    | cons token rest =>
      unfold readStatements at hfault hfound
      cases hread : readStatement (readStatements bound) (token :: rest) with
      | error fault =>
        rw [hread] at hfault
        cases hfault
      | ok first =>
        obtain ⟨node, count⟩ := first
        rw [hread] at hfault hfound
        have hpos := readStatement_count_pos hread
        have hmore : ((token :: rest).drop count).length ≤ bound := by
          simp only [List.length_drop]
          omega
        rcases List.mem_cons.mp hfound with rfl | hfound
        · rcases readStatement_isKept_or_stuck (readStatements_exhausts bound)
            (readStatements_delivers bound) ih hlength hread with hkept | hstuck
          · exact hkept
          · exact absurd hfault (fault_readStatements_of_stuck hstuck hmore)
        · exact ih _ hmore hfault found hfound

theorem isKept_of_parse (h : parse tokens = .ok nodes) : ∀ node ∈ nodes, IsKept node := by
  unfold parse at h
  split at h
  · cases h
  · rename_i hfault
    cases h
    intro node hnode
    obtain ⟨found, hfound, rfl⟩ := List.mem_map.mp hnode
    exact readStatements_keeps tokens.length tokens (Nat.le_refl _) hfault found hfound

/-- A reading that comes to its end holds, at any depth, no query in a parenthesis, no INSERT with rows of
values and no negated call; and a query in a parenthesis is not in what is read before a fault either. -/
theorem parse_holds_nothing_abandoned (tokens : List Token) :
    (∀ nodes, parse tokens = .ok nodes → ∀ node ∈ nodes, ∀ part : Node, part.Within node →
      (∀ query, part ≠ .subselect query) ∧
      (∀ word table values columns query, part ≠ .insertClause word table (some values) columns query) ∧
      ∀ word name args asWord aliasName op value,
        part ≠ .condition [.not word, .call name args asWord aliasName, .operator op, value]) ∧
    ∀ found ∈ (statements tokens).read, ∀ part : Node, part.Within found.1 →
      ∀ query, part ≠ .subselect query := by
  constructor
  · intro nodes hparse node hnode part hpart
    have hkept : part.isAbandoned = false := by
      unfold parse at hparse
      split at hparse
      · cases hparse
      · rename_i hfault
        cases hparse
        obtain ⟨found, hfound, rfl⟩ := List.mem_map.mp hnode
        exact readStatements_keeps tokens.length tokens (Nat.le_refl _) hfault found hfound part hpart
    refine ⟨?_, ?_, ?_⟩
    · rintro query rfl
      cases hkept
    · rintro word table values columns query rfl
      cases hkept
    · rintro word name args asWord aliasName op value rfl
      cases hkept
  · rintro found hfound part hpart query rfl
    exact (readStatements_delivers tokens.length tokens (Nat.le_refl _) found hfound).2 _ hpart

/-- `insert into t select a where not b = 1` -/
def storedQuery : List Token :=
  [⟨.insertWord, "insert into"⟩, ⟨.identifier, "t"⟩, ⟨.selectWord, "select"⟩, ⟨.identifier, "a"⟩,
    ⟨.whereWord, "where"⟩, ⟨.notWord, "not"⟩, ⟨.identifier, "b"⟩, ⟨.compare, "="⟩, ⟨.number, "1"⟩]

theorem parse_storedQuery_holds_nothing_abandoned :
    ∃ node, parse storedQuery = .ok [node] ∧ ∀ part : Node, part.Within node →
      (∀ query, part ≠ .subselect query) ∧
      (∀ word table values columns query, part ≠ .insertClause word table (some values) columns query) ∧
      ∀ word name args asWord aliasName op value,
        part ≠ .condition [.not word, .call name args asWord aliasName, .operator op, value] :=
  ⟨_, rfl, (parse_holds_nothing_abandoned storedQuery).1 _ rfl _ (List.mem_singleton.mpr rfl)⟩

end Read

end SqlLayout
