import SqlLayout.Proofs.Read.Outcomes
import SqlLayout.Proofs.WellBuilt

/-!
# The trees that are read

Whatever the tokens are, the trees that the readers build are well built.  No query in a parenthesis is
ever built: its statements take all the tokens, and none is left to close it.
-/

namespace SqlLayout.Read

open Node

variable {tokens : List Token} {node : Node} {nodes : List Node} {count bound : Nat}
variable {token : Token} {limit : Nat}

/-! ### Values, calls and items -/

theorem exists_term_of_value? (h : value? token = some node) : ∃ t, node = .term t := by
  obtain ⟨kind, -, rfl⟩ := Option.map_eq_some_iff.mp h
  exact ⟨_, rfl⟩

theorem isTerm_of_value? (h : value? token = some node) : node.isTerm = true := by
  obtain ⟨t, rfl⟩ := exists_term_of_value? h
  rfl

theorem isTerm_of_mem_filterMap (h : node ∈ tokens.filterMap value?) : node.isTerm = true := by
  obtain ⟨token, -, hvalue⟩ := List.mem_filterMap.mp h
  exact isTerm_of_value? hvalue

theorem readNamed_isTerm (h : readNamed tokens = .ok (node, count)) : node.isTerm = true := by
  unfold readNamed at h
  split at h <;> cases h <;> rfl

theorem readArgs_wellBuilt {first : Bool} {args : List Node}
    (h : readArgs bound first tokens = .ok (args, count)) :
    ∀ arg ∈ args, arg.isOperand = true ∧ WellBuilt arg := by
  induction bound generalizing first tokens args count with
  | zero => cases h
  | succ bound ih =>
    cases tokens with
    | nil => cases h
    | cons token rest =>
      rw [readArgs_succ] at h
      obtain ⟨⟨arg, taken⟩, harg, hafter⟩ := bind_eq_ok.mp h
      have hfirst : ∀ node ∈ arg, node.isOperand = true ∧ WellBuilt node := by
        rcases readArg_cases harg with ⟨node, hvalue, rfl, -⟩ |
          ⟨paren, inner, args, taken, -, -, -, hargs, rfl, -⟩ | ⟨-, -, -, rfl, -⟩
        · obtain ⟨t, rfl⟩ := exists_term_of_value? hvalue
          simp only [List.mem_singleton, forall_eq]
          exact ⟨rfl, everywhere_leaf trivial rfl⟩
        · have hinner := ih hargs
          simp only [List.mem_singleton, forall_eq]
          refine ⟨rfl, wellBuilt_iff.mpr ⟨fun child hchild ↦ (hinner child hchild).1, ?_⟩⟩
          exact fun child hchild ↦ (hinner child hchild).2
        · simp
      rcases readAfterArg_cases hafter with
        ⟨-, more, others, counted, -, hothers, rfl, -⟩ | ⟨-, -, -, rfl, -⟩
      · intro node hnode
        rcases List.mem_append.mp hnode with hnode | hnode
        · exact hfirst node hnode
        · exact ih hothers node hnode
      · exact hfirst

theorem readCall_wellBuilt (h : readCall tokens = .ok (node, count)) :
    node.isCall = true ∧ WellBuilt node := by
  obtain ⟨name, paren, inner, args, taken, -, -, hargs, rfl, -⟩ := readCall_eq_ok.mp h
  have hinner := readArgs_wellBuilt hargs
  refine ⟨rfl, wellBuilt_iff.mpr ⟨fun child hchild ↦ (hinner child hchild).1, ?_⟩⟩
  exact fun child hchild ↦ (hinner child hchild).2

theorem readBranches_isBranch (tokens : List Token) :
    ∀ branch ∈ (readBranches tokens).1, branch.isBranch = true := by
  fun_induction readBranches tokens with
  | case1 whenWord condition thenWord result rest h branches count hmore ih =>
    rw [hmore] at ih
    exact List.forall_mem_cons.mpr ⟨rfl, ih⟩
  | case3 elseWord result rest h branches count hmore ih =>
    rw [hmore] at ih
    exact List.forall_mem_cons.mpr ⟨rfl, ih⟩
  | _ => simp

theorem readSelectItem_wellBuilt (h : readSelectItem tokens = .ok (node, count)) :
    node.isItem = true ∧ WellBuilt node := by
  unfold readSelectItem at h
  split at h
  · have hterm := readNamed_isTerm h
    refine ⟨?_, wellBuilt_of_isTerm hterm⟩
    cases node <;> first | rfl | cases hterm
  · have hterm := readNamed_isTerm h
    refine ⟨?_, wellBuilt_of_isTerm hterm⟩
    cases node <;> first | rfl | cases hterm
  · obtain ⟨hcall, hbuilt⟩ := readCall_wellBuilt h
    refine ⟨?_, hbuilt⟩
    cases node <;> first | rfl | cases hcall
  · cases h
    have hbranches := readBranches_isBranch
    refine ⟨rfl, wellBuilt_iff.mpr ⟨hbranches _, fun branch hbranch ↦ ?_⟩⟩
    exact wellBuilt_of_isBranch (hbranches _ branch hbranch)
  · cases h

/-- What all items and separators have, a list of them has. -/
theorem readList_forall {item : List Token → Except Fault (List Node × Nat)}
    {separator : List Token → Option (List Node × List Token)} {motive : Node → Prop}
    (hitem : ∀ {tokens nodes count}, item tokens = .ok (nodes, count) → ∀ node ∈ nodes, motive node)
    (hseparator : ∀ {tokens between more}, separator tokens = some (between, more) →
      ∀ node ∈ between, motive node)
    (h : readList item separator bound tokens = .ok (nodes, count)) : ∀ node ∈ nodes, motive node := by
  induction bound generalizing tokens nodes count with
  | zero =>
    cases h
    simp
  | succ bound ih =>
    cases tokens with
    | nil =>
      cases h
      simp
    | cons token rest =>
      obtain ⟨found, hfound, hmore⟩ := bind_eq_ok.mp h
      split at hmore
      · cases hmore
        exact hitem hfound
      · rename_i between more hseparated
        obtain ⟨others, hothers, hall⟩ := map_eq_ok.mp hmore
        cases hall
        intro node hnode
        rcases List.mem_append.mp hnode with hnode | hnode
        · rcases List.mem_append.mp hnode with hnode | hnode
          · exact hitem hfound node hnode
          · exact hseparator hseparated node hnode
        · exact ih hothers node hnode

theorem comma?_forall {motive : Node → Prop} {between : List Node} {more : List Token}
    (h : comma? tokens = some (between, more)) : ∀ node ∈ between, motive node := by
  obtain ⟨_, -, hfound⟩ := Option.map_eq_some_iff.mp h
  cases hfound
  simp

theorem exists_link_of_link? {between : List Node} {more : List Token}
    (h : link? tokens = some (between, more)) : ∃ word, between = [.link word] := by
  obtain ⟨found, -, hfound⟩ := Option.map_eq_some_iff.mp h
  cases hfound
  exact ⟨found.1, rfl⟩

theorem readSelect_wellBuilt (h : readSelect tokens = .ok (node, count)) :
    node.isStatement = true ∧ WellBuilt node := by
  cases tokens with
  | nil => cases h
  | cons token rest =>
    obtain ⟨⟨items, taken⟩, hitems, hfound⟩ := bind_eq_ok.mp h
    cases hfound
    rw [readSelectItems_eq_readList] at hitems
    have hall : ∀ item ∈ items, item.isItem = true ∧ WellBuilt item := by
      refine readList_forall (fun hread ↦ ?_) comma?_forall hitems
      obtain ⟨found, hfound, hsingle⟩ := map_eq_ok.mp hread
      cases hsingle
      simpa using readSelectItem_wellBuilt hfound
    refine ⟨rfl, wellBuilt_iff.mpr ⟨fun item hitem ↦ (hall item hitem).1, ?_⟩⟩
    exact fun item hitem ↦ (hall item hitem).2

theorem readGroupBy_wellBuilt (h : readGroupBy tokens = .ok (node, count)) :
    node.isStatement = true ∧ WellBuilt node := by
  obtain ⟨⟨items, taken⟩, hitems, hfound⟩ := bind_eq_ok.mp h
  rw [readGroupItems_eq_readList (Nat.le_refl _)] at hitems
  have hall : ∀ item ∈ items, item.isTerm = true := by
    refine readList_forall (fun hread ↦ ?_) comma?_forall hitems
    unfold groupItem at hread
    split at hread
    · cases hread
    · split at hread
      · cases hread
      · cases hread
        simp [Node.plain, isTerm]
  have hbuilt : ∀ rollup, WellBuilt (.groupByClause items rollup) := fun rollup ↦
    wellBuilt_iff.mpr
      ⟨hall, fun item hitem ↦ wellBuilt_of_isTerm (hall item hitem)⟩
  dsimp only at hfound
  split at hfound <;> cases hfound <;> exact ⟨rfl, hbuilt _⟩

theorem readOrderBy_wellBuilt (h : readOrderBy tokens = .ok (node, count)) :
    node.isStatement = true ∧ WellBuilt node := by
  obtain ⟨⟨items, taken⟩, hitems, hfound⟩ := bind_eq_ok.mp h
  cases hfound
  rw [readOrderItems_eq_readList] at hitems
  have hall : ∀ item ∈ items, item.isTerm = true := by
    refine readList_forall (fun hread ↦ ?_) comma?_forall hitems
    unfold orderItem at hread
    split at hread
    · cases hread
    · split at hread
      · cases hread
      · cases hread
        simp [isTerm]
  refine ⟨rfl, wellBuilt_iff.mpr ⟨hall, fun item hitem ↦ ?_⟩⟩
  exact wellBuilt_of_isTerm (hall item hitem)

theorem readLimit_wellBuilt (h : readLimit tokens = .ok (node, count)) :
    node.isStatement = true ∧ WellBuilt node := by
  obtain ⟨limit, offset, word, rfl, -⟩ := exists_of_readLimit h
  exact ⟨rfl, wellBuilt_limitClause _ _ _⟩

/-! ### Conditions -/

theorem isPlainCondition_of_negated? (h : negated? tokens = some (node, count)) :
    IsPlainCondition node := by
  unfold negated? at h
  split at h
  · obtain ⟨left, hleft, h⟩ := Option.bind_eq_some_iff.mp h
    obtain ⟨right, hright, h⟩ := Option.bind_eq_some_iff.mp h
    obtain ⟨left, rfl⟩ := exists_term_of_value? hleft
    obtain ⟨right, rfl⟩ := exists_term_of_value? hright
    cases h
    exact .negated _ left _ right
  · cases h

theorem isPlainCondition_of_between? (h : between? tokens = some (node, count)) :
    IsPlainCondition node := by
  unfold between? at h
  split at h
  · obtain ⟨left, hleft, h⟩ := Option.bind_eq_some_iff.mp h
    obtain ⟨low, hlow, h⟩ := Option.bind_eq_some_iff.mp h
    obtain ⟨high, hhigh, h⟩ := Option.bind_eq_some_iff.mp h
    obtain ⟨left, rfl⟩ := exists_term_of_value? hleft
    obtain ⟨low, rfl⟩ := exists_term_of_value? hlow
    obtain ⟨high, rfl⟩ := exists_term_of_value? hhigh
    cases h
    exact .between left _ low _ high
  · cases h

theorem isPlainCondition_of_comparison? (h : comparison? tokens = some (node, count)) :
    IsPlainCondition node := by
  unfold comparison? at h
  split at h
  · obtain ⟨left, hleft, h⟩ := Option.bind_eq_some_iff.mp h
    obtain ⟨right, hright, h⟩ := Option.bind_eq_some_iff.mp h
    obtain ⟨left, rfl⟩ := exists_term_of_value? hleft
    obtain ⟨right, rfl⟩ := exists_term_of_value? hright
    cases h
    exact .comparison left _ right
  · cases h

theorem isPlainCondition_of_isNull? (h : isNull? tokens = some (node, count)) :
    IsPlainCondition node := by
  unfold isNull? at h
  split at h
  · obtain ⟨left, hleft, h⟩ := Option.bind_eq_some_iff.mp h
    obtain ⟨left, rfl⟩ := exists_term_of_value? hleft
    cases h
    exact .isNull left _ _
  · cases h

theorem isPlainCondition_of_isNotNull? (h : isNotNull? tokens = some (node, count)) :
    IsPlainCondition node := by
  unfold isNotNull? at h
  split at h
  · obtain ⟨left, hleft, h⟩ := Option.bind_eq_some_iff.mp h
    obtain ⟨left, rfl⟩ := exists_term_of_value? hleft
    cases h
    exact .isNotNull left _ _ _
  · cases h

theorem isPlainCondition_of_simpleCondition? (h : simpleCondition? tokens = some (node, count)) :
    IsPlainCondition node := by
  simp only [simpleCondition?, Option.orElse_eq_orElse, Option.orElse_eq_or,
    Option.or_eq_some_iff] at h
  rcases h with h | ⟨-, h | ⟨-, h | ⟨-, h | ⟨-, h⟩⟩⟩⟩
  · exact isPlainCondition_of_negated? h
  · exact isPlainCondition_of_between? h
  · exact isPlainCondition_of_comparison? h
  · exact isPlainCondition_of_isNull? h
  · exact isPlainCondition_of_isNotNull? h

theorem isValueOrNot_of_readOperand (h : readOperand token = .ok node) : IsValueOrNot node := by
  unfold readOperand at h
  split at h
  · rename_i hvalue
    cases h
    obtain ⟨t, rfl⟩ := exists_term_of_value? hvalue
    exact .term t
  · split at h <;> cases h
    exact .not _

theorem readNegatedCall_wellBuilt {word : String}
    (h : readNegatedCall word tokens = .ok (node, count)) : IsCondition node ∧ WellBuilt node := by
  obtain ⟨call, op, right, more, operand, hcall, -, hright, rfl⟩ := readNegatedCall_eq_ok.mp h
  have hright' := isValueOrNot_of_readOperand hright
  obtain ⟨-, hbuilt⟩ := readCall_wellBuilt hcall
  obtain ⟨name, paren, inner, args, counted, -, -, -, rfl, -⟩ := readCall_eq_ok.mp hcall
  refine ⟨.negatedCall _ _ _ _ _ _ hright', wellBuilt_condition ?_⟩
  simp only [List.forall_mem_cons, List.not_mem_nil, false_imp_iff, implies_true, and_true]
  exact ⟨everywhere_leaf trivial rfl, hbuilt, everywhere_leaf trivial rfl, hright'.wellBuilt⟩

/-- Statements that are read to their end took all the tokens. -/
def Exhausts (statements : List Token → Statements) (bound : Nat) : Prop :=
  ∀ tokens : List Token, tokens.length ≤ bound → (statements tokens).fault = none →
    tokens.length ≤ totalCount (statements tokens).read

/-- Only values are found in a parenthesis. -/
theorem readGroup_isTerm {statements : List Token → Statements} (hstatements : Exhausts statements limit)
    (hlimit : tokens.length ≤ limit) {found : List Node} (hfound : ∀ item ∈ found, item.isTerm = true)
    (h : readGroup statements bound (.group found) tokens = .ok (node, count)) :
    ∃ items, node = .group items ∧ ∀ item ∈ items, item.isTerm = true := by
  rcases readGroup_cases h with ⟨inner, -, -, -, -, -, rfl, -⟩ | ⟨inner, query, less, taken, rfl, hfault, hall⟩
  · refine ⟨_, rfl, List.forall_mem_append.mpr ⟨hfound, ?_⟩⟩
    exact fun item hitem ↦ isTerm_of_mem_filterMap hitem
  · -- The statements of a query leave no token for the parenthesis.
    rw [List.length_append] at hlimit
    rw [List.drop_eq_nil_of_le (hstatements query (by omega) hfault)] at hall
    cases less <;> cases hall

theorem readMembership_wellBuilt {statements : List Token → Statements}
    (hstatements : Exhausts statements limit) (hlimit : tokens.length ≤ limit)
    (h : readMembership statements tokens = .ok (node, count)) : IsCondition node ∧ WellBuilt node := by
  obtain ⟨left, op, inner, operand, found, taken, rfl, hoperand, hgroup, rfl, -⟩ := readMembership_eq_ok.mp h
  have hinner : (inner.drop 1).length ≤ limit := by
    simp only [List.length_cons] at hlimit
    simp only [List.length_drop]
    omega
  obtain ⟨items, rfl, hitems⟩ := readGroup_isTerm hstatements hinner (by simp) hgroup
  have hleft := isValueOrNot_of_readOperand hoperand
  have hbuilt : WellBuilt (.group items) :=
    wellBuilt_iff.mpr ⟨hitems, fun item hitem ↦ wellBuilt_of_isTerm (hitems item hitem)⟩
  refine ⟨.membership _ _ hleft, wellBuilt_condition ?_⟩
  simp only [List.forall_mem_cons, List.not_mem_nil, false_imp_iff, implies_true, and_true]
  exact ⟨hleft.wellBuilt, everywhere_leaf trivial rfl, hbuilt⟩

theorem readCondition_wellBuilt {statements : List Token → Statements}
    (hstatements : Exhausts statements limit) (hlimit : tokens.length ≤ limit) {membership : Bool}
    (h : readCondition statements membership tokens = .ok (node, count)) :
    IsCondition node ∧ WellBuilt node := by
  rcases readCondition_cases h with hsimple | ⟨-, ⟨word, rest, -, -, hcall⟩ | ⟨-, -, hmember⟩⟩
  · have hplain := isPlainCondition_of_simpleCondition? hsimple
    exact ⟨.plain hplain, hplain.wellBuilt⟩
  · exact readNegatedCall_wellBuilt hcall
  · exact readMembership_wellBuilt hstatements hlimit hmember

theorem readLinked_wellBuilt {statements : List Token → Statements} (hstatements : Exhausts statements limit)
    (hlimit : tokens.length ≤ limit) {membership : Bool}
    (h : readLinked statements membership bound tokens = .ok (nodes, count)) :
    AreLinked nodes ∧ ∀ node ∈ nodes, WellBuilt node := by
  induction bound generalizing tokens nodes count with
  | zero =>
    cases h
    exact ⟨.nil, by simp⟩
  | succ bound ih =>
    cases tokens with
    | nil =>
      cases h
      exact ⟨.nil, by simp⟩
    | cons token rest =>
      obtain ⟨condition, taken, hcondition, hmore⟩ := readLinked_cases (List.cons_ne_nil _ _) h
      obtain ⟨hshape, hbuilt⟩ := readCondition_wellBuilt hstatements hlimit hcondition
      rcases hmore with ⟨word, more, others, counted, hdrop, hothers, rfl, -⟩ | ⟨rfl, -⟩
      · have hlength : more.length ≤ limit := by
          have := congrArg List.length hdrop
          simp only [List.length_drop, List.length_cons] at this hlimit
          omega
        obtain ⟨hlinked, hothers'⟩ := ih hlength hothers
        refine ⟨.link word hshape hlinked, ?_⟩
        simp only [List.forall_mem_cons]
        exact ⟨hbuilt, everywhere_leaf trivial rfl, hothers'⟩
      · exact ⟨.last hshape, by simpa using hbuilt⟩

theorem readWhere_wellBuilt {statements : List Token → Statements} (hstatements : Exhausts statements limit)
    (hlimit : tokens.length ≤ limit + 1) (h : readWhere statements tokens = .ok (node, count)) :
    node.isStatement = true ∧ WellBuilt node := by
  cases tokens with
  | nil => cases h
  | cons token rest =>
    obtain ⟨⟨conditions, taken⟩, hconditions, hfound⟩ := bind_eq_ok.mp h
    cases hfound
    exact ⟨rfl, wellBuilt_iff.mpr
      (readLinked_wellBuilt hstatements (Nat.le_of_succ_le_succ hlimit) hconditions)⟩

theorem readHaving_wellBuilt {statements : List Token → Statements} (hstatements : Exhausts statements limit)
    (hlimit : tokens.length ≤ limit + 1) (h : readHaving statements tokens = .ok (node, count)) :
    node.isStatement = true ∧ WellBuilt node := by
  cases tokens with
  | nil => cases h
  | cons token rest =>
    obtain ⟨⟨conditions, taken⟩, hconditions, hfound⟩ := bind_eq_ok.mp h
    cases hfound
    exact ⟨rfl, wellBuilt_iff.mpr
      (readLinked_wellBuilt hstatements (Nat.le_of_succ_le_succ hlimit) hconditions)⟩

/-! ### Joins -/

theorem plain_isOperand (kind : TermKind) (text : String) :
    (Node.plain kind text).isOperand = true ∧ WellBuilt (.plain kind text) :=
  ⟨rfl, everywhere_leaf trivial rfl⟩

theorem readCall_isOperand (h : readCall tokens = .ok (node, count)) :
    node.isOperand = true ∧ WellBuilt node :=
  ⟨isOperand_of_isCall (readCall_wellBuilt h).1, (readCall_wellBuilt h).2⟩

theorem readNameComparison_wellBuilt (tokens : List Token) :
    ∀ node ∈ (readNameComparison tokens).1, IsJoinPart node ∧ WellBuilt node := by
  unfold readNameComparison
  split
  · simpa using isJoinPart_comparison _ (plain_isOperand _ _) (plain_isOperand _ _)
  · simp

theorem readCallOnRight_wellBuilt (h : readCallOnRight tokens = .ok (nodes, count)) :
    ∀ node ∈ nodes, IsJoinPart node ∧ WellBuilt node := by
  unfold readCallOnRight at h
  split at h
  · obtain ⟨⟨call, taken⟩, hcall, hfound⟩ := bind_eq_ok.mp h
    cases hfound
    simpa using isJoinPart_comparison _ (plain_isOperand _ _) (readCall_isOperand hcall)
  · cases h
    simp

theorem readCallOnLeft_wellBuilt (h : readCallOnLeft tokens = .ok (nodes, count)) :
    ∀ node ∈ nodes, IsJoinPart node ∧ WellBuilt node := by
  unfold readCallOnLeft at h
  split at h
  · obtain ⟨⟨call, taken⟩, hcall, h⟩ := bind_eq_ok.mp h
    have hleft := readCall_isOperand hcall
    dsimp only at h
    split at h
    · cases h
      simpa using isJoinPart_comparison _ hleft (plain_isOperand _ _)
    · obtain ⟨⟨right, counted⟩, hright, hfound⟩ := bind_eq_ok.mp h
      cases hfound
      simpa using isJoinPart_comparison _ hleft (readCall_isOperand hright)
    · cases h
      simp
  · cases h
    simp

theorem readComparisons_wellBuilt (h : readComparisons tokens = .ok (nodes, count)) :
    ∀ node ∈ nodes, IsJoinPart node ∧ WellBuilt node := by
  obtain ⟨⟨right, taken⟩, hright, h⟩ := bind_eq_ok.mp h
  obtain ⟨⟨left, counted⟩, hleft, hfound⟩ := bind_eq_ok.mp h
  cases hfound
  intro node hnode
  rcases List.mem_append.mp hnode with hnode | hnode
  · rcases List.mem_append.mp hnode with hnode | hnode
    · exact readNameComparison_wellBuilt tokens node hnode
    · exact readCallOnRight_wellBuilt hright node hnode
  · exact readCallOnLeft_wellBuilt hleft node hnode

theorem readJoinConditions_wellBuilt (h : readJoinConditions bound tokens = .ok (nodes, count)) :
    ∀ node ∈ nodes, IsJoinPart node ∧ WellBuilt node := by
  rw [readJoinConditions_eq_readList] at h
  refine readList_forall readComparisons_wellBuilt (fun hlink ↦ ?_) h
  obtain ⟨word, rfl⟩ := exists_link_of_link? hlink
  simp only [List.mem_singleton, forall_eq]
  exact ⟨.link word, everywhere_leaf trivial rfl⟩

theorem readFromPart_wellBuilt (h : readFromPart tokens = .ok (some (nodes, count))) :
    ∀ node ∈ nodes, node.isFromPart = true ∧ WellBuilt node := by
  have hnamed : ∀ {node count}, readNamed tokens = .ok (node, count) →
      node.isFromPart = true ∧ WellBuilt node := by
    intro node count hread
    have hterm := readNamed_isTerm hread
    refine ⟨?_, wellBuilt_of_isTerm hterm⟩
    cases node <;> first | rfl | cases hterm
  unfold readFromPart at h
  split at h
  · obtain ⟨found, hfound, hnodes⟩ := bind_eq_ok.mp h
    cases hnodes
    simpa using hnamed hfound
  · obtain ⟨found, hfound, hnodes⟩ := bind_eq_ok.mp h
    cases hnodes
    simpa using hnamed hfound
  · cases h
    simp only [List.mem_singleton, forall_eq]
    exact ⟨rfl, everywhere_leaf trivial rfl⟩
  · obtain ⟨⟨conditions, taken⟩, hconditions, hnodes⟩ := bind_eq_ok.mp h
    cases hnodes
    have hall := readJoinConditions_wellBuilt hconditions
    simp only [List.mem_singleton, forall_eq]
    exact ⟨rfl, wellBuilt_iff.mpr
      ⟨fun node hnode ↦ (hall node hnode).1, fun node hnode ↦ (hall node hnode).2⟩⟩
  · cases h
    simp
  · cases h

theorem readFromParts_wellBuilt (h : readFromParts bound tokens = .ok (nodes, count)) :
    ∀ node ∈ nodes, node.isFromPart = true ∧ WellBuilt node := by
  induction bound generalizing tokens nodes count with
  | zero =>
    cases h
    simp
  | succ bound ih =>
    obtain ⟨part?, hpart, h⟩ := bind_eq_ok.mp h
    cases part? with
    | none =>
      cases h
      simp
    | some found =>
      obtain ⟨⟨parts, taken⟩, hparts, hfound⟩ := bind_eq_ok.mp h
      cases hfound
      intro node hnode
      rcases List.mem_append.mp hnode with hnode | hnode
      · exact readFromPart_wellBuilt hpart node hnode
      · exact ih hparts node hnode

theorem readFrom_wellBuilt (h : readFrom tokens = .ok (node, count)) :
    node.isStatement = true ∧ WellBuilt node := by
  cases tokens with
  | nil => cases h
  | cons token rest =>
    obtain ⟨⟨parts, taken⟩, hparts, hfound⟩ := bind_eq_ok.mp h
    cases hfound
    have hall := readFromParts_wellBuilt hparts
    exact ⟨rfl, wellBuilt_iff.mpr
      ⟨fun node hnode ↦ (hall node hnode).1, fun node hnode ↦ (hall node hnode).2⟩⟩

/-! ### INSERT and statements -/

theorem readColumnList_isTerm (h : readColumnList tokens = .ok (nodes, count)) :
    ∀ node ∈ nodes, node.isTerm = true := by
  rcases readColumnList_cases h with ⟨rfl, -⟩ | ⟨word, inner, taken, -, hcolumns, -⟩
  · simp
  · obtain ⟨columns, -, -, -, -, -, rfl, -⟩ := readColumns_cases hcolumns
    exact fun node hnode ↦ isTerm_of_mem_filterMap hnode

theorem readRows_isTerm {row : List Node} {rows : List (List Node)}
    (hrow : ∀ value ∈ row, value.isTerm = true) (h : readRows bound row tokens = .ok (rows, count)) :
    ∀ row ∈ rows, ∀ value ∈ row, value.isTerm = true := by
  induction bound generalizing row tokens rows count with
  | zero => cases h
  | succ bound ih =>
    cases tokens with
    | nil => cases h
    | cons token rest =>
      rw [readRows_succ] at h
      have hboth : ∀ value ∈ row ++ (value? token).toList, value.isTerm = true := by
        refine List.forall_mem_append.mpr ⟨hrow, fun value hvalue ↦ ?_⟩
        exact isTerm_of_value? (Option.mem_toList.mp hvalue)
      rcases readAfterValue_cases h with ⟨-, more, others, counted, -, hothers, rfl, -⟩ |
        ⟨-, -, -, more, others, counted, -, hothers, rfl, -⟩ | ⟨-, more, -, rfl, -⟩
      · exact ih hboth hothers
      · exact List.forall_mem_cons.mpr ⟨hboth, ih (by simp) hothers⟩
      · simpa using hboth

def Delivers (statements : List Token → Statements) (bound : Nat) : Prop :=
  ∀ tokens : List Token, tokens.length ≤ bound → ∀ found ∈ (statements tokens).read,
    found.1.isStatement = true ∧ WellBuilt found.1

section Statements

variable {statements : List Token → Statements} {limit : Nat}

theorem readSource_wellBuilt (hquery : Delivers statements limit) (hlimit : tokens.length ≤ limit)
    {word table : String} {columns : List Node} (hcolumns : ∀ column ∈ columns, column.isTerm = true)
    (h : readSource statements word table columns tokens = .ok (node, count)) :
    node.isStatement = true ∧ WellBuilt node := by
  have hleaves : ∀ {nodes : List Node}, (∀ node ∈ nodes, node.isTerm = true) →
      ∀ node ∈ nodes, WellBuilt node :=
    fun hnodes node hnode ↦ wellBuilt_of_isTerm (hnodes node hnode)
  rcases readSource_cases h with ⟨values, -, rest, rows, taken, -, hrows, rfl, -⟩ |
    ⟨-, -, -, -, rfl, -⟩ | ⟨-, rfl, -⟩
  · have hvalues := readRows_isTerm (by simp) hrows
    refine ⟨rfl, wellBuilt_iff.mpr ⟨⟨by simpa using hvalues, hcolumns, by simp⟩, ?_⟩⟩
    intro child hchild
    simp only [children, Option.map_some, Option.getD_some, List.append_nil, List.mem_append,
      List.mem_flatten] at hchild
    rcases hchild with ⟨row, hrow, hchild⟩ | hchild
    · exact hleaves (hvalues row hrow) child hchild
    · exact hleaves hcolumns child hchild
  · have hfound := hquery _ hlimit
    refine ⟨rfl, wellBuilt_iff.mpr ⟨⟨by simp, hcolumns, ?_⟩, ?_⟩⟩
    · intro statement hstatement
      obtain ⟨found, hread, rfl⟩ := List.mem_map.mp hstatement
      exact (hfound found hread).1
    · intro child hchild
      simp only [children, Option.map_none, Option.getD_none, List.nil_append, List.mem_append,
        List.mem_map] at hchild
      rcases hchild with hchild | ⟨found, hread, rfl⟩
      · exact hleaves hcolumns child hchild
      · exact (hfound found hread).2
  · refine ⟨rfl, wellBuilt_iff.mpr ⟨⟨by simp, hcolumns, by simp⟩, ?_⟩⟩
    simpa [children] using hleaves hcolumns

theorem readInsert_wellBuilt (hquery : Delivers statements limit)
    (hlimit : tokens.length ≤ limit + 1) (h : readInsert statements tokens = .ok (node, count)) :
    node.isStatement = true ∧ WellBuilt node := by
  obtain ⟨insert, table, rest, columns, taken, counted, rfl, -, hcolumns, hsource, -⟩ := readInsert_eq_ok.mp h
  refine readSource_wellBuilt hquery ?_ (readColumnList_isTerm hcolumns) hsource
  simp only [List.length_cons] at hlimit
  rw [List.length_drop]
  omega

theorem readStatement_wellBuilt (hstatements : Exhausts statements limit)
    (hquery : Delivers statements limit) (hlimit : tokens.length ≤ limit + 1)
    (h : readStatement statements tokens = .ok (node, count)) :
    node.isStatement = true ∧ WellBuilt node := by
  unfold readStatement at h
  split at h
  · cases h
  · split at h
    · exact readGroupBy_wellBuilt h
    · exact readFrom_wellBuilt h
    · have hcall := readCall_wellBuilt h
      refine ⟨?_, hcall.2⟩
      cases node <;> first | rfl | cases hcall.1
    · exact readHaving_wellBuilt hstatements hlimit h
    · exact readInsert_wellBuilt hquery hlimit h
    · exact readLimit_wellBuilt h
    · exact readOrderBy_wellBuilt h
    · exact readSelect_wellBuilt h
    · cases h
      exact ⟨rfl, everywhere_leaf trivial rfl⟩
    · exact readWhere_wellBuilt hstatements hlimit h
    · cases h
    · cases h

theorem readStatement_count_pos (h : readStatement statements tokens = .ok (node, count)) :
    0 < count := by
  unfold readStatement at h
  split at h
  · cases h
  · split at h
    · obtain ⟨_, -, h⟩ := bind_eq_ok.mp h
      dsimp only at h
      split at h <;> cases h <;> omega
    · obtain ⟨_, -, h⟩ := bind_eq_ok.mp h
      cases h
      omega
    · obtain ⟨_, _, _, _, _, -, -, -, -, rfl⟩ := readCall_eq_ok.mp h
      omega
    · obtain ⟨_, -, h⟩ := bind_eq_ok.mp h
      cases h
      omega
    · obtain ⟨_, _, _, _, _, _, -, -, -, -, rfl⟩ := readInsert_eq_ok.mp h
      omega
    · obtain ⟨_, _, _, -, hpos⟩ := exists_of_readLimit h
      exact hpos
    · obtain ⟨_, -, h⟩ := bind_eq_ok.mp h
      cases h
      omega
    · obtain ⟨_, -, h⟩ := bind_eq_ok.mp h
      cases h
      omega
    · cases h
      omega
    · obtain ⟨_, -, h⟩ := bind_eq_ok.mp h
      cases h
      omega
    · cases h
    · cases h

end Statements

theorem readStatements_exhausts (bound : Nat) : Exhausts (readStatements bound) bound := by
  induction bound with
  | zero =>
    intro tokens hlength _
    simp [List.eq_nil_of_length_eq_zero (Nat.le_zero.mp hlength)]
  | succ bound ih =>
    intro tokens hlength hfault
    cases tokens with
    | nil => simp
    | cons token rest =>
      unfold readStatements at hfault ⊢
      cases hread : readStatement (readStatements bound) (token :: rest) with
      | error fault => simp [hread] at hfault
      | ok found =>
        obtain ⟨node, count⟩ := found
        simp only [hread] at hfault ⊢
        have hpos := readStatement_count_pos hread
        have hmore := ih _ (by simp only [List.length_drop]; omega) hfault
        simp only [List.length_drop] at hmore
        simp only [totalCount, List.foldr_cons] at hmore ⊢
        omega

theorem readStatements_delivers (bound : Nat) : Delivers (readStatements bound) bound := by
  induction bound with
  | zero =>
    intro tokens _ found hfound
    cases hfound
  | succ bound ih =>
    intro tokens hlength found hfound
    cases tokens with
    | nil => cases hfound
    | cons token rest =>
      unfold readStatements at hfound
      cases hread : readStatement (readStatements bound) (token :: rest) with
      | error fault =>
        rw [hread] at hfound
        cases hfound
      | ok first =>
        rw [hread] at hfound
        rcases List.mem_cons.mp hfound with rfl | hfound
        · exact readStatement_wellBuilt (readStatements_exhausts bound) ih hlength hread
        · have hpos := readStatement_count_pos hread
          exact ih _ (by simp only [List.length_drop]; omega) found hfound

end SqlLayout.Read
