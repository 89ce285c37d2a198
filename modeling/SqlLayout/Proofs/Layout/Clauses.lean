import SqlLayout.Proofs.Layout.Values

/-!
# Clauses spell their tokens

Every clause that holds no statements is written with its tokens, one item to a line.
-/

namespace SqlLayout.Layout

open Text Token Spelling Regular

variable {edits : List Edit} {tokens : List Token} (indent : Int)
variable {node left right : Node} {items parts : List Node} {last : Bool} {stage : Nat} {op : String}
  {t : Term}

theorem inside_item (hnode : isItem node = true) (hsound : ∀ token ∈ itemTokens node, token.isSound = true)
    (h : Behind edits tokens) :
    Inside (selectItemEdits indent node ++ edits) (itemTokens node ++ tokens) := by
  cases node with
  | term t =>
    simp only [isItem, isNamed, Bool.and_eq_true] at hnode
    exact .term (hsound _ (by simp [itemTokens, namedTokens]))
      (behind_alias hnode.2 (fun token htoken ↦ hsound token (by
        simp [itemTokens, namedTokens, htoken])) h)
  | call name args asWord aliasName => exact inside_call hnode hsound h
  | caseOf word branches =>
    have hword := hsound ⟨.caseWord, upper word⟩ (by simp [itemTokens])
    have hbranches := atLine_branches indent hnode
      (fun token htoken ↦ hsound token (by simp [itemTokens, htoken])) h
    have hcase := Inside.spelled hword (by decide) (by decide) (.endLine hbranches)
    exact hcase.of_text (by simp [selectItemEdits, caseEdits]) (by simp [selectItemEdits, caseEdits])
  | _ => simp [isItem] at hnode

theorem noParen_itemTokens (hnode : isItem node = true) :
    (itemTokens node ++ tokens).head? ≠ some openParen := by
  cases node with
  | term t => simpa [itemTokens, namedTokens] using ne_openParen (tokenKind_ne t.kind).2.2
  | call name args asWord aliasName => exact noParen_callTokens hnode
  | caseOf word branches => simp [itemTokens, openParen]
  | _ => simp [isItem] at hnode

theorem atLine_items (hitems : items.all isItem = true)
    (hsound : ∀ token ∈ separated itemTokens items, token.isSound = true) (h : AtLine false edits tokens) :
    AtLine false (selectItemsEdits indent items ++ edits)
      (separated itemTokens items ++ tokens) := by
  induction items with
  | nil => exact h
  | cons item rest ih =>
    simp only [List.all_cons, Bool.and_eq_true] at hitems
    have hrest := ih hitems.2 fun token htoken ↦ hsound token (by simp [separated, htoken])
    have hitem := inside_item indent hitems.1
      (fun token htoken ↦ hsound token (by simp [separated, htoken]))
      (behind_commaBefore rest hrest)
    have hline := AtLine.of_inside (hitem.blank (isBlank_indentation (indent + 1)))
      (noParen_itemTokens hitems.1)
    simpa [selectItemsEdits, separated] using hline

theorem Behind.operator (kind : Kind) (text : String) (hsound : isSound ⟨kind, text⟩ = true)
    (hfunc : kind ≠ .func) (hinsert : kind ≠ .insertWord) (hkind : kind ≠ .openParen)
    (h : Inside edits tokens) (hparen : tokens.head? ≠ some openParen) :
    Behind (.add (" " ++ text ++ " ") :: edits) (⟨kind, text⟩ :: tokens) := by
  have hword := Behind.space (.spelled hsound hfunc hinsert (.space h hparen))
    (by simpa using ne_openParen (show (Token.mk kind text).kind ≠ _ from hkind))
  exact hword.of_text (by simp) (by simp)

def isOperand (node : Node) : Bool :=
  isPlainName node || isCall node

theorem inside_operand (hnode : isOperand node = true)
    (hsound : ∀ token ∈ partTokens node, token.isSound = true) (h : Behind edits tokens) :
    Inside (operandEdits node ++ edits) (partTokens node ++ tokens) := by
  cases node with
  | term t =>
    have hname : t.kind = .identifier := by
      simp only [isOperand, isPlainName, isCall, Bool.or_false, Bool.and_eq_true,
        decide_eq_true_eq] at hnode
      exact hnode.1
    have hterm := Inside.term (t := t) (hsound _ (by simp [partTokens])) h
    simpa [operandEdits, partTokens, Node.isIdentifier, hname, Node.text] using hterm
  | call name args asWord aliasName =>
    have hcall : isArg (.call name args asWord aliasName) = true := by
      simpa [isOperand, isPlainName, isCall] using hnode
    exact inside_call hcall hsound h
  | _ => simp [isOperand, isPlainName, isCall] at hnode

theorem noParen_partTokens (hnode : isOperand node = true) :
    (partTokens node ++ tokens).head? ≠ some openParen := by
  cases node with
  | term t => simpa [partTokens] using ne_openParen (tokenKind_ne t.kind).2.2
  | call name args asWord aliasName => simp [partTokens, callTokens, openParen]
  | _ => simp [isOperand, isPlainName, isCall] at hnode

theorem isOperand_of_isCall (h : isCall node = true) : isOperand node = true := by
  simp [isOperand, h]

theorem isOperand_of_comparison {next : Nat} (h : Comparison stage next left right) :
    isOperand left = true ∧ isOperand right = true := by
  cases h <;> simp_all [isOperand]

theorem noParen_comparison (hleft : isOperand left = true) :
    (conditionTokens (.condition [left, .operator op, right]) ++ tokens).head? ≠
      some openParen := by
  rw [conditionTokens, List.flatMap_cons, List.append_assoc]
  exact noParen_partTokens hleft

theorem noParen_joinParts (hparts : areJoinParts last stage parts = true)
    (htokens : tokens.head? ≠ some openParen) :
    (parts.flatMap conditionTokens ++ tokens).head? ≠ some openParen := by
  cases parts with
  | nil => exact htokens
  | cons part rest =>
    rcases areJoinParts_cons hparts with ⟨word, rfl, -⟩ |
      ⟨left, op, right, next, rfl, -, hform, -⟩ | ⟨left, op, right, rfl, -, hleft, -⟩
    · simp [conditionTokens, openParen]
    · rw [List.flatMap_cons, List.append_assoc]
      exact noParen_comparison (isOperand_of_comparison hform).1
    · rw [List.flatMap_cons, List.append_assoc]
      exact noParen_comparison (isOperand_of_isCall hleft)

theorem inside_comparison (hop : upper op ≠ "IN") (hleft : isOperand left = true)
    (hright : isOperand right = true)
    (hsound : ∀ token ∈ conditionTokens (.condition [left, .operator op, right]),
      token.isSound = true) (h : AtLine false edits tokens) :
    Inside ([left, .operator op, right].flatMap operandEdits ++ .endLine :: edits)
      (conditionTokens (.condition [left, .operator op, right]) ++ tokens) := by
  have hlast := inside_operand hright
    (fun token htoken ↦ hsound token (by simp [conditionTokens, htoken])) (.endLine h)
  have hmiddle := Behind.operator .compare (upper op)
    (hsound _ (by simp [conditionTokens, partTokens, hop])) (by decide) (by decide) (by decide) hlast
    (noParen_partTokens hright)
  have hfirst := inside_operand hleft
    (fun token htoken ↦ hsound token (by simp [conditionTokens, htoken])) hmiddle
  simpa [operandEdits, Node.isIdentifier, Node.text, conditionTokens, partTokens, hop] using hfirst

/-- A comparison is written in front of the parts behind it, at the start of a line and behind an AND. -/
theorem spells_comparison (hop : upper op ≠ "IN") (hleft : isOperand left = true)
    (hright : isOperand right = true)
    (hsound : ∀ token ∈ conditionTokens (.condition [left, .operator op, right]),
      token.isSound = true) {rest : List Node}
    (h : AtLine false (joinConditionEdits indent true rest ++ .endLine :: edits)
      (rest.flatMap conditionTokens ++ tokens)) :
    AtLine false
        (joinConditionEdits indent true (.condition [left, .operator op, right] :: rest) ++
          .endLine :: edits)
        ((Node.condition [left, .operator op, right] :: rest).flatMap conditionTokens ++ tokens) ∧
      Inside (joinConditionEdits indent false (.condition [left, .operator op, right] :: rest) ++
          .endLine :: edits)
        ((Node.condition [left, .operator op, right] :: rest).flatMap conditionTokens ++ tokens) := by
  have hinside := inside_comparison hop hleft hright hsound h
  have hline := AtLine.of_inside (hinside.blank (isBlank_indentation (indent + 2)))
    (noParen_comparison hleft)
  rw [List.flatMap_cons]
  exact ⟨by simpa [joinConditionEdits] using hline, by simpa [joinConditionEdits] using hinside⟩

/-- The parts of an ON are written with their tokens, at the start of a line and behind an AND. -/
theorem spells_joinParts (hparts : areJoinParts last stage parts = true)
    (hsound : ∀ token ∈ parts.flatMap conditionTokens, token.isSound = true) (h : AtLine false edits tokens) :
    AtLine false (joinConditionEdits indent true parts ++ .endLine :: edits)
        (parts.flatMap conditionTokens ++ tokens) ∧
      Inside (joinConditionEdits indent false parts ++ .endLine :: edits)
        (parts.flatMap conditionTokens ++ tokens) := by
  induction parts generalizing stage with
  | nil =>
    have hend := Behind.endLine h
    exact ⟨.of_inside hend.toInside hend.noParen, hend.toInside⟩
  | cons part rest ih =>
    have hrest : ∀ token ∈ rest.flatMap conditionTokens, token.isSound = true :=
      fun token htoken ↦ hsound token (List.mem_append_right _ htoken)
    have hpart : ∀ token ∈ conditionTokens part, token.isSound = true :=
      fun token htoken ↦ hsound token (List.mem_append_left _ htoken)
    rcases areJoinParts_cons hparts with ⟨word, rfl, hword, hnext⟩ |
      ⟨left, op, right, next, rfl, hop, hform, hnext⟩ |
      ⟨left, op, right, rfl, hop, hleft, hright, -, -, rfl⟩
    · -- What follows an AND stays on its line.
      have hinside := (ih hnext hrest).2
      have hand := Inside.word ⟨.link, "AND"⟩ (isWhole_of_mem_ownWords (by decide)) (by decide)
        (.space hinside (noParen_joinParts hnext h.noParen))
      have hlink : Inside (.add "AND " :: (joinConditionEdits indent false rest ++
          .endLine :: edits)) _ := hand.of_text (by simp) (by simp)
      have hline := AtLine.of_inside (hlink.blank (isBlank_indentation (indent + 2)))
        (by simp [openParen])
      rw [List.flatMap_cons, conditionTokens, hword]
      exact ⟨by simpa [joinConditionEdits] using hline, by simpa [joinConditionEdits] using hlink⟩
    · obtain ⟨hleft, hright⟩ := isOperand_of_comparison hform
      exact spells_comparison indent hop hleft hright hpart (ih hnext hrest).1
    · have hend := Behind.endLine h
      exact spells_comparison indent hop (isOperand_of_isCall hleft) (isOperand_of_isCall hright)
        hpart (.of_inside hend.toInside hend.noParen)

theorem emit_bind {α : Type} (first : List Edit) (next : Unit → Draft α) :
    (Draft.emit first >>= next) = ⟨first ++ (next ()).edits, (next ()).outcome⟩ :=
  Draft.bind_of_ok rfl next

theorem map_eq {α β : Type} (f : α → β) (first : Draft α) :
    f <$> first = ⟨first.edits, first.outcome.map f⟩ := by
  rw [map_eq_pure_bind]
  obtain ⟨edits, outcome⟩ := first
  cases outcome with
  | error fault => exact Draft.bind_of_error rfl _
  | ok result => simp [Draft.bind_of_ok, Except.map]

theorem inside_named (ht : isNamed t = true) (hsound : ∀ token ∈ namedTokens t, token.isSound = true)
    (h : Behind edits tokens) :
    Inside (.add t.text :: (aliasEdits t.asWord t.aliasName ++ edits)) (namedTokens t ++ tokens) := by
  simp only [isNamed, Bool.and_eq_true] at ht
  exact .term (hsound _ (by simp [namedTokens]))
    (behind_alias ht.2 (fun token htoken ↦ hsound token (by simp [namedTokens, htoken])) h)

theorem noParen_namedTokens : (namedTokens t ++ tokens).head? ≠ some openParen := by
  simpa [namedTokens] using ne_openParen (tokenKind_ne t.kind).2.2

theorem named_term (t : Term) :
    named (.term t) = .emit (.add t.text :: aliasEdits t.asWord t.aliasName) := rfl

theorem fromParts_join (word : String) (t : Term) (rest : List Node) :
    fromParts indent (.join word :: .term t :: rest) =
      ⟨.add (indentation (indent + 1)) :: .add (upper word) :: .add " " :: .add t.text ::
          (aliasEdits t.asWord t.aliasName ++
            ((if startsWithOn rest then [.add " ON"] else []) ++
              .endLine :: (fromParts indent rest).edits)),
        (fromParts indent rest).outcome⟩ := by
  simp [fromParts, named_term, emit_bind]

theorem fromParts_term (ht : t.kind = .identifier) (rest : List Node) :
    fromParts indent (.term t :: rest) =
      ⟨.add (indentation (indent + 1)) :: .add t.text ::
          (aliasEdits t.asWord t.aliasName ++
            ((if startsWithJoin rest then [] else Layout.commaBefore rest ",") ++
              .endLine :: (fromParts indent rest).edits)),
        (fromParts indent rest).outcome⟩ := by
  simp [fromParts, named_term, emit_bind, Node.isIdentifier, ht]

theorem atLine_join (word : String) (ht : isNamed t = true) (hword : isSound ⟨.join, upper word⟩ = true)
    (hsound : ∀ token ∈ namedTokens t, token.isSound = true) (h : Behind edits tokens) :
    AtLine false (.add (indentation indent) :: .add (upper word) :: .add " " :: .add t.text ::
        (aliasEdits t.asWord t.aliasName ++ edits))
      (⟨.join, upper word⟩ :: (namedTokens t ++ tokens)) := by
  have hnamed := inside_named ht hsound h
  have hjoin := Inside.spelled hword (by decide) (by decide)
    (.space hnamed noParen_namedTokens)
  exact .of_inside (hjoin.blank (isBlank_indentation indent)) (by simp [openParen])

theorem startsWithOn_of_fromParts (h : FromParts last parts) : startsWithOn parts = false := by
  cases h <;> rfl

theorem behind_fromParts {rest : List Node} (h : FromParts last rest) (hline : AtLine false edits tokens) :
    Behind ((if startsWithJoin rest then [] else Layout.commaBefore rest ",") ++ .endLine :: edits)
      ((if startsWithTerm rest then [comma] else []) ++ tokens) := by
  cases h with
  | nil => exact .endLine hline
  | on => exact .endLine hline
  | join => exact .endLine hline
  | table => exact (Behind.endLine hline).comma

/-- The parts of a FROM clause are laid out and written with their tokens. -/
theorem atLine_fromParts (hparts : FromParts last parts)
    (hsound : ∀ token ∈ fromTokens parts, token.isSound = true) (h : AtLine false edits tokens) :
    (fromParts indent parts).outcome = .ok () ∧
      AtLine false ((fromParts indent parts).edits ++ edits) (fromTokens parts ++ tokens) := by
  induction hparts with
  | nil => exact ⟨rfl, h⟩
  | @on join word t parts ht hon hparts =>
    simp only [fromTokens, hon, List.append_nil] at hsound ⊢
    have hconditions := (spells_joinParts indent hparts
      (fun token htoken ↦ hsound token (by simp [htoken])) h).1
    have hend := Behind.keyword ⟨.onWord, "ON"⟩ (isWhole_of_mem_ownWords (by decide)) (by decide)
      (by decide) (.endLine hconditions)
    have hon' : Behind (.add " ON" :: .endLine :: (joinConditionEdits indent true parts ++
        .endLine :: edits)) _ := hend.of_text (by simp) (by simp)
    have hjoin := atLine_join (indent + 1) join ht (hsound _ (by simp))
      (fun token htoken ↦ hsound token (by simp [htoken])) hon'
    rw [fromParts_join indent]
    exact ⟨rfl, by simpa [startsWithOn, fromParts, Draft.emit] using hjoin⟩
  | @join word t rest ht _ hrest ih =>
    simp only [fromTokens] at hsound ⊢
    obtain ⟨hok, hline⟩ := ih fun token htoken ↦ hsound token (by simp [htoken])
    have hjoin := atLine_join (indent + 1) word ht
      (hsound _ (by simp)) (fun token htoken ↦ hsound token (by simp [htoken])) (.endLine hline)
    rw [fromParts_join indent, startsWithOn_of_fromParts hrest]
    exact ⟨hok, by simpa using hjoin⟩
  | @table t rest hname ht hrest ih =>
    simp only [fromTokens] at hsound ⊢
    obtain ⟨hok, hline⟩ := ih fun token htoken ↦ hsound token (by simp [htoken])
    have hnamed := inside_named ht (fun token htoken ↦ hsound token (by simp [htoken]))
      (behind_fromParts hrest hline)
    have htable := AtLine.of_inside (hnamed.blank (isBlank_indentation (indent + 1)))
      noParen_namedTokens
    rw [fromParts_term indent hname]
    exact ⟨hok, by simpa using htable⟩

theorem atLine_groupItems (hitems : items.all isPlainColumn = true)
    (hsound : ∀ token ∈ separated plainTokens items, token.isSound = true) (h : AtLine false edits tokens) :
    AtLine false (groupItemsEdits items ++ edits) (separated plainTokens items ++ tokens) := by
  induction items with
  | nil => exact h
  | cons item rest ih =>
    simp only [List.all_cons, Bool.and_eq_true] at hitems
    have hrest := ih hitems.2 fun token htoken ↦ hsound token (by simp [separated, htoken])
    obtain ⟨t, rfl, -⟩ := exists_of_isPlainColumn hitems.1
    have hterm := Inside.term (t := t) (hsound _ (by simp [separated, plainTokens]))
      (behind_commaBefore rest hrest)
    have hline := AtLine.of_inside (hterm.indented "    " (by decide))
      (by simpa using ne_openParen (tokenKind_ne t.kind).2.2)
    simpa [groupItemsEdits, separated, plainTokens, Node.text] using hline

theorem sortToken_kind_ne (word : String) :
    (sortToken word).kind ≠ .func ∧ (sortToken word).kind ≠ .insertWord ∧
      (sortToken word).kind ≠ .openParen := by
  unfold sortToken
  dsimp only
  split <;> decide

theorem inside_orderItem (hsort : ∀ word ∈ t.sort, upper word = "ASC" ∨ upper word = "DESC")
    (hsound : ∀ token ∈ orderTokens (.term t), token.isSound = true) (h : Behind edits tokens) :
    (sortEdits (.term t)).outcome = .ok () ∧
      Inside (.add t.text :: ((sortEdits (.term t)).edits ++ edits))
        (orderTokens (.term t) ++ tokens) := by
  refine ⟨rfl, ?_⟩
  cases hword : t.sort with
  | none =>
    have hterm := Inside.term (t := t) (hsound _ (by simp [orderTokens])) h
    simpa [sortEdits, Draft.emit, orderTokens, hword] using hterm
  | some word =>
    have hne : word ≠ "" := by
      rcases hsort word hword with hword | hword
      · exact ne_empty_of_upper hword (by decide)
      · exact ne_empty_of_upper hword (by decide)
    obtain ⟨hfunc, hinsert, hparen⟩ := sortToken_kind_ne word
    have hlast : Behind (.add (" " ++ upper word) :: edits) (sortToken word :: tokens) :=
      (Behind.keyword _ (isWhole_of_isSound (hsound _ (by simp [orderTokens, hword])) hfunc) hinsert
        hparen h).of_text (by simp [sortToken]) (by simp)
    have hterm := Inside.term (t := t) (hsound _ (by simp [orderTokens])) hlast
    simpa [sortEdits, Draft.emit, orderTokens, hword, hne] using hterm

theorem atLine_orderItems (hitems : items.all isOrderItem = true)
    (hsound : ∀ token ∈ separated orderTokens items, token.isSound = true) (h : AtLine false edits tokens) :
    (orderItems indent items).outcome = .ok () ∧
      AtLine false ((orderItems indent items).edits ++ edits)
        (separated orderTokens items ++ tokens) := by
  induction items with
  | nil => exact ⟨rfl, h⟩
  | cons item rest ih =>
    simp only [List.all_cons, Bool.and_eq_true] at hitems
    obtain ⟨hok, hrest⟩ :=
      ih hitems.2 fun token htoken ↦ hsound token (by simp [separated, htoken])
    obtain ⟨t, rfl, -, -, -, hsort⟩ := exists_of_isOrderItem hitems.1
    obtain ⟨hdone, hitem⟩ := inside_orderItem hsort
      (fun token htoken ↦ hsound token (by simp [separated, htoken]))
      (behind_commaBefore rest hrest)
    have hline := AtLine.of_inside (hitem.indented _ (isBlank_indentation (indent + 1)))
      (by simpa [orderTokens] using ne_openParen (tokenKind_ne t.kind).2.2)
    have hdraft : orderItems indent (.term t :: rest) =
        ⟨.add (indentation (indent + 1) ++ t.text) :: ((sortEdits (.term t)).edits ++
          (Layout.commaBefore rest "," ++ .endLine :: (orderItems indent rest).edits)),
          (orderItems indent rest).outcome⟩ := by
      simp [orderItems, emit_bind, Draft.bind_of_ok hdone, Node.text]
    rw [hdraft]
    exact ⟨hok, by simpa [separated] using hline⟩

theorem inside_termComparison {left right : Term} (hop : upper op ≠ "IN")
    (hsound : ∀ token ∈ conditionTokens (.condition [.term left, .operator op, .term right]),
      token.isSound = true) (h : Behind edits tokens) :
    Inside (.add (left.text ++ " " ++ upper op ++ " " ++ right.text) :: edits)
      (conditionTokens (.condition [.term left, .operator op, .term right]) ++ tokens) := by
  have hright := Inside.term (t := right)
    (hsound _ (by simp [conditionTokens, partTokens])) h
  have hop' := Behind.operator .compare (upper op)
    (hsound _ (by simp [conditionTokens, partTokens, hop])) (by decide) (by decide) (by decide)
    hright (by simpa using ne_openParen (tokenKind_ne right.kind).2.2)
  have hleft := Inside.term (t := left) (hsound _ (by simp [conditionTokens, partTokens])) hop'
  have hall : Inside (.add (left.text ++ " " ++ upper op ++ " " ++ right.text) :: edits) _ :=
    hleft.of_text (by simp) (by simp)
  simpa [conditionTokens, partTokens, hop] using hall

theorem inside_havingCondition (hnode : isHavingCondition node = true)
    (hsound : ∀ token ∈ conditionTokens node, token.isSound = true) (h : AtLine false edits tokens) :
    (havingCondition node).outcome = .ok () ∧
      Inside ((havingCondition node).edits ++ edits) (conditionTokens node ++ tokens) := by
  obtain ⟨left, op, right, rfl, hop, hleft, -, hright, -⟩ := exists_of_isHavingCondition hnode
  have hdraft : havingCondition (.condition [.term left, .operator op, .term right]) =
      .emit [.add (left.text ++ " " ++ upper op ++ " " ++ right.text), .endLine] := by
    simp [havingCondition_condition, havingValues, Node.isIdentifier, Node.isNumber, hleft, hright,
      Node.text]
  rw [hdraft]
  exact ⟨rfl, inside_termComparison hop hsound (.endLine h)⟩

theorem noParen_havingCondition (hnode : isHavingCondition node = true) :
    (conditionTokens node ++ tokens).head? ≠ some openParen := by
  obtain ⟨left, op, right, rfl, -⟩ := exists_of_isHavingCondition hnode
  simpa [conditionTokens, partTokens] using ne_openParen (tokenKind_ne left.kind).2.2

theorem atLine_link (word : String) (hword : isSound ⟨.link, upper word⟩ = true)
    (h : Inside edits tokens) (hparen : tokens.head? ≠ some openParen) :
    AtLine false (.add (indentation indent) :: .add (upper word ++ " ") :: edits)
      (⟨.link, upper word⟩ :: tokens) := by
  have hlink := Inside.spelled hword (by decide) (by decide) (.space h hparen)
  have hpiece : Inside (.add (upper word ++ " ") :: edits) _ := hlink.of_text (by simp) (by simp)
  exact .of_inside (hpiece.blank (isBlank_indentation indent)) (by simp [openParen])

/-- Linked conditions of a HAVING clause behind the indentation of the first. -/
theorem inside_havingConditions {node : Node} {rest : List Node}
    (hnodes : areLinked isHavingCondition (node :: rest) = true)
    (hsound : ∀ token ∈ (node :: rest).flatMap conditionTokens, token.isSound = true)
    (h : AtLine false edits tokens) :
    (havingCondition node).outcome = .ok () ∧ (havingConditions indent rest).outcome = .ok () ∧
      Inside ((havingCondition node).edits ++ ((havingConditions indent rest).edits ++ edits))
        ((node :: rest).flatMap conditionTokens ++ tokens) := by
  obtain ⟨node', rest', heq, hnode, hrest⟩ := areLinked_cases hnodes
  obtain ⟨rfl, rfl⟩ := List.cons.inj heq
  have hfirst : ∀ token ∈ conditionTokens node, token.isSound = true :=
    fun token htoken ↦ hsound token (by simp [htoken])
  rcases hrest with rfl | ⟨word, next, more, rfl, hmore⟩
  · have hend := Behind.endLine h
    obtain ⟨hok, hinside⟩ := inside_havingCondition hnode hfirst
      (.of_inside hend.toInside hend.noParen)
    exact ⟨hok, rfl, by simpa [havingConditions, Draft.emit] using hinside⟩
  · obtain ⟨hnext, hok, hinside⟩ := inside_havingConditions hmore
      (fun token htoken ↦ hsound token
        (List.mem_append_right _ (List.mem_append_right _ htoken))) h
    have hline := atLine_link (indent + 1) word
      (hsound _ (by simp [conditionTokens])) hinside (by
        rw [List.flatMap_cons, List.append_assoc]
        exact noParen_havingCondition (head_of_areLinked hmore))
    obtain ⟨hok', hinside'⟩ := inside_havingCondition hnode hfirst hline
    have hdraft : havingConditions indent (.link word :: next :: more) =
        ⟨.add (indentation (indent + 1)) :: .add (upper word ++ " ") ::
            ((havingCondition next).edits ++ (havingConditions indent more).edits),
          (havingConditions indent more).outcome⟩ := by
      simp [havingConditions, emit_bind, Draft.bind_of_ok hnext]
    rw [hdraft]
    exact ⟨hok', hok, by simpa [conditionTokens] using hinside'⟩
  termination_by rest.length

theorem atLine_havingConditions {nodes : List Node}
    (hnodes : areLinked isHavingCondition nodes = true)
    (hsound : ∀ token ∈ nodes.flatMap conditionTokens, token.isSound = true)
    (h : AtLine false edits tokens) :
    (havingConditions indent nodes).outcome = .ok () ∧
      AtLine false ((havingConditions indent nodes).edits ++ edits)
        (nodes.flatMap conditionTokens ++ tokens) := by
  obtain ⟨node, rest, rfl, hnode, -⟩ := areLinked_cases hnodes
  obtain ⟨hfirst, hok, hinside⟩ := inside_havingConditions indent hnodes hsound h
  have hline := AtLine.of_inside (hinside.blank (isBlank_indentation (indent + 1))) (by
    rw [List.flatMap_cons, List.append_assoc]
    exact noParen_havingCondition hnode)
  have hdraft : havingConditions indent (node :: rest) =
      ⟨.add (indentation (indent + 1)) ::
          ((havingCondition node).edits ++ (havingConditions indent rest).edits),
        (havingConditions indent rest).outcome⟩ := by
    obtain ⟨left, op, right, rfl, -⟩ := exists_of_isHavingCondition hnode
    simp [havingConditions, emit_bind, Draft.bind_of_ok hfirst]
  rw [hdraft]
  exact ⟨hok, by simpa using hline⟩

end SqlLayout.Layout
