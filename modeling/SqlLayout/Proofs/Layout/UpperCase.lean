import SqlLayout.Proofs.Layout.Statements
import SqlLayout.Proofs.Text.UpperCase
import SqlLayout.Proofs.WellBuilt

/-!
# The layout of a tree in upper case

Every keyword is laid out in upper case, so a well-built tree has the lines of its tree in upper case, or
its layout fails in the same way.  Only where a join has no table is the text different, and there the
layout fails.
-/

namespace SqlLayout

namespace Draft

variable {α β γ δ : Type}

theorem write_bind (first : Draft α) (next : α → Draft β) (buffer : LineBuffer) :
    (first >>= next).write buffer =
      first.write buffer >>= fun found ↦ (next found.1).write found.2 := by
  cases houtcome : first.outcome with
  | error fault =>
    rw [bind_of_error houtcome]
    simp only [write, houtcome]
    cases buffer.steps? first.edits <;> rfl
  | ok result =>
    rw [bind_of_ok houtcome]
    simp only [write, houtcome, LineBuffer.steps?_append]
    cases buffer.steps? first.edits <;> rfl

/-- Two drafts that leave the same buffer behind, or fail in the same way. -/
def Alike (first : Draft α) (second : Draft β) : Prop :=
  ∀ buffer, (first.write buffer).map Prod.snd = (second.write buffer).map Prod.snd

theorem alike_pure (a : α) (b : β) : Alike (pure a : Draft α) (pure b : Draft β) := fun _ ↦ rfl

@[simp] theorem Alike.refl (draft : Draft α) : Alike draft draft := fun _ ↦ rfl

theorem Alike.symm {first : Draft α} {second : Draft β} (h : Alike first second) : Alike second first :=
  fun buffer ↦ (h buffer).symm

theorem Alike.trans {first : Draft α} {second : Draft β} {third : Draft γ} (h : Alike first second)
    (hthird : Alike second third) : Alike first third :=
  fun buffer ↦ (h buffer).trans (hthird buffer)

theorem alike_emit {xs ys : List Edit}
    (h : ∀ buffer : LineBuffer, buffer.steps? xs = buffer.steps? ys) : Alike (emit xs) (emit ys) := by
  intro buffer
  simp only [write, emit, h]

theorem Alike.bind {first : Draft α} {second : Draft β} {f : α → Draft γ} {g : β → Draft δ}
    (h : Alike first second) (hnext : ∀ a b, Alike (f a) (g b)) :
    Alike (first >>= f) (second >>= g) := by
  intro buffer
  have hbuffer := h buffer
  rw [write_bind, write_bind]
  cases hfirst : first.write buffer with
  | error fault =>
    cases hsecond : second.write buffer with
    | error other =>
      rw [hfirst, hsecond] at hbuffer
      cases hbuffer
      rfl
    | ok found =>
      rw [hfirst, hsecond] at hbuffer
      cases hbuffer
  | ok found =>
    cases hsecond : second.write buffer with
    | error other =>
      rw [hfirst, hsecond] at hbuffer
      cases hbuffer
    | ok other =>
      rw [hfirst, hsecond] at hbuffer
      obtain ⟨a, written⟩ := found
      obtain ⟨b, _⟩ := other
      cases hbuffer
      exact hnext a b written

theorem map_snd_write_map (f : α → β) (draft : Draft α) (buffer : LineBuffer) :
    ((f <$> draft).write buffer).map Prod.snd = (draft.write buffer).map Prod.snd := by
  rw [Layout.map_eq]
  simp only [write]
  cases buffer.steps? draft.edits with
  | none => rfl
  | some written => cases draft.outcome <;> rfl

@[simp] theorem alike_map_iff {f : α → γ} {g : β → δ} {first : Draft α} {second : Draft β} :
    Alike (f <$> first) (g <$> second) ↔ Alike first second := by
  simp only [Alike, map_snd_write_map]

end Draft

namespace Layout

open Text Read Draft

variable {node : Node} {items nodes : List Node}

@[simp] theorem isPresent_map_upper (word : Option String) :
    isPresent (word.map upper) = isPresent word := by
  cases word with
  | none => rfl
  | some word => exact Bool.eq_iff_iff.mpr (by simp [isPresent])

@[simp] theorem isEmpty_upperCasedEach (nodes : List Node) :
    (Node.upperCasedEach nodes).isEmpty = nodes.isEmpty := by
  cases nodes <;> rfl

@[simp] theorem commaBefore_upperCasedEach (rest : List Node) (text : String) :
    commaBefore (Node.upperCasedEach rest) text = commaBefore rest text := by
  simp [commaBefore]

@[simp] theorem aliasEdits_map_upper (asWord aliasName : Option String) :
    aliasEdits (asWord.map upper) aliasName = aliasEdits asWord aliasName := by
  simp [aliasEdits]

mutual

theorem callEdits_upperCased (node : Node) : callEdits node.upperCased = callEdits node := by
  cases node with
  | call name args asWord aliasName =>
    simp [Node.upperCased, callEdits, callAliasEdits, argEdits_upperCasedEach args]
  | insertClause word table rows columns query =>
    cases rows <;> simp [Node.upperCased, callEdits]
  | _ => simp [Node.upperCased, callEdits]

theorem argEdits_upperCasedEach (args : List Node) :
    argEdits (Node.upperCasedEach args) = argEdits args := by
  cases args with
  | nil => rfl
  | cons arg rest =>
    simp [Node.upperCasedEach, argEdits, callEdits_upperCased arg, argEdits_upperCasedEach rest]

end

theorem text_upperCased_of_isTerm (h : node.isTerm = true) : node.upperCased.text = node.text := by
  cases node with
  | term t => rfl
  | _ => cases h

theorem text_upperCased_of_isBranch {branch : Node} (h : branch.isBranch = true) :
    branch.upperCased.text = branch.text := by
  cases branch with
  | whenThen whenWord tested thenWord result => rfl
  | otherwise elseWord result => rfl
  | _ => cases h

theorem branchEdits_upperCasedEach (indent : Int) {branches : List Node}
    (h : ∀ branch ∈ branches, branch.isBranch = true) :
    branchEdits indent (Node.upperCasedEach branches) = branchEdits indent branches := by
  fun_induction branchEdits indent branches with
  | case1 => rfl
  | case2 branch =>
    have hbranch := text_upperCased_of_isBranch (h branch (List.mem_cons_self ..))
    simp [Node.upperCasedEach, branchEdits, hbranch]
  | case3 branch rest hne ih =>
    obtain ⟨hbranch, hrest⟩ := List.forall_mem_cons.mp h
    obtain ⟨next, more, rfl⟩ := List.exists_cons_of_ne_nil hne
    have hmore := ih hrest
    simp only [Node.upperCasedEach] at hmore
    simp [Node.upperCasedEach, branchEdits, text_upperCased_of_isBranch hbranch, hmore]

theorem selectItemEdits_upperCased (indent : Int) {item : Node} (h : WellBuilt item) :
    selectItemEdits indent item.upperCased = selectItemEdits indent item := by
  cases item with
  | term t => simp [Node.upperCased, selectItemEdits]
  | call name args asWord aliasName => exact callEdits_upperCased (.call name args asWord aliasName)
  | caseOf word branches =>
    have hbranches := branchEdits_upperCasedEach indent (wellBuilt_iff.mp h).1
    simp [Node.upperCased, selectItemEdits, caseEdits, hbranches]
  | insertClause word table rows columns query =>
    cases rows <;> simp [Node.upperCased, selectItemEdits]
  | _ => simp [Node.upperCased, selectItemEdits]

theorem selectItemsEdits_upperCasedEach (indent : Int) (h : ∀ item ∈ items, WellBuilt item) :
    selectItemsEdits indent (Node.upperCasedEach items) = selectItemsEdits indent items := by
  induction items with
  | nil => rfl
  | cons item rest ih =>
    obtain ⟨hitem, hrest⟩ := List.forall_mem_cons.mp h
    simp [Node.upperCasedEach, selectItemsEdits, selectItemEdits_upperCased indent hitem, ih hrest]

theorem flatMap_operandEdits_upperCased {left right : Node} {op : String}
    (hleft : left.isOperand = true) (hright : right.isOperand = true) :
    (Node.upperCasedEach [left, .operator op, right]).flatMap operandEdits =
      [left, .operator op, right].flatMap operandEdits := by
  have hoperand : ∀ {node : Node}, node.isOperand = true →
      operandEdits node.upperCased = operandEdits node := fun {node} h ↦ by
    cases node with
    | term t => rfl
    | call name args asWord aliasName => exact callEdits_upperCased (.call name args asWord aliasName)
    | _ => cases h
  have hop : operandEdits (.operator (upper op)) = operandEdits (.operator op) := by
    simp [operandEdits, Node.isIdentifier, Node.text]
  simp only [Node.upperCasedEach, Node.upperCased, List.flatMap_cons, List.flatMap_nil,
    hoperand hleft, hoperand hright, hop]

theorem joinConditionEdits_upperCasedEach (indent : Int) (newLine : Bool) {parts : List Node}
    (h : ∀ part ∈ parts, IsJoinPart part) :
    joinConditionEdits indent newLine (Node.upperCasedEach parts) =
      joinConditionEdits indent newLine parts := by
  induction parts generalizing newLine with
  | nil => rfl
  | cons part rest ih =>
    obtain ⟨hpart, hrest⟩ := List.forall_mem_cons.mp h
    cases hpart with
    | link word => simp [Node.upperCasedEach, Node.upperCased, joinConditionEdits, ih false hrest]
    | comparison op hleft hright =>
      rw [Node.upperCasedEach, Node.upperCased, joinConditionEdits, joinConditionEdits]
      simp only [flatMap_operandEdits_upperCased hleft hright, ih true hrest]

@[simp] theorem startsWithOn_upperCasedEach (parts : List Node) :
    startsWithOn (Node.upperCasedEach parts) = startsWithOn parts := by
  cases parts with
  | nil => rfl
  | cons part rest =>
    cases part with
    | insertClause word table rows columns query =>
      cases rows <;> simp [Node.upperCasedEach, Node.upperCased, startsWithOn]
    | _ => simp [Node.upperCasedEach, Node.upperCased, startsWithOn]

@[simp] theorem startsWithJoin_upperCasedEach (parts : List Node) :
    startsWithJoin (Node.upperCasedEach parts) = startsWithJoin parts := by
  cases parts with
  | nil => rfl
  | cons part rest =>
    cases part with
    | insertClause word table rows columns query =>
      cases rows <;> simp [Node.upperCasedEach, Node.upperCased, startsWithJoin]
    | _ => simp [Node.upperCasedEach, Node.upperCased, startsWithJoin]

theorem alike_emit_fail (text other : String) (fault : Fault) :
    Alike (emit [.add text] >>= fun _ ↦ (fail fault : Draft Unit))
      (emit [.add other] >>= fun _ ↦ (fail fault : Draft Unit)) := fun _ ↦ rfl

/-- What stands behind a join leaves the same text, or its layout fails. -/
theorem alike_named {part : Node} (h : part.isFromPart = true) :
    Alike (named part.upperCased) (named part) := by
  cases part with
  | term t =>
    simp only [Node.upperCased, named, aliasEdits_map_upper]
    exact .refl _
  | join word => exact alike_emit_fail _ _ _
  | onClause word parts => exact alike_emit_fail _ _ _
  | _ => cases h

theorem alike_fromParts (indent : Int) {parts : List Node}
    (h : ∀ part ∈ parts, part.isFromPart = true ∧ WellBuilt part) :
    Alike (fromParts indent (Node.upperCasedEach parts)) (fromParts indent parts) := by
  fun_induction fromParts indent parts with
  | case1 => exact .refl _
  | case2 word =>
    simp only [Node.upperCasedEach, Node.upperCased, fromParts, upper_upper]
    exact .refl _
  | case3 word table rest ih =>
    obtain ⟨-, htable, hrest⟩ := by simpa only [List.forall_mem_cons] using h
    simp only [Node.upperCasedEach, Node.upperCased, fromParts, upper_upper,
      startsWithOn_upperCasedEach]
    exact (Alike.refl _).bind fun _ _ ↦ (alike_named htable.1).bind fun _ _ ↦
      (Alike.refl _).bind fun _ _ ↦ ih hrest
  | case4 word parts =>
    have hparts := (wellBuilt_iff.mp (h _ (List.mem_cons_self ..)).2).1
    simp only [Node.upperCasedEach, Node.upperCased, fromParts,
      joinConditionEdits_upperCasedEach indent true hparts]
    exact .refl _
  | case5 word parts next rest ih =>
    obtain ⟨hon, -, hrest⟩ := by simpa only [List.forall_mem_cons] using h
    simp only [Node.upperCasedEach, Node.upperCased, fromParts,
      joinConditionEdits_upperCasedEach indent true (wellBuilt_iff.mp hon.2).1]
    exact (Alike.refl _).bind fun _ _ ↦ ih hrest
  | case6 part rest _ _ _ _ _ hname ih =>
    obtain ⟨hpart, hrest⟩ := List.forall_mem_cons.mp h
    have htable := alike_named hpart.1
    cases part with
    | term t =>
      have hupper : (Node.term t).upperCased.isIdentifier = true := hname
      simp only [Node.upperCasedEach, Node.upperCased, fromParts] at hupper htable ⊢
      rw [if_pos hupper, startsWithJoin_upperCasedEach, commaBefore_upperCasedEach]
      exact (Alike.refl _).bind fun _ _ ↦ htable.bind fun _ _ ↦ (Alike.refl _).bind fun _ _ ↦
        (Alike.refl _).bind fun _ _ ↦ ih hrest
    | _ => cases hname
  | case7 part rest hjoin hjoins hon hons _ hname ih =>
    obtain ⟨hpart, hrest⟩ := List.forall_mem_cons.mp h
    cases part with
    | term t =>
      have hupper : ¬ (Node.term t).upperCased.isIdentifier = true := hname
      simp only [Node.upperCasedEach, Node.upperCased, fromParts] at hupper ⊢
      rw [if_neg hupper]
      exact (Alike.refl _).bind fun _ _ ↦ ih hrest
    | join word =>
      cases rest with
      | nil => exact (hjoin _ rfl rfl).elim
      | cons table rest => exact (hjoins _ _ _ rfl rfl).elim
    | onClause word parts =>
      cases rest with
      | nil => exact (hon _ _ rfl rfl).elim
      | cons next rest => exact (hons _ _ _ _ rfl rfl).elim
    | _ => cases hpart.1

theorem groupItemsEdits_upperCasedEach (h : ∀ item ∈ items, item.isTerm = true) :
    groupItemsEdits (Node.upperCasedEach items) = groupItemsEdits items := by
  induction items with
  | nil => rfl
  | cons item rest ih =>
    obtain ⟨hitem, hrest⟩ := List.forall_mem_cons.mp h
    simp only [Node.upperCasedEach, groupItemsEdits, commaBefore_upperCasedEach, ih hrest,
      text_upperCased_of_isTerm hitem]

theorem orderItems_upperCasedEach (indent : Int) (h : ∀ item ∈ items, item.isTerm = true) :
    orderItems indent (Node.upperCasedEach items) = orderItems indent items := by
  induction items with
  | nil => rfl
  | cons item rest ih =>
    obtain ⟨hitem, hrest⟩ := List.forall_mem_cons.mp h
    have hsort : sortEdits item.upperCased = sortEdits item := by
      cases item with
      | term t => cases hsort : t.sort <;> simp [Node.upperCased, sortEdits, hsort]
      | _ => cases hitem
    simp only [Node.upperCasedEach, orderItems, commaBefore_upperCasedEach, ih hrest, hsort,
      text_upperCased_of_isTerm hitem]

theorem havingCondition_upperCased (h : IsCondition node) :
    havingCondition node.upperCased = havingCondition node := by
  cases h with
  | plain h =>
    cases h with
    | comparison left op right =>
      simp [Node.upperCased, Node.upperCasedEach, havingCondition_condition, havingValues, Node.isIdentifier,
        Node.isNumber, Node.text]
    | _ => rfl
  | negatedCall word name args asWord aliasName op hright =>
    have hcall := callEdits_upperCased (.call name args asWord aliasName)
    simp only [Node.upperCased] at hcall
    cases hright with
    | term t =>
      simp [Node.upperCased, Node.upperCasedEach, havingCondition_condition, havingValues, Node.isNumber, Node.text, hcall]
    | not word => simp [Node.upperCased, Node.upperCasedEach, havingCondition_condition, havingValues, Node.isNumber]
  | membership op items hleft =>
    simp [Node.upperCased, Node.upperCasedEach, havingCondition_condition, havingValues, Node.isNumber]

theorem havingConditions_upperCasedEach (indent : Int) (h : Alternate IsCondition nodes) :
    havingConditions indent (Node.upperCasedEach nodes) = havingConditions indent nodes := by
  induction h with
  | nil => rfl
  | last word => simp only [Node.upperCasedEach, Node.upperCased, havingConditions, upper_upper]
  | link word hnode _ ih =>
    simp only [Node.upperCasedEach, Node.upperCased, havingConditions, upper_upper,
      havingCondition_upperCased hnode, ih]
  | node hnode _ ih =>
    have hfirst := havingCondition_upperCased hnode
    simp only [Node.upperCasedEach, Node.upperCased, havingConditions, ih] at hfirst ⊢
    rw [hfirst]

/-! ### Statements -/

theorem groupEdits_upperCasedEach (indent : Int) (h : ∀ item ∈ items, item.isTerm = true) :
    groupEdits indent (Node.upperCasedEach items) = groupEdits indent items := by
  induction items with
  | nil => rfl
  | cons item rest ih =>
    obtain ⟨hitem, hrest⟩ := List.forall_mem_cons.mp h
    simp only [Node.upperCasedEach, groupEdits, isEmpty_upperCasedEach, ih hrest,
      text_upperCased_of_isTerm hitem]

theorem alike_condition (indent : Int) (h : IsCondition node) (hbuilt : WellBuilt node) :
    Alike (condition indent node.upperCased) (condition indent node) := by
  cases h with
  | plain h =>
    cases h <;> simp [Node.upperCased, Node.upperCasedEach, condition, conditionValues, notEdits,
      detachNot, plainConditionEdits]
  | negatedCall word name args asWord aliasName op hright =>
    cases hright <;> simp [Node.upperCased, Node.upperCasedEach, condition, conditionValues, notEdits,
      detachNot, plainConditionEdits]
  | membership op items hleft =>
    have hgroup := (wellBuilt_iff.mp hbuilt).2 (.group items) (by simp [Node.children])
    have hitems := groupEdits_upperCasedEach indent (wellBuilt_iff.mp hgroup).1
    cases hleft <;> simp [Node.upperCased, Node.upperCasedEach, condition, conditionValues, notEdits,
      detachNot, plainConditionEdits, hitems]

theorem alike_conditions (indent : Int) (h : Alternate (fun node ↦ IsCondition node ∧ WellBuilt node) nodes) :
    Alike (conditions indent (Node.upperCasedEach nodes)) (conditions indent nodes) := by
  induction h with
  | nil => exact fun _ ↦ rfl
  | last word =>
    simp only [Node.upperCasedEach, Node.upperCased, conditions, upper_upper]
    exact .refl _
  | link word hnode _ ih =>
    simp only [Node.upperCasedEach, Node.upperCased, conditions, upper_upper]
    exact (Alike.refl _).bind fun _ _ ↦ (alike_condition indent hnode.1 hnode.2).bind fun _ _ ↦
      ih.bind fun _ _ ↦ alike_pure _ _
  | node hnode _ ih =>
    have hfirst := alike_condition indent hnode.1 hnode.2
    simp only [Node.upperCasedEach, Node.upperCased, conditions] at hfirst ⊢
    exact (Alike.refl _).bind fun _ _ ↦ hfirst.bind fun _ _ ↦ ih.bind fun _ _ ↦ alike_pure _ _

theorem map_text_upperCasedEach {columns : List Node} (h : ∀ column ∈ columns, column.isTerm = true) :
    (Node.upperCasedEach columns).map Node.text = columns.map Node.text := by
  induction columns with
  | nil => rfl
  | cons column rest ih =>
    obtain ⟨hcolumn, hrest⟩ := List.forall_mem_cons.mp h
    simp only [Node.upperCasedEach, List.map_cons, ih hrest, text_upperCased_of_isTerm hcolumn]

theorem rowEdits_upperCasedRows {rows : List (List Node)}
    (h : ∀ row ∈ rows, ∀ value ∈ row, value.isTerm = true) :
    rowEdits (Node.upperCasedRows rows) = rowEdits rows := by
  induction rows with
  | nil => rfl
  | cons row rest ih =>
    obtain ⟨hrow, hrest⟩ := List.forall_mem_cons.mp h
    have hempty : (Node.upperCasedRows rest).isEmpty = rest.isEmpty := by cases rest <;> rfl
    simp only [Node.upperCasedRows, rowEdits, map_text_upperCasedEach hrow, hempty, ih hrest]

@[simp] theorem isSemicolon_upperCased (node : Node) :
    isSemicolon node.upperCased = isSemicolon node := by
  cases node with
  | insertClause word table rows columns query =>
    cases rows <;> simp [Node.upperCased, isSemicolon]
  | _ => simp [Node.upperCased, isSemicolon]


mutual

theorem alike_statement (indent : Int) {node : Node} (hnode : node.isStatement = true)
    (h : WellBuilt node) :
    Alike (statement indent node.upperCased) (statement indent node) := by
  obtain ⟨hfits, hchildren⟩ := wellBuilt_iff.mp h
  cases node with
  | call name args asWord aliasName => exact fun _ ↦ rfl
  | selectClause word items =>
    have hitems : selectItemsEdits indent (Node.upperCasedEach items) =
        selectItemsEdits indent items := selectItemsEdits_upperCasedEach indent hchildren
    simp [Node.upperCased, statement, selectEdits, hitems]
  | fromClause word parts =>
    have hparts := alike_fromParts indent fun part hpart ↦ ⟨hfits part hpart, hchildren part hpart⟩
    simp only [Node.upperCased, statement, fromClause]
    exact ((Alike.refl _).bind fun _ _ ↦ hparts).bind fun _ _ ↦ alike_pure _ _
  | whereClause word nodes =>
    have hnodes := alternate_of_areLinked hfits fun node hmem hnode ↦ And.intro hnode (hchildren node hmem)
    simp only [Node.upperCased, statement]
    exact (Alike.refl _).bind fun _ _ ↦ (alike_conditions indent hnodes.1).bind fun _ _ ↦ alike_pure _ _
  | groupByClause items rollup =>
    simp [Node.upperCased, statement, groupByEdits, groupItemsEdits_upperCasedEach hfits]
  | havingClause word nodes =>
    have hnodes := alternate_of_areLinked hfits fun _ _ hnode ↦ hnode
    simp only [Node.upperCased, statement, having, havingConditions_upperCasedEach indent hnodes.1]
    exact (Alike.refl _).bind fun _ _ ↦ alike_pure _ _
  | orderByClause items =>
    simp only [Node.upperCased, statement, orderBy, orderItems_upperCasedEach indent hfits]
    exact (Alike.refl _).bind fun _ _ ↦ alike_pure _ _
  | limitClause count offset offsetWord =>
    simp [Node.upperCased, statement, limitText]
  | insertClause word table rows columns query =>
    obtain ⟨hrows, hcolumns, hquery⟩ := hfits
    have htable : tableEdits table (Node.upperCasedEach columns) = tableEdits table columns := by
      simp only [tableEdits, isEmpty_upperCasedEach, map_text_upperCasedEach hcolumns]
    cases rows with
    | some values =>
      have hvalues := rowEdits_upperCasedRows (hrows values rfl)
      simp [Node.upperCased, statement, htable, hvalues]
    | none =>
      have hothers := alike_statements indent fun child hchild ↦
        ⟨hquery child hchild, hchildren child (List.mem_append_right _ hchild)⟩
      simp only [Node.upperCased, statement, htable, isEmpty_upperCasedEach]
      refine (Alike.refl _).bind fun _ _ ↦ ?_
      split
      · exact fun _ ↦ rfl
      · exact hothers.bind fun _ _ ↦ alike_pure _ _
  | semicolon text => exact .refl _
  | _ => cases hnode

theorem alike_statements (indent : Int) {nodes : List Node}
    (h : ∀ node ∈ nodes, node.isStatement = true ∧ WellBuilt node) :
    Alike (statements indent (Node.upperCasedEach nodes)) (statements indent nodes) := by
  cases nodes with
  | nil => exact .refl _
  | cons node rest =>
    obtain ⟨⟨hstatement, hbuilt⟩, hrest⟩ := List.forall_mem_cons.mp h
    have hnode := alike_statement indent hstatement hbuilt
    have hothers := alike_statements indent hrest
    simp only [Node.upperCasedEach, statements, isSemicolon_upperCased, isEmpty_upperCasedEach]
    exact hnode.bind fun _ _ ↦ (Alike.refl _).bind fun _ _ ↦ hothers.bind fun _ _ ↦ alike_pure _ _

end

theorem lines_style_of_alike (indent : Int) {others : List Node}
    (h : Alike (statements indent nodes) (statements indent others)) :
    (style indent nodes).map Styled.lines = (style indent others).map Styled.lines := by
  have hlines : ∀ nodes, (style indent nodes).map Styled.lines =
      (((statements indent nodes).write {}).map Prod.snd).map LineBuffer.lines := by
    intro nodes
    unfold style
    cases (statements indent nodes).write {} <;> rfl
  rw [hlines, hlines, h]

/-- A well-built tree has the lines of its tree in upper case. -/
theorem lines_style_of_wellBuilt (indent : Int)
    (h : ∀ node ∈ nodes, node.isStatement = true ∧ WellBuilt node) :
    (style indent (Node.upperCasedEach nodes)).map Styled.lines =
      (style indent nodes).map Styled.lines :=
  lines_style_of_alike indent (alike_statements indent h)

/-- A regular tree has the lines of its tree in upper case. -/
theorem lines_style_upperCasedEach (indent : Int) (h : Regular.areStatements nodes = true) :
    (style indent (Node.upperCasedEach nodes)).map Styled.lines =
      (style indent nodes).map Styled.lines :=
  lines_style_of_wellBuilt indent (wellBuilt_of_areStatements h)

end Layout

end SqlLayout
