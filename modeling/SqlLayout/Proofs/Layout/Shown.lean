import SqlLayout.Proofs.Layout.UpperCase

/-!
# What a layout shows of a tree

Some parts of a tree never reach its lines: the alias of a call without its AS, the link between two
conditions of a join, the operator in front of a list of values, a number among the tables, the part after an
ON.  A tree has the same lines as the tree that has in these places what is written there.
-/

namespace SqlLayout

open Text Layout

namespace Node

mutual

def shownCall : Node → Node
  | call name args asWord aliasName =>
    if isPresent asWord && isPresent aliasName then call name (shownCalls args) asWord aliasName
    else call name (shownCalls args) none none
  | node => node

def shownCalls : List Node → List Node
  | [] => []
  | node :: nodes => shownCall node :: shownCalls nodes

end

def shownJoinPart : Node → Node
  | link _ => link "AND"
  | condition parts => condition (shownCalls parts)
  | node => node

/-- Whether a comma stands between a table and these parts. -/
def hasComma (rest : List Node) : Bool :=
  !startsWithJoin rest && !rest.isEmpty

/-- The parts of a FROM clause.  A join takes the next part on its line, and the part after an ON is
passed over.  A number in the place of a table is left out, unless the part in front of it would be written
in another way. -/
def shownFromParts : List Node → List Node
  | [] => []
  | join word :: table :: rest =>
    let shown := shownFromParts rest
    join word :: table :: if startsWithOn shown = startsWithOn rest then shown else rest
  | onClause word parts :: part :: rest =>
    let shown := shownFromParts rest
    onClause word (parts.map shownJoinPart) :: if shown.isEmpty then [] else part :: shown
  | [onClause word parts] => [onClause word (parts.map shownJoinPart)]
  | part :: rest =>
    let shown := shownFromParts rest
    if part.isNumber then shown
    else part :: if hasComma shown = hasComma rest then shown else rest

/-- A condition of a WHERE clause.  A list of values is written behind an IN, and the bounds of a
BETWEEN around an AND. -/
def shownCondition : Node → Node
  | condition [term left, between word, term low, link _, term high] =>
    condition [term left, between word, term low, link "AND", term high]
  | condition [term left, operator _, group items] =>
    condition [term left, operator "IN", group items]
  | node => node

mutual

def shown : Node → Node
  | selectClause word items => selectClause word (shownCalls items)
  | fromClause word parts => fromClause word (shownFromParts parts)
  | whereClause word conditions => whereClause word (conditions.map shownCondition)
  | groupByClause items rollup =>
    groupByClause items (if isPresent rollup then some "WITH ROLLUP" else none)
  | insertClause _ table none columns query =>
    insertClause "INSERT INTO" table none columns (shownEach query)
  | node => node

def shownEach : List Node → List Node
  | [] => []
  | node :: nodes => shown node :: shownEach nodes

end

end Node

namespace Layout

open Draft

theorem isEmpty_shownCalls (nodes : List Node) : (Node.shownCalls nodes).isEmpty = nodes.isEmpty := by
  cases nodes <;> rfl

mutual

theorem callEdits_shownCall (node : Node) : callEdits node.shownCall = callEdits node := by
  cases node with
  | call name args asWord aliasName =>
    have hargs := argEdits_shownCalls args
    rw [Node.shownCall]
    split
    · simp only [callEdits, hargs]
    · rename_i halias
      have hedits : callAliasEdits asWord aliasName = [] := by
        cases aliasName with
        | none => rfl
        | some name => simpa [callAliasEdits, isPresent] using halias
      simp only [callEdits, hargs, hedits]
      rfl
  | _ => rfl

theorem argEdits_shownCalls (args : List Node) : argEdits (Node.shownCalls args) = argEdits args := by
  cases args with
  | nil => rfl
  | cons arg rest =>
    simp only [Node.shownCalls, argEdits, callEdits_shownCall arg, argEdits_shownCalls rest,
      commaBefore, isEmpty_shownCalls]

end

theorem exists_shownCall (name : String) (args : List Node) (asWord aliasName : Option String) :
    ∃ args' asWord' aliasName',
      (Node.call name args asWord aliasName).shownCall = .call name args' asWord' aliasName' ∧
        callEdits (.call name args' asWord' aliasName') = callEdits (.call name args asWord aliasName) := by
  rw [← callEdits_shownCall (.call name args asWord aliasName), Node.shownCall]
  split
  · exact ⟨_, _, _, rfl, rfl⟩
  · exact ⟨_, _, _, rfl, rfl⟩

theorem selectItemEdits_shownCall (indent : Int) (item : Node) :
    selectItemEdits indent item.shownCall = selectItemEdits indent item := by
  cases item with
  | call name args asWord aliasName =>
    obtain ⟨args', asWord', aliasName', hshown, hcall⟩ := exists_shownCall name args asWord aliasName
    rw [hshown]
    exact hcall
  | _ => rfl

theorem selectItemsEdits_shownCalls (indent : Int) (items : List Node) :
    selectItemsEdits indent (Node.shownCalls items) = selectItemsEdits indent items := by
  induction items with
  | nil => rfl
  | cons item rest ih =>
    simp only [Node.shownCalls, selectItemsEdits, selectItemEdits_shownCall, commaBefore,
      isEmpty_shownCalls, ih]

theorem flatMap_operandEdits_shownCalls (operands : List Node) :
    (Node.shownCalls operands).flatMap operandEdits = operands.flatMap operandEdits := by
  have hoperand : ∀ node : Node, operandEdits node.shownCall = operandEdits node := fun node ↦ by
    cases node with
    | call name args asWord aliasName =>
      obtain ⟨args', asWord', aliasName', hshown, hcall⟩ := exists_shownCall name args asWord aliasName
      rw [hshown]
      exact hcall
    | _ => rfl
  induction operands with
  | nil => rfl
  | cons operand rest ih => simp only [Node.shownCalls, List.flatMap_cons, hoperand, ih]

theorem joinConditionEdits_shown (indent : Int) (newLine : Bool) (parts : List Node) :
    joinConditionEdits indent newLine (parts.map Node.shownJoinPart) =
      joinConditionEdits indent newLine parts := by
  induction parts generalizing newLine with
  | nil => rfl
  | cons part rest ih =>
    cases part <;>
      simp only [List.map_cons, Node.shownJoinPart, joinConditionEdits, ih,
        flatMap_operandEdits_shownCalls]

/-- Behind the end of a line another end of a line changes nothing. -/
theorem alike_endLine_endLine : Alike (emit [.endLine, .endLine]) (emit [.endLine]) :=
  alike_emit fun buffer ↦ by simp [LineBuffer.steps?, LineBuffer.step?, LineBuffer.endLine]

theorem alike_addLine_endLine (text : String) :
    Alike (emit [.addLine text, .endLine]) (emit [.addLine text]) :=
  alike_emit fun buffer ↦ by simp [LineBuffer.steps?, LineBuffer.step?, LineBuffer.endLine]

theorem emit_append_bind {α : Type} (front back : List Edit) (draft : Draft α) :
    (emit (front ++ back) >>= fun _ ↦ draft) = emit front >>= fun _ ↦ emit back >>= fun _ ↦ draft := by
  simp [emit_bind]

theorem alike_endLine_bind (draft : Draft Unit) :
    Alike (emit [.endLine] >>= fun _ ↦ draft)
      (emit [.endLine] >>= fun _ ↦ emit [.endLine] >>= fun _ ↦ draft) := by
  rw [← emit_append_bind]
  exact alike_endLine_endLine.symm.bind fun _ _ ↦ .refl _

/-- What is written of a table depends on the parts behind it only by its comma. -/
theorem exists_fromParts_cons (indent : Int) (comma : Bool) {part : Node}
    (hjoin : ∀ word, part ≠ .join word) (hon : ∀ word parts, part ≠ .onClause word parts) :
    ∃ table : Draft Unit, ∀ rest : List Node, Node.hasComma rest = comma →
      fromParts indent (part :: rest) =
        table >>= fun _ ↦ emit [.endLine] >>= fun _ ↦ fromParts indent rest := by
  have hcommas : ∀ rest : List Node,
      (if startsWithJoin rest then [] else commaBefore rest ",") =
        if Node.hasComma rest then [Edit.add ","] else [] := by
    intro rest
    cases hstart : startsWithJoin rest <;> cases rest <;> simp [Node.hasComma, commaBefore, hstart]
  refine ⟨if part.isIdentifier then do
      emit [.add (indentation (indent + 1))]
      named part
      emit (if comma then [.add ","] else [])
    else pure (), fun rest hcomma ↦ ?_⟩
  rw [fromParts, hcommas, hcomma]
  · cases part.isIdentifier <;> simp
  · exact fun word hpart _ ↦ hjoin word hpart
  · exact fun word _ _ hpart ↦ (hjoin word hpart).elim
  · exact fun word parts hpart _ ↦ hon word parts hpart
  · exact fun word parts _ _ hpart ↦ (hon word parts hpart).elim

/-- At the start of a line the parts of a FROM clause are laid out like those that are shown. -/
theorem alike_fromParts_shown (indent : Int) (parts : List Node) :
    Alike (emit [.endLine] >>= fun _ ↦ fromParts indent (Node.shownFromParts parts))
      (emit [.endLine] >>= fun _ ↦ fromParts indent parts) := by
  fun_induction Node.shownFromParts parts with
  | case1 => exact .refl _
  | case2 word table rest shown ih =>
    split
    · rename_i hon
      simp only [fromParts, hon, emit_append_bind]
      exact (Alike.refl _).bind fun _ _ ↦ (Alike.refl _).bind fun _ _ ↦ (Alike.refl _).bind fun _ _ ↦
        (Alike.refl _).bind fun _ _ ↦ ih
    · exact .refl _
  | case3 word parts part rest shown ih =>
    refine (Alike.refl _).bind fun _ _ ↦ ?_
    split
    · -- Nothing behind the part that is passed over is shown.
      rename_i hempty
      have hnil : shown = [] := List.isEmpty_iff.mp hempty
      rw [show Node.shownFromParts rest = [] from hnil] at ih
      have hon := (Alike.refl (emit (joinConditionEdits indent true parts))).bind fun _ _ ↦ ih
      rw [← emit_append_bind, ← emit_append_bind] at hon
      simpa [fromParts, joinConditionEdits_shown] using hon
    · simp only [fromParts, joinConditionEdits_shown, emit_append_bind]
      exact (Alike.refl _).bind fun _ _ ↦ ih
  | case4 word parts =>
    simp only [fromParts, joinConditionEdits_shown]
    exact .refl _
  | case5 part rest hjoin hon hlast shown hnumber ih =>
    obtain ⟨t, rfl, hkind⟩ := Node.exists_of_isNumber hnumber
    have hname : fromParts indent (.term t :: rest) =
        emit [.endLine] >>= fun _ ↦ fromParts indent rest := by
      simp [fromParts, Node.isIdentifier, hkind]
    rw [hname]
    exact ih.trans (alike_endLine_bind _)
  | case6 part rest hjoin hon hlast shown hnumber ih =>
    split
    · rename_i hcomma
      by_cases hpart : (∃ word, part = .join word) ∨ ∃ word parts, part = .onClause word parts
      · cases rest with
        | nil => exact .refl _
        | cons next rest =>
          obtain ⟨word, rfl⟩ | ⟨word, parts, rfl⟩ := hpart
          · exact (hjoin word next rest rfl rfl).elim
          · exact (hon word parts next rest rfl rfl).elim
      · obtain ⟨table, htable⟩ := exists_fromParts_cons indent (Node.hasComma rest)
          (fun word h ↦ hpart (.inl ⟨word, h⟩)) (fun word parts h ↦ hpart (.inr ⟨word, parts, h⟩))
        rw [htable _ hcomma, htable rest rfl]
        exact (Alike.refl _).bind fun _ _ ↦ (Alike.refl _).bind fun _ _ ↦ ih
    · exact .refl _

theorem isEmpty_shownEach (nodes : List Node) : (Node.shownEach nodes).isEmpty = nodes.isEmpty := by
  cases nodes <;> rfl

theorem isSemicolon_shown (node : Node) : isSemicolon node.shown = isSemicolon node := by
  cases node with
  | insertClause word table rows columns query => cases rows <;> rfl
  | _ => rfl

theorem alike_condition_shown (indent : Int) (node : Node) :
    Alike (condition indent node.shownCondition) (condition indent node) := by
  unfold Node.shownCondition
  split
  · simp [condition, conditionValues, notEdits, detachNot, plainConditionEdits]
  · simp [condition, conditionValues, notEdits, detachNot, plainConditionEdits]
  · exact .refl _

theorem shownCondition_ne_link {node : Node} (h : ∀ word, node ≠ .link word) :
    ∀ word, node.shownCondition ≠ .link word := by
  unfold Node.shownCondition
  split
  · nofun
  · nofun
  · exact h

theorem alike_conditions_shown (indent : Int) (nodes : List Node) :
    Alike (conditions indent (nodes.map Node.shownCondition)) (conditions indent nodes) := by
  match nodes with
  | [] => exact .refl _
  | node :: rest =>
    by_cases hlink : ∃ word, node = .link word
    · obtain ⟨word, rfl⟩ := hlink
      cases rest with
      | nil => exact .refl _
      | cons next rest =>
        have hrest := alike_conditions_shown indent rest
        simp only [List.map_cons, Node.shownCondition, conditions]
        exact (Alike.refl _).bind fun _ _ ↦ (alike_condition_shown indent next).bind fun _ _ ↦
          hrest.bind fun _ _ ↦ alike_pure _ _
    · have hne : ∀ word, node ≠ .link word := fun word h ↦ hlink ⟨word, h⟩
      have hrest := alike_conditions_shown indent rest
      rw [List.map_cons, conditions_cons indent (shownCondition_ne_link hne),
        conditions_cons indent hne]
      exact (Alike.refl _).bind fun _ _ ↦ (alike_condition_shown indent node).bind fun _ _ ↦
        hrest.bind fun _ _ ↦ alike_pure _ _

mutual

theorem alike_statement_shown (indent : Int) (node : Node) :
    Alike (statement indent node.shown) (statement indent node) := by
  cases node with
  | selectClause word items =>
    simp [Node.shown, statement, selectEdits, selectItemsEdits_shownCalls]
  | fromClause word parts =>
    have hline := fun parts ↦ (alike_addLine_endLine (indentation indent ++ "FROM")).bind fun _ _ ↦
      Alike.refl (fromParts indent parts)
    have hparts := (Alike.refl (emit [.addLine (indentation indent ++ "FROM")])).bind fun _ _ ↦
      alike_fromParts_shown indent parts
    rw [← emit_append_bind, ← emit_append_bind] at hparts
    have hclause := (hline _).symm.trans (hparts.trans (hline _))
    simp only [Node.shown, statement, fromClause]
    exact hclause.bind fun _ _ ↦ alike_pure _ _
  | whereClause word nodes =>
    have hnodes := alike_conditions_shown indent nodes
    simp only [Node.shown, statement]
    exact (Alike.refl _).bind fun _ _ ↦ hnodes.bind fun _ _ ↦ alike_pure _ _
  | groupByClause items rollup =>
    have hrollup : isPresent (if isPresent rollup then some "WITH ROLLUP" else none) =
        isPresent rollup := by
      cases isPresent rollup <;> decide
    simp [Node.shown, statement, groupByEdits, hrollup]
  | insertClause word table rows columns query =>
    cases rows with
    | some rows => exact .refl _
    | none =>
      have hquery := alike_statements_shownEach indent query
      simp only [Node.shown, statement, isEmpty_shownEach]
      refine (Alike.refl _).bind fun _ _ ↦ ?_
      split
      · exact alike_pure _ _
      · exact hquery.bind fun _ _ ↦ alike_pure _ _
  | _ => exact .refl _

theorem alike_statements_shownEach (indent : Int) (nodes : List Node) :
    Alike (statements indent (Node.shownEach nodes)) (statements indent nodes) := by
  cases nodes with
  | nil => exact .refl _
  | cons node rest =>
    have hnode := alike_statement_shown indent node
    have hrest := alike_statements_shownEach indent rest
    simp only [Node.shownEach, statements, isSemicolon_shown, isEmpty_shownEach]
    exact hnode.bind fun _ _ ↦ (Alike.refl _).bind fun _ _ ↦ hrest.bind fun _ _ ↦ alike_pure _ _

end

/-- A tree has the lines of what is shown of it. -/
theorem lines_style_shownEach (indent : Int) (nodes : List Node) :
    (style indent (Node.shownEach nodes)).map Styled.lines =
      (style indent nodes).map Styled.lines :=
  lines_style_of_alike indent (alike_statements_shownEach indent nodes)

end Layout

end SqlLayout
