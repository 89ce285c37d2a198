import SqlLayout.Proofs.Layout.Composition

/-!
# The tree that a layout leaves behind

A layout changes its tree in one way: whatever stands as a condition in WHERE and has four values loses a
leading NOT.  Most such nodes are conditions, but a layout asks for nothing but values.  The tree it leaves
behind has no such node any more.  It is laid out at every level of indentation, and left as it is.
-/

namespace SqlLayout

namespace Node

mutual

def detachedEach : List Node → List Node
  | [] => []
  | node :: nodes => node.detached :: detachedEach nodes

/-- A statement without the NOTs that its layout detaches: those in its WHERE, and those in the query that
it stores in place of rows. -/
def detached : Node → Node
  | whereClause word conditions => whereClause word (detachedConditions conditions)
  | insertClause word table none columns query =>
    insertClause word table none columns (detachedEach query)
  | node => node

def detachedConditions : List Node → List Node
  | [] => []
  | node :: nodes => node.detachedCondition :: detachedConditions nodes

def detachedCondition : Node → Node
  | condition values => condition (detachedValues values)
  | subselect values => subselect (detachedValues values)
  | orderByClause values => orderByClause (detachedValues values)
  | groupByClause values rollup => groupByClause (detachedValues values) rollup
  | onClause word values => onClause word (detachedValues values)
  | selectClause word values => selectClause word (detachedValues values)
  | fromClause word values => fromClause word (detachedValues values)
  | havingClause word values => havingClause word (detachedValues values)
  | node => node

/-- Four values without their leading NOT, also in the query that a name is compared with; the query that
anything else is compared with is not laid out. -/
def detachedValues : List Node → List Node
  | [not _, term left, operator op, subselect query] | [term left, operator op, subselect query] =>
    [term left, operator op, subselect (if left.kind = .identifier then detachedEach query else query)]
  | values => Layout.detachNot values

end

end Node

namespace Draft

variable {α β : Type}

/-- A draft that can only have the result `left`, and if it has it, so have all the drafts `again`. -/
def Leaves (draft : Draft α) (again : Int → Draft α) (left : α) : Prop :=
  ∀ result, draft.outcome = .ok result → result = left ∧ ∀ later, (again later).outcome = .ok left

theorem leaves_pure (left : α) : (pure left : Draft α).Leaves (fun _ ↦ pure left) left := by
  rintro result ⟨⟩
  exact ⟨rfl, fun _ ↦ rfl⟩

theorem leaves_fail (fault : Fault) (again : Int → Draft α) (left : α) :
    (fail fault : Draft α).Leaves again left := by
  rintro result ⟨⟩

theorem leaves_emit (edits : List Edit) (others : Int → List Edit) :
    (emit edits).Leaves (fun later ↦ emit (others later)) () :=
  fun _ _ ↦ ⟨rfl, fun _ ↦ rfl⟩

/-- Edits in front of a draft do not change its result. -/
theorem leaves_emit_bind {edits : List Edit} {next : Unit → Draft α} {again : Int → Draft α} {left : α}
    (h : (next ()).Leaves again left) : (emit edits >>= next).Leaves again left :=
  fun result hresult ↦ h result hresult

theorem leaves_self (draft : Draft Unit) : draft.Leaves (fun _ ↦ draft) () :=
  fun _ h ↦ ⟨rfl, fun _ ↦ h⟩

theorem Leaves.bind {first : Draft α} {next : α → Draft β} {again : Int → Draft α}
    {more : Int → α → Draft β} {found : α} {left : β} (h : first.Leaves again found)
    (hnext : (next found).Leaves (fun later ↦ more later found) left) :
    (first >>= next).Leaves (fun later ↦ again later >>= more later) left := by
  intro result hresult
  cases houtcome : first.outcome with
  | error fault =>
    rw [bind_of_error houtcome] at hresult
    cases hresult
  | ok other =>
    rw [bind_of_ok houtcome] at hresult
    obtain ⟨rfl, hagain⟩ := h other houtcome
    obtain ⟨hleft, hmore⟩ := hnext result hresult
    refine ⟨hleft, fun later ↦ ?_⟩
    simpa only [bind_of_ok (hagain later)] using hmore later

theorem Leaves.bind_pure {first : Draft α} {again : Int → Draft α} {found : α} (f : α → β)
    (h : first.Leaves again found) :
    (first >>= fun result ↦ pure (f result)).Leaves
      (fun later ↦ again later >>= fun result ↦ pure (f result)) (f found) :=
  h.bind (leaves_pure _)

end Draft

/-- A buffer with a line of text takes every edit, and keeps such a line. -/
theorem LineBuffer.exists_step?_of_text {buffer : LineBuffer} (h : ∃ line ∈ buffer.lines, line ≠ "")
    (edit : Edit) : ∃ next, buffer.step? edit = some next ∧ ∃ line ∈ next.lines, line ≠ "" := by
  have hend : ∀ buffer : LineBuffer, (∃ line ∈ buffer.lines, line ≠ "") →
      ∃ line ∈ buffer.endLine.lines, line ≠ "" := by
    rintro buffer ⟨line, hline, htext⟩
    refine ⟨line, ?_, htext⟩
    unfold endLine
    dsimp only
    split
    · exact hline
    · exact List.mem_append_left _ hline
  cases edit with
  | add text => exact ⟨_, rfl, h⟩
  | addLine text => exact ⟨_, rfl, hend (buffer.add text) h⟩
  | blankLines count =>
    obtain ⟨line, hline, htext⟩ := hend buffer h
    exact ⟨_, rfl, line, List.mem_append_left _ hline, htext⟩
  | endLine => exact ⟨_, rfl, hend buffer h⟩
  | extendLast text =>
    obtain ⟨line, hline, htext⟩ := h
    obtain ⟨front, final, hlines⟩ : ∃ front final, buffer.lines = front ++ [final] :=
      ⟨_, _, (List.dropLast_concat_getLast (List.ne_nil_of_mem hline)).symm⟩
    have hstep : buffer.step? (.extendLast text) =
        some (((⟨buffer.pending, front⟩ : LineBuffer).add final).add text).endLine := by
      simp [step?, extendLast?, hlines]
    refine ⟨_, hstep, ?_⟩
    rw [hlines, List.mem_append, List.mem_singleton] at hline
    rcases hline with hline | rfl
    · exact hend _ ⟨line, hline, htext⟩
    · have hjoin : String.join (buffer.pending ++ [line] ++ [text]) ≠ "" := by simp [htext]
      refine ⟨_, ?_, hjoin⟩
      rw [endLine]
      exact (if_neg hjoin).symm ▸ List.mem_concat_self

theorem LineBuffer.exists_steps?_of_text (buffer : LineBuffer) (h : ∃ line ∈ buffer.lines, line ≠ "")
    (edits : List Edit) : ∃ last, buffer.steps? edits = some last := by
  induction edits generalizing buffer with
  | nil => exact ⟨buffer, rfl⟩
  | cons edit edits ih =>
    obtain ⟨next, hnext, htext⟩ := exists_step?_of_text h edit
    rw [steps?, hnext]
    exact ih next htext

namespace Layout

open Draft

/-! ### Clauses -/

theorem leaves_fromParts (indent : Int) (parts : List Node) :
    (fromParts indent parts).Leaves (fun later ↦ fromParts later parts) () := by
  fun_induction fromParts indent parts with
  | case1 => exact leaves_pure ()
  | case2 word => exact leaves_emit_bind (leaves_fail _ _ _)
  | case3 word table rest ih =>
    exact (leaves_emit _ fun _ ↦ _).bind ((leaves_self _).bind ((leaves_self _).bind ih))
  | case4 word parts => exact leaves_emit _ fun _ ↦ _
  | case5 word parts next rest ih => exact (leaves_emit _ fun _ ↦ _).bind ih
  | case6 part rest _ _ _ _ _ hname ih =>
    simp only [fromParts, hname]
    exact (leaves_emit _ fun _ ↦ _).bind ((leaves_self _).bind ((leaves_self _).bind
      ((leaves_self _).bind ih)))
  | case7 part rest _ _ _ _ _ hname ih =>
    simp only [fromParts, hname]
    exact (leaves_self _).bind ih

theorem leaves_orderItems (indent : Int) (items : List Node) :
    (orderItems indent items).Leaves (fun later ↦ orderItems later items) () := by
  induction items with
  | nil => exact leaves_pure ()
  | cons item rest ih =>
    exact (leaves_emit _ fun _ ↦ _).bind ((leaves_self _).bind ((leaves_self _).bind ih))

theorem leaves_havingConditions (indent : Int) (nodes : List Node) :
    (havingConditions indent nodes).Leaves (fun later ↦ havingConditions later nodes) () := by
  fun_induction havingConditions indent nodes with
  | case1 => exact leaves_self _
  | case2 word => exact leaves_emit_bind (leaves_fail _ _ _)
  | case3 word node rest ih =>
    exact (leaves_emit _ fun _ ↦ _).bind ((leaves_self _).bind ih)
  | case4 node rest _ _ ih =>
    simp only [havingConditions]
    exact (leaves_emit _ fun _ ↦ _).bind ((leaves_self _).bind ih)

/-! ### Statements -/

theorem leaves_membership {indent : Int} {left : Term} {op : String} {query : List Node}
    (h : (statements (indent + 2) query).Leaves (fun later ↦ statements later (Node.detachedEach query))
      (Node.detachedEach query)) :
    (membership left op query (statements (indent + 2) query)).Leaves
      (fun later ↦ membership left op
        (if left.kind = .identifier then Node.detachedEach query else query)
        (statements (later + 2) (if left.kind = .identifier then Node.detachedEach query else query)))
      (if left.kind = .identifier then Node.detachedEach query else query) := by
  have hlater : (statements (indent + 2) query).Leaves
      (fun later ↦ statements (later + 2) (Node.detachedEach query)) (Node.detachedEach query) :=
    fun result hresult ↦ ⟨(h result hresult).1, fun later ↦ (h result hresult).2 (later + 2)⟩
  unfold membership
  split
  · exact (leaves_self _).bind (hlater.bind ((leaves_self _).bind_pure _))
  · exact (leaves_self _).bind_pure _

theorem conditionValues_detachNot {values : List Node}
    (hnegated : ∀ word left op query,
      values = [.not word, .term left, .operator op, .subselect query] → False)
    (hplain : ∀ left op query, values = [.term left, .operator op, .subselect query] → False)
    (later : Int) :
    (conditionValues later (detachNot values)).outcome = .ok (detachNot values) := by
  fun_cases detachNot values with
  | case1 word a b c =>
    have hdetached : detachNot [a, b, c] = [a, b, c] := by
      rw [detachNot]
      rintro _ _ _ _ ⟨⟩
    rw [conditionValues_of_no_query, hdetached]
    · rintro _ _ _ _ ⟨⟩
    · rintro left op query ⟨⟩
      exact hnegated word left op query rfl
  | case2 =>
    rw [conditionValues_of_no_query hnegated hplain, detachNot]
    assumption

theorem detachedValues_of_no_query {values : List Node}
    (hnegated : ∀ word left op query,
      values = [.not word, .term left, .operator op, .subselect query] → False)
    (hplain : ∀ left op query, values = [.term left, .operator op, .subselect query] → False) :
    Node.detachedValues values = detachNot values := by
  rw [Node.detachedValues]
  · exact hnegated
  · exact hplain

/-- What is left of a node has the values that are left of its own. -/
theorem valuesOf_detachedCondition {node : Node} {values : List Node} (h : valuesOf node = .ok values) :
    node.detachedCondition = node.withValues (Node.detachedValues values) ∧
      valuesOf node.detachedCondition = .ok (Node.detachedValues values) := by
  cases node with
  | valuesClause word rows =>
    cases h
    have hrows : Node.detachedValues (rows.map .group) = rows.map .group := by
      cases rows with
      | nil => rfl
      | cons row rows => rfl
    exact ⟨rfl, by rw [hrows]; rfl⟩
  | insertClause word table rows columns query =>
    cases rows with
    | none =>
      cases h
      exact ⟨rfl, rfl⟩
    | some rows => cases h
  | condition | subselect | orderByClause | groupByClause | onClause | selectClause | fromClause
  | havingClause =>
    cases h
    exact ⟨by rw [Node.detachedCondition]; rfl, by rw [Node.detachedCondition]; rfl⟩
  | _ => cases h

theorem leaves_condition {indent : Int} {node : Node}
    (h : ∀ values, valuesOf node = .ok values → (conditionValues indent values).Leaves
      (fun later ↦ conditionValues later (Node.detachedValues values)) (Node.detachedValues values)) :
    (condition indent node).Leaves (fun later ↦ condition later node.detachedCondition)
      node.detachedCondition := by
  cases hvalues : valuesOf node with
  | error fault =>
    rw [condition_of_no_values hvalues]
    exact leaves_fail _ _ _
  | ok values =>
    obtain ⟨hnode, hdetached⟩ := valuesOf_detachedCondition hvalues
    have hagain : ∀ later, condition later node.detachedCondition =
        (conditionValues later (Node.detachedValues values) >>= fun left ↦
          pure (node.detachedCondition.withValues left)) := fun later ↦ condition_of_values hdetached
    have hsame : ∀ left : List Node, node.detachedCondition.withValues left = node.withValues left := by
      intro left
      rw [hnode]
      cases node <;> rfl
    simp only [condition_of_values hvalues, hagain, hsame]
    rw [hnode]
    exact (h values hvalues).bind_pure _

theorem isEmpty_detachedEach (nodes : List Node) :
    (Node.detachedEach nodes).isEmpty = nodes.isEmpty := by
  cases nodes <;> rfl

theorem isSemicolon_detached (node : Node) : isSemicolon node.detached = isSemicolon node := by
  cases node with
  | insertClause word table rows columns query => cases rows <;> rfl
  | _ => rfl

theorem detachedCondition_ne_link {node : Node} (h : ∀ word, node ≠ .link word) :
    ∀ word, node.detachedCondition ≠ .link word := by
  fun_cases Node.detachedCondition node with
  | case9 => exact h
  | _ => rintro word ⟨⟩

theorem leaves_layout :
    (∀ indent nodes, (statements indent nodes).Leaves
        (fun later ↦ statements later (Node.detachedEach nodes)) (Node.detachedEach nodes)) ∧
      (∀ indent node, (statement indent node).Leaves
        (fun later ↦ statement later node.detached) node.detached) ∧
      (∀ indent nodes, (conditions indent nodes).Leaves
        (fun later ↦ conditions later (Node.detachedConditions nodes))
        (Node.detachedConditions nodes)) ∧
      ∀ indent values, (conditionValues indent values).Leaves
        (fun later ↦ conditionValues later (Node.detachedValues values)) (Node.detachedValues values) := by
  apply layout_induct
  case select =>
    intro indent word items
    exact (leaves_emit _ fun _ ↦ _).bind_pure _
  case fromTables =>
    intro indent word parts
    exact ((leaves_emit _ fun _ ↦ _).bind (leaves_fromParts indent parts)).bind_pure _
  case where_ =>
    intro indent word nodes ih
    exact (leaves_emit _ fun _ ↦ _).bind (ih.bind_pure _)
  case groupBy =>
    intro indent items rollup
    exact (leaves_emit _ fun _ ↦ _).bind_pure _
  case having_ =>
    intro indent word nodes
    exact ((leaves_emit _ fun _ ↦ _).bind (leaves_havingConditions indent nodes)).bind_pure _
  case orderBy =>
    intro indent items
    exact ((leaves_emit _ fun _ ↦ _).bind (leaves_orderItems indent items)).bind_pure _
  case limit =>
    intro indent count offset offsetWord
    exact (leaves_emit _ fun _ ↦ _).bind_pure _
  case insertRows =>
    intro indent word table rows columns query
    exact (leaves_self _).bind_pure _
  case insertQuery =>
    intro indent word table columns query ih
    simp only [Node.detached, statement, isEmpty_detachedEach]
    refine (leaves_self _).bind ?_
    split
    · next hempty =>
      rw [List.isEmpty_iff.mp hempty]
      exact leaves_pure _
    · exact ih.bind_pure _
  case semicolon =>
    intro indent text
    exact (leaves_self _).bind_pure _
  case unknown =>
    intro indent node hunknown
    rw [hunknown]
    exact leaves_fail _ _ _
  case done =>
    intro indent
    exact (leaves_self _).bind_pure _
  case next =>
    intro indent node rest hnode hrest
    simp only [Node.detachedEach, statements, isSemicolon_detached, isEmpty_detachedEach]
    exact hnode.bind ((leaves_self _).bind (hrest.bind_pure _))
  case noCondition =>
    intro indent
    exact leaves_pure _
  case lastLink =>
    intro indent word
    exact leaves_emit_bind (leaves_fail _ _ _)
  case linked =>
    intro indent word node rest hnode hrest
    exact (leaves_emit _ fun _ ↦ _).bind ((leaves_condition hnode).bind (hrest.bind_pure _))
  case unlinked =>
    intro indent node rest hlink hnode hrest
    simp only [Node.detachedConditions, conditions_cons _ hlink,
      conditions_cons _ (detachedCondition_ne_link hlink)]
    exact (leaves_emit _ fun _ ↦ _).bind ((leaves_condition hnode).bind (hrest.bind_pure _))
  case negatedQuery =>
    intro indent word left op query ih
    exact leaves_emit_bind ((leaves_membership ih).bind_pure _)
  case comparedQuery =>
    intro indent left op query ih
    exact (leaves_membership ih).bind_pure _
  case noQuery =>
    intro indent values hnegated hplain
    rw [conditionValues_of_no_query hnegated hplain, detachedValues_of_no_query hnegated hplain]
    rintro result ⟨⟩
    exact ⟨rfl, conditionValues_detachNot hnegated hplain⟩

/-! ### Layouts that succeed -/

theorem opensLine_detached (node : Node) : opensLine node.detached = opensLine node := by
  cases node with
  | insertClause word table rows columns query => cases rows <;> rfl
  | _ => rfl

theorem style_eq_ok {indent : Int} {nodes : List Node} {styled : Styled} :
    style indent nodes = .ok styled ↔ (statements indent nodes).outcome = .ok styled.tree ∧
      ∃ last, ({} : LineBuffer).steps? (statements indent nodes).edits = some last ∧
        last.lines = styled.lines := by
  obtain ⟨lines, tree⟩ := styled
  unfold style Draft.write
  cases ({} : LineBuffer).steps? (statements indent nodes).edits with
  | none => simp [bind, Except.bind]
  | some last =>
    cases (statements indent nodes).outcome with
    | error fault => simp [bind, Except.bind, Except.map]
    | ok found => simp [bind, Except.bind, Except.map, pure, Except.pure, and_comm]

/-- Of statements that are laid out the first opens a line, unless it is a SELECT without a word. -/
theorem opensLine_of_style {indent : Int} {node : Node} {rest : List Node} {styled : Styled}
    (h : style indent (node :: rest) = .ok styled)
    (hword : ∀ word items, node = .selectClause word items → word ≠ "") : opensLine node = true := by
  obtain ⟨houtcome, last, hsteps, -⟩ := style_eq_ok.mp h
  rw [statements] at houtcome hsteps
  cases node with
  | selectClause word items => simpa [opensLine] using hword word items rfl
  | semicolon text =>
    -- There is no line yet that a semicolon could extend.
    obtain ⟨more, hmore⟩ := exists_edits_bind (statement indent (.semicolon text)) _
    rw [hmore] at hsteps
    cases hsteps
  | fromClause | whereClause | groupByClause | havingClause | orderByClause | limitClause
  | insertClause => rfl
  | _ => cases houtcome

/-- Statements are laid out if nothing stops their draft and a line comes first. -/
theorem exists_style_of_outcome {indent : Int} {nodes tree : List Node}
    (h : (statements indent nodes).outcome = .ok tree)
    (hopens : ∀ node rest, nodes = node :: rest → opensLine node = true) :
    ∃ styled, style indent nodes = .ok styled ∧ styled.tree = tree := by
  obtain ⟨last, hlast⟩ : ∃ last, ({} : LineBuffer).steps? (statements indent nodes).edits = some last := by
    cases nodes with
    | nil => exact ⟨_, rfl⟩
    | cons node rest =>
      obtain ⟨first, more, hfirst, hedits⟩ := exists_addLine indent (hopens node rest rfl)
      obtain ⟨others, hothers⟩ : ∃ others, (statements indent (node :: rest)).edits =
          .addLine first :: others := by
        obtain ⟨others, hothers⟩ := exists_edits_bind (statement indent node) _
        rw [statements, hothers, hedits]
        exact ⟨_, rfl⟩
      rw [hothers]
      apply LineBuffer.exists_steps?_of_text (({} : LineBuffer).add first).endLine
      exact ⟨first, by simp [LineBuffer.endLine, LineBuffer.add, hfirst], hfirst⟩
  exact ⟨⟨last.lines, tree⟩, style_eq_ok.mpr ⟨h, last, hlast, rfl⟩, rfl⟩

/-- A layout detaches the NOTs of its tree.  After that the tree is laid out at every level, with the lines
that the tree without its NOTs has there, and stays as it is. -/
theorem restyle_of_style {indent : Int} {nodes : List Node} {styled : Styled}
    (hwords : ∀ word items, .selectClause word items ∈ nodes → word ≠ "")
    (h : style indent nodes = .ok styled) :
    styled.tree = Node.detachedEach nodes ∧
      (∀ later, ∃ again, style later (Node.detachedEach nodes) = .ok again ∧
        again.tree = Node.detachedEach nodes) ∧
      ∀ indents, restyle (indent :: indents) nodes =
        .ok styled.lines :: indents.map fun later ↦
          (style later (Node.detachedEach nodes)).map Styled.lines := by
  obtain ⟨htree, hlater⟩ := leaves_layout.1 indent nodes styled.tree (style_eq_ok.mp h).1
  have hopens : ∀ node rest, Node.detachedEach nodes = node :: rest → opensLine node = true := by
    cases nodes with
    | nil => rintro node rest ⟨⟩
    | cons first others =>
      rintro node rest ⟨⟩
      rw [opensLine_detached]
      apply opensLine_of_style h
      rintro word items rfl
      exact hwords word items List.mem_cons_self
  have hagain : ∀ later, ∃ again, style later (Node.detachedEach nodes) = .ok again ∧
      again.tree = Node.detachedEach nodes := fun later ↦ exists_style_of_outcome (hlater later) hopens
  refine ⟨htree, hagain, fun indents ↦ ?_⟩
  rw [restyle, h]
  dsimp only
  rw [htree]
  congr 1
  induction indents with
  | nil => rfl
  | cons later indents ih =>
    obtain ⟨again, hstyle, hsame⟩ := hagain later
    rw [restyle, List.map_cons, hstyle]
    dsimp only
    rw [hsame, ih]
    rfl

theorem restyle_of_style_storedSearch :
    ∃ styled, style 1 storedSearch = .ok styled ∧
      styled.tree = [.insertClause "insert into" "t" none [.plain .identifier "a"]
        [.selectClause "select" [.plain .identifier "b"],
          .whereClause "where" [.condition [.plain .identifier "c", .operator "in",
            .subselect [.selectClause "select" [.plain .identifier "d"]]]]], .semicolon ";"] ∧
      restyle [1, 0, 2] storedSearch =
        .ok styled.lines :: [0, 2].map fun later ↦ (style later styled.tree).map Styled.lines := by
  obtain ⟨styled, hstyled, -⟩ : ∃ styled, style 1 storedSearch = .ok styled ∧ styled.tree = _ :=
    exists_style_of_outcome rfl (by rintro _ _ ⟨⟩; rfl)
  have hwords : ∀ word items, .selectClause word items ∈ storedSearch → word ≠ "" := by
    simp [storedSearch]
  obtain ⟨htree, -, hagain⟩ := restyle_of_style hwords hstyled
  refine ⟨styled, hstyled, htree, ?_⟩
  rw [hagain, htree]

/-- An ON that stands as a condition loses its NOT as a condition does. -/
theorem tree_style_on_condition :
    ∃ styled, style 0 [.whereClause "where" [.onClause "on" [.not "not", .plain .identifier "a",
        .operator "=", .plain .number "1"]]] = .ok styled ∧
      styled.lines = ["WHERE", "    NOT a = 1"] ∧
      styled.tree = [.whereClause "where" [.onClause "on" [.plain .identifier "a", .operator "=",
        .plain .number "1"]]] :=
  ⟨⟨_, _⟩, rfl, rfl, rfl⟩

end Layout

end SqlLayout
