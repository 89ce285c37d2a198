import SqlLayout.Layout.Statement

/-!
# Conditions are laid out by their values

Whatever node stands where WHERE has a condition, its layout is that of the values it has, put back into the
node afterwards.  An induction over the layout of statements therefore needs no case for each node that has
values: it goes from the values to the node.
-/

namespace SqlLayout

/-- A node with other values.  The rows of VALUES and of an INSERT stay. -/
def Node.withValues (values : List Node) : Node → Node
  | condition _ => condition values
  | subselect _ => subselect values
  | orderByClause _ => orderByClause values
  | groupByClause _ rollup => groupByClause values rollup
  | onClause word _ => onClause word values
  | selectClause word _ => selectClause word values
  | fromClause word _ => fromClause word values
  | havingClause word _ => havingClause word values
  | node => node

namespace Layout

variable {indent : Int} {node : Node} {values : List Node}

/-- Values that no query is compared with leave one run of edits. -/
theorem conditionValues_of_no_query
    (hnegated : ∀ word left op query,
      values = [.not word, .term left, .operator op, .subselect query] → False)
    (hplain : ∀ left op query, values = [.term left, .operator op, .subselect query] → False) :
    conditionValues indent values =
      ⟨notEdits values ++ plainConditionEdits indent (detachNot values) ++ [.endLine],
        .ok (detachNot values)⟩ := by
  rw [conditionValues]
  · simp only [bind, Draft.andThen, Draft.emit, Draft.edits_pure, Draft.outcome_pure, List.append_nil]
  · exact hnegated
  · exact hplain

theorem condition_of_no_query (h : ∀ query, .subselect query ∉ values) :
    condition indent (.condition values) =
      ⟨notEdits values ++ plainConditionEdits indent (detachNot values) ++ [.endLine],
        .ok (.condition (detachNot values))⟩ := by
  rw [condition, conditionValues_of_no_query]
  · simp only [bind, Draft.andThen, Draft.edits_pure, Draft.outcome_pure, List.append_nil]
  · rintro word left op query rfl
    exact h query (by simp)
  · rintro left op query rfl
    exact h query (by simp)

theorem conditionValues_rows (indent : Int) (rows : List (List Node)) :
    conditionValues indent (rows.map .group) = ⟨[.endLine], .ok (rows.map .group)⟩ := by
  cases rows with
  | nil => rfl
  | cons row rows =>
    have hnot : notEdits (.group row :: rows.map .group) = [] := rfl
    have hdetach : detachNot (.group row :: rows.map .group) = .group row :: rows.map .group := rfl
    have hplain : plainConditionEdits indent (.group row :: rows.map .group) = [] := rfl
    rw [List.map_cons, conditionValues_of_no_query (by rintro _ _ _ _ ⟨⟩) (by rintro _ _ _ ⟨⟩), hnot,
      hdetach, hplain]
    rfl

theorem condition_of_values (h : valuesOf node = .ok values) :
    condition indent node = do return node.withValues (← conditionValues indent values) := by
  cases node with
  | valuesClause word rows =>
    cases h
    rw [condition, conditionValues_rows]
    rfl
  | insertClause word table rows columns query =>
    cases rows with
    | none =>
      cases h
      rfl
    | some rows => cases h
  | condition | subselect | orderByClause | groupByClause | onClause | selectClause | fromClause
  | havingClause =>
    cases h
    rw [condition]
    rfl
  | _ => cases h

theorem condition_of_no_values {fault : Fault} (h : valuesOf node = .error fault) :
    condition indent node = .fail fault := by
  cases node with
  | insertClause word table rows columns query =>
    cases rows with
    | none => cases h
    | some rows =>
      cases h
      rfl
  | valuesClause | condition | subselect | orderByClause | groupByClause | onClause | selectClause
  | fromClause | havingClause => cases h
  | _ =>
    cases h
    rfl

theorem conditions_cons (indent : Int) {node : Node} (h : ∀ word, node ≠ .link word)
    (rest : List Node) :
    conditions indent (node :: rest) = (do
      .emit [.add (indentation (indent + 1))]
      let left ← condition indent node
      return left :: (← conditions indent rest)) := by
  rw [conditions]
  · exact fun word hword _ ↦ h word hword
  · exact fun word _ _ hword _ ↦ h word hword

/-- Induction along the layout of statements.  The layout of a condition adds nothing to that of its values,
so what holds of the values of a node is passed on to the list that the node stands in. -/
theorem layout_induct {Statements Conditions Values : Int → List Node → Prop}
    {Statement : Int → Node → Prop}
    (select : ∀ indent word items, Statement indent (.selectClause word items))
    (fromTables : ∀ indent word parts, Statement indent (.fromClause word parts))
    (where_ : ∀ indent word nodes, Conditions indent nodes → Statement indent (.whereClause word nodes))
    (groupBy : ∀ indent items rollup, Statement indent (.groupByClause items rollup))
    (having_ : ∀ indent word nodes, Statement indent (.havingClause word nodes))
    (orderBy : ∀ indent items, Statement indent (.orderByClause items))
    (limit : ∀ indent count offset offsetWord, Statement indent (.limitClause count offset offsetWord))
    (insertRows : ∀ indent word table rows columns query,
      Statement indent (.insertClause word table (some rows) columns query))
    (insertQuery : ∀ indent word table columns query, Statements indent query →
      Statement indent (.insertClause word table none columns query))
    (semicolon : ∀ indent text, Statement indent (.semicolon text))
    (unknown : ∀ indent node, statement indent node = .fail (.unsupported node.typeName) →
      Statement indent node)
    (done : ∀ indent, Statements indent [])
    (next : ∀ indent node rest, Statement indent node → Statements indent rest →
      Statements indent (node :: rest))
    (noCondition : ∀ indent, Conditions indent [])
    (lastLink : ∀ indent word, Conditions indent [.link word])
    (linked : ∀ indent word node rest, (∀ values, valuesOf node = .ok values → Values indent values) →
      Conditions indent rest → Conditions indent (.link word :: node :: rest))
    (unlinked : ∀ indent node rest, (∀ word, node ≠ .link word) →
      (∀ values, valuesOf node = .ok values → Values indent values) → Conditions indent rest →
      Conditions indent (node :: rest))
    (negatedQuery : ∀ indent word left op query, Statements (indent + 2) query →
      Values indent [.not word, .term left, .operator op, .subselect query])
    (comparedQuery : ∀ indent left op query, Statements (indent + 2) query →
      Values indent [.term left, .operator op, .subselect query])
    (noQuery : ∀ indent values,
      (∀ word left op query, values = [.not word, .term left, .operator op, .subselect query] → False) →
      (∀ left op query, values = [.term left, .operator op, .subselect query] → False) →
      Values indent values) :
    (∀ indent nodes, Statements indent nodes) ∧ (∀ indent node, Statement indent node) ∧
      (∀ indent nodes, Conditions indent nodes) ∧ ∀ indent values, Values indent values := by
  have hrows : ∀ indent rows, Values indent (List.map Node.group rows) := fun indent rows ↦ by
    cases rows with
    | nil => exact noQuery indent [] (by rintro _ _ _ _ ⟨⟩) (by rintro _ _ _ ⟨⟩)
    | cons row rows => exact noQuery indent _ (by rintro _ _ _ _ ⟨⟩) (by rintro _ _ _ ⟨⟩)
  suffices hfive : (∀ indent nodes, Statements indent nodes) ∧ (∀ indent node, Statement indent node) ∧
      (∀ indent nodes, Conditions indent nodes) ∧
      (∀ indent node, ∀ values, valuesOf node = .ok values → Values indent values) ∧
      ∀ indent values, Values indent values from
    ⟨hfive.1, hfive.2.1, hfive.2.2.1, hfive.2.2.2.2⟩
  apply statements.mutual_induct
  case case8 => exact fun indent word table valuesWord rows ↦ insertRows indent word table (valuesWord, rows)
  case case11 =>
    intro indent node _ _ _ _ _ _ _ _ _ _
    apply unknown
    rw [statement] <;> assumption
  case case12 | case13 | case14 =>
    rintro indent values hvalues _ ⟨⟩
    exact hvalues
  case case15 =>
    rintro indent values rollup hvalues _ ⟨⟩
    exact hvalues
  case case16 | case17 | case18 | case19 =>
    rintro indent word values hvalues _ ⟨⟩
    exact hvalues
  case case20 =>
    rintro indent word rows values ⟨⟩
    exact hrows indent rows
  case case21 =>
    rintro indent word table columns query values ⟨⟩
    exact hrows indent []
  case case22 => rintro indent word table rows columns query values ⟨⟩
  case case23 =>
    intro node indent _ _ _ _ _ _ _ _ _ _ _ values hvalues
    rw [valuesOf] at hvalues
    · cases hvalues
    all_goals assumption
  case case29 =>
    intro indent node rest hlast hlink hnode hrest
    refine unlinked indent node rest ?_ hnode hrest
    rintro word rfl
    cases rest with
    | nil => exact hlast word rfl rfl
    | cons next more => exact hlink word next more rfl rfl
  all_goals assumption

end Layout

end SqlLayout
