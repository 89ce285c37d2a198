import SqlLayout.Proofs.Separation

/-!
# Layouts one after another

The layout of a statement starts and ends with no piece pending, and in between it takes a finished line
back only where none is.  So the lines of two lists of statements do not run into each other: those of the
second stand behind those of the first, after two empty lines where the first list ends in a semicolon.
-/

namespace SqlLayout

open Text

/-- Edits that take the last line back only where no piece is pending.  If `clean`, none is pending in front
of them, and if `after`, none is behind them. -/
inductive Edit.Settles : (clean : Bool) → List Edit → (after : Bool) → Prop
  | nil {clean after : Bool} : (after = true → clean = true) → Settles clean [] after
  | add {clean after : Bool} {text : String} {edits : List Edit} :
      Settles false edits after → Settles clean (.add text :: edits) after
  | addLine {clean after : Bool} {text : String} {edits : List Edit} :
      Settles true edits after → Settles clean (.addLine text :: edits) after
  | blankLines {clean after : Bool} {count : Int} {edits : List Edit} :
      Settles true edits after → Settles clean (.blankLines count :: edits) after
  | endLine {clean after : Bool} {edits : List Edit} :
      Settles true edits after → Settles clean (.endLine :: edits) after
  | extendLast {after : Bool} {text : String} {edits : List Edit} :
      Settles true edits after → Settles true (.extendLast text :: edits) after

theorem LineBuffer.pending_extendLast? {buffer next : LineBuffer} {text : String}
    (h : buffer.extendLast? text = some next) : next.pending = [] := by
  unfold extendLast? at h
  split at h <;> cases h
  rfl

namespace Edit

def isAdd : Edit → Bool
  | add _ => true
  | _ => false

variable {clean middle after : Bool} {edits more : List Edit}

theorem settles_nil : Settles clean [] clean := .nil id

theorem settles_add (text : String) : Settles clean [.add text] false := .add settles_nil

theorem settles_addLine (text : String) : Settles clean [.addLine text] true := .addLine settles_nil

theorem settles_endLine : Settles clean [.endLine] true := .endLine settles_nil

/-- What settles wherever it stands settles where nothing is pending. -/
theorem Settles.anywhere (h : Settles false edits after) : Settles clean edits after := by
  cases clean with
  | false => exact h
  | true =>
    cases h with
    | nil hafter => exact .nil fun _ ↦ rfl
    | add h => exact .add h
    | addLine h => exact .addLine h
    | blankLines h => exact .blankLines h
    | endLine h => exact .endLine h

theorem Settles.append (h : Settles clean edits middle) (hmore : Settles middle more after) :
    Settles clean (edits ++ more) after := by
  induction h with
  | @nil clean middle hmiddle =>
    cases middle with
    | false => exact hmore.anywhere
    | true =>
      rw [hmiddle rfl]
      exact hmore
  | add _ ih => exact .add (ih hmore)
  | addLine _ ih => exact .addLine (ih hmore)
  | blankLines _ ih => exact .blankLines (ih hmore)
  | endLine _ ih => exact .endLine (ih hmore)
  | extendLast _ ih => exact .extendLast (ih hmore)

theorem Settles.loosely (h : Settles clean edits middle) : Settles clean edits false := by
  have hnil : Settles middle [] false := .nil fun hfalse ↦ absurd hfalse Bool.false_ne_true
  have happend := h.append hnil
  rwa [List.append_nil] at happend

theorem Settles.endLine_behind (h : Settles clean edits middle) (hmore : Settles true more after) :
    Settles clean (edits ++ .endLine :: more) after :=
  h.append (.endLine hmore)

theorem settles_adds (h : edits.all isAdd = true) : Settles false edits false := by
  induction edits with
  | nil => exact settles_nil
  | cons edit edits ih =>
    rw [List.all_cons, Bool.and_eq_true] at h
    cases edit with
    | add text => exact .add (ih h.2)
    | _ => cases h.1

theorem Settles.pending_eq (h : Settles clean edits true) {buffer last : LineBuffer}
    (hbuffer : clean = true → buffer.pending = []) (hlast : buffer.steps? edits = some last) :
    last.pending = [] := by
  generalize hafter : true = after at h
  induction h generalizing buffer with
  | nil hclean =>
    cases hlast
    exact hbuffer (hclean hafter.symm)
  | add _ ih => exact ih (fun hfalse ↦ absurd hfalse Bool.false_ne_true) hlast hafter
  | addLine _ ih => exact ih (fun _ ↦ rfl) hlast hafter
  | blankLines _ ih => exact ih (fun _ ↦ rfl) hlast hafter
  | endLine _ ih => exact ih (fun _ ↦ rfl) hlast hafter
  | extendLast _ ih =>
    obtain ⟨next, hnext, hlast⟩ := Option.bind_eq_some_iff.mp hlast
    exact ih (fun _ ↦ LineBuffer.pending_extendLast? hnext) hlast hafter

end Edit

namespace Draft

variable {α β : Type} {clean middle after : Bool}

def Settles (clean : Bool) (draft : Draft α) (after : Bool) : Prop :=
  ∀ result, draft.outcome = .ok result → Edit.Settles clean draft.edits after

theorem settles_emit {edits : List Edit} (h : Edit.Settles clean edits after) :
    (emit edits).Settles clean after :=
  fun _ _ ↦ h

theorem settles_pure (result : α) : (pure result : Draft α).Settles clean clean :=
  fun _ _ ↦ Edit.settles_nil

theorem settles_fail (fault : Fault) : (fail fault : Draft α).Settles clean after := by
  intro result h
  cases h

theorem Settles.anywhere {draft : Draft α} (h : draft.Settles false after) :
    draft.Settles clean after :=
  fun result hresult ↦ (h result hresult).anywhere

theorem Settles.bind {first : Draft α} {next : α → Draft β} (h : first.Settles clean middle)
    (hnext : ∀ result, (next result).Settles middle after) : (first >>= next).Settles clean after := by
  intro result hresult
  cases houtcome : first.outcome with
  | error fault =>
    rw [bind_of_error houtcome] at hresult
    cases hresult
  | ok found =>
    rw [bind_of_ok houtcome] at hresult ⊢
    exact (h found houtcome).append (hnext found result hresult)

theorem Settles.bind_pure {first : Draft α} {f : α → β} (h : first.Settles clean after) :
    (first >>= fun result ↦ pure (f result)).Settles clean after :=
  h.bind fun result ↦ settles_pure (f result)

def Adds (draft : Draft α) : Prop :=
  ∀ result, draft.outcome = .ok result → draft.edits.all Edit.isAdd = true

theorem Adds.settles {draft : Draft α} (h : draft.Adds) : draft.Settles false false :=
  fun result hresult ↦ Edit.settles_adds (h result hresult)

theorem Settles.pending_eq {draft : Draft α} (h : draft.Settles clean true) {result : α}
    {buffer last : LineBuffer} (hbuffer : clean = true → buffer.pending = [])
    (hlast : draft.write buffer = .ok (result, last)) : last.pending = [] := by
  unfold write at hlast
  cases hsteps : buffer.steps? draft.edits with
  | none =>
    rw [hsteps] at hlast
    cases hlast
  | some written =>
    rw [hsteps] at hlast
    obtain ⟨found, hfound, hwritten⟩ := Read.map_eq_ok.mp hlast
    cases hwritten
    exact (h result hfound).pending_eq hbuffer hsteps

end Draft

namespace Layout

open Edit Draft

variable {clean : Bool}

/-! ### Values -/

theorem isAdd_commaBefore (rest : List Node) (text : String) :
    (commaBefore rest text).all isAdd = true := by
  unfold commaBefore
  split <;> rfl

theorem isAdd_aliasEdits (asWord aliasName : Option String) :
    (aliasEdits asWord aliasName).all isAdd = true := by
  cases aliasName with
  | none => unfold aliasEdits; split <;> rfl
  | some name => unfold aliasEdits; split <;> dsimp only <;> split <;> rfl

theorem isAdd_callAliasEdits (asWord aliasName : Option String) :
    (callAliasEdits asWord aliasName).all isAdd = true := by
  cases aliasName with
  | none => rfl
  | some name => unfold callAliasEdits; dsimp only; split <;> rfl

mutual

theorem isAdd_callEdits (node : Node) : (callEdits node).all isAdd = true := by
  cases node with
  | call name args asWord aliasName =>
    simp [callEdits, isAdd, isAdd_argEdits args, isAdd_callAliasEdits]
  | term t => rfl
  | _ => rfl

theorem isAdd_argEdits (args : List Node) : (argEdits args).all isAdd = true := by
  cases args with
  | nil => rfl
  | cons arg rest =>
    simp [argEdits, isAdd_callEdits arg, isAdd_commaBefore, isAdd_argEdits rest]

end

theorem adds_named (node : Node) : (named node).Adds := by
  intro result h
  cases node with
  | term t => exact isAdd_aliasEdits _ _
  | call name args asWord aliasName => exact isAdd_aliasEdits _ _
  | _ => cases h

theorem settles_branchEdits (indent : Int) (branches : List Node) :
    Edit.Settles false (branchEdits indent branches) false := by
  fun_induction branchEdits indent branches with
  | case1 => exact settles_nil
  | case2 branch => exact settles_add _
  | case3 branch rest _ ih => exact .add (.endLine ih.anywhere)

/-! ### Clauses -/

theorem settles_selectItemEdits (indent : Int) (item : Node) :
    Edit.Settles false (selectItemEdits indent item) false := by
  cases item with
  | term t => exact .add (settles_adds (isAdd_aliasEdits _ _))
  | caseOf word branches => exact .addLine (settles_branchEdits indent branches).anywhere
  | call name args asWord aliasName => exact settles_adds (isAdd_callEdits _)
  | _ => exact settles_nil

theorem settles_selectItemsEdits (indent : Int) (items : List Node) :
    Edit.Settles true (selectItemsEdits indent items) true := by
  induction items with
  | nil => exact settles_nil
  | cons item rest ih =>
    have hitem := (settles_selectItemEdits indent item).append
      (settles_adds (isAdd_commaBefore rest ","))
    exact .add (hitem.endLine_behind ih)

theorem isAdd_operands (operands : List Node) :
    (operands.flatMap operandEdits).all isAdd = true := by
  have hoperand : ∀ node, (operandEdits node).all isAdd = true := by
    intro node
    unfold operandEdits
    split
    · exact isAdd_callEdits _
    · split <;> rfl
  simpa using fun node _ ↦ List.all_eq_true.mp (hoperand node)

theorem settles_joinConditionEdits (indent : Int) (newLine : Bool) (parts : List Node) :
    Edit.Settles false (joinConditionEdits indent newLine parts) false := by
  have hstart : ∀ newLine : Bool, Edit.Settles false
      (if newLine then [.add (indentation (indent + 2))] else []) false := by
    intro newLine
    split
    · exact settles_add _
    · exact settles_nil
  induction parts generalizing newLine with
  | nil => exact settles_nil
  | cons part rest ih =>
    cases part with
    | link word => exact (hstart newLine).append (.add (ih false))
    | condition operands =>
      exact ((hstart newLine).append (settles_adds (isAdd_operands operands))).endLine_behind
        (ih true).anywhere
    | _ => exact (hstart newLine).append (ih newLine)

theorem isAdd_comma (rest : List Node) :
    (if startsWithJoin rest then [] else commaBefore rest ",").all isAdd = true := by
  split
  · rfl
  · exact isAdd_commaBefore rest ","

theorem settles_fromParts (indent : Int) (parts : List Node) :
    (fromParts indent parts).Settles true true := by
  have hon : ∀ parts : List Node,
      (emit (joinConditionEdits indent true parts ++ [.endLine])).Settles true true := fun parts ↦
    settles_emit ((settles_joinConditionEdits indent true parts).anywhere.append settles_endLine)
  fun_induction fromParts indent parts with
  | case1 => exact settles_pure ()
  | case2 word =>
    exact (settles_emit (.add (.add (settles_add _)))).bind fun _ ↦ settles_fail _
  | case3 word table rest ih =>
    have hend : Edit.Settles false ((if startsWithOn rest then [.add " ON"] else []) ++ [.endLine])
        true := by
      split
      · exact .add settles_endLine
      · exact settles_endLine
    exact (settles_emit (.add (.add (settles_add _)))).bind fun _ ↦ (adds_named table).settles.bind fun _ ↦
      (settles_emit hend).bind fun _ ↦ ih
  | case4 word parts => exact hon parts
  | case5 word parts next rest ih => exact (hon parts).bind fun _ ↦ ih
  | case6 part rest _ _ _ _ _ _ ih =>
    exact (settles_emit (settles_add _)).bind fun _ ↦ (adds_named part).settles.bind fun _ ↦
      (settles_emit (settles_adds (isAdd_comma rest))).bind fun _ ↦
        (settles_emit settles_endLine).bind fun _ ↦ ih
  | case7 part rest _ _ _ _ _ _ ih => exact (settles_emit settles_endLine).bind fun _ ↦ ih

theorem settles_groupItemsEdits (items : List Node) :
    Edit.Settles true (groupItemsEdits items) true := by
  induction items with
  | nil => exact settles_nil
  | cons item rest ih => exact .add ((settles_adds (isAdd_commaBefore rest ",")).endLine_behind ih)

theorem settles_groupByEdits (indent : Int) (items : List Node) (rollup : Option String) :
    Edit.Settles true (groupByEdits indent items rollup) true := by
  refine .addLine ((settles_groupItemsEdits items).append ?_)
  split
  · exact settles_addLine _
  · exact settles_nil

theorem adds_sortEdits (item : Node) : (sortEdits item).Adds := by
  intro result h
  cases item with
  | term t =>
    dsimp only [sortEdits, emit]
    cases t.sort with
    | none => rfl
    | some word =>
      dsimp only
      split <;> rfl
  | _ => cases h

theorem settles_orderItems (indent : Int) (items : List Node) :
    (orderItems indent items).Settles true true := by
  induction items with
  | nil => exact settles_pure ()
  | cons item rest ih =>
    exact (settles_emit (settles_add _)).bind fun _ ↦ (adds_sortEdits item).settles.bind fun _ ↦
      (settles_emit ((settles_adds (isAdd_commaBefore rest ",")).append settles_endLine)).bind fun _ ↦ ih

theorem settles_havingValues (values : List Node) : (havingValues values).Settles false false := by
  fun_cases havingValues values with
  | case1 left op right => exact settles_emit (.add settles_endLine.loosely)
  | case3 word name args asWord aliasName op right =>
    exact settles_emit (settles_adds (by simp [isAdd, isAdd_callEdits]))
  | _ => exact settles_fail _

theorem settles_havingCondition (node : Node) : (havingCondition node).Settles false false := by
  unfold havingCondition
  split
  · exact settles_havingValues _
  · exact settles_fail _

theorem settles_havingConditions (indent : Int) (nodes : List Node) :
    (havingConditions indent nodes).Settles false true := by
  fun_induction havingConditions indent nodes with
  | case1 => exact settles_emit settles_endLine
  | case2 word => exact (settles_emit (.add (settles_add _))).bind fun _ ↦ settles_fail _
  | case3 word node rest ih =>
    exact (settles_emit (.add (settles_add _))).bind fun _ ↦
      (settles_havingCondition node).bind fun _ ↦ ih
  | case4 node rest _ _ ih =>
    exact (settles_emit (settles_add _)).bind fun _ ↦ (settles_havingCondition node).bind fun _ ↦ ih

/-! ### Statements -/

theorem settles_groupEdits (indent : Int) (items : List Node) :
    Edit.Settles true (groupEdits indent items) true := by
  induction items with
  | nil => exact settles_nil
  | cons item rest ih => exact .add (.add (.add (.endLine ih)))

theorem settles_plainConditionEdits (indent : Int) (parts : List Node) :
    Edit.Settles false (plainConditionEdits indent parts) false := by
  fun_cases plainConditionEdits indent parts with
  | case5 left op items =>
    exact .add (.endLine (settles_groupEdits indent items).loosely)
  | case6 => exact settles_nil
  | _ => exact settles_add _

theorem isAdd_notEdits (parts : List Node) : (notEdits parts).all isAdd = true := by
  unfold notEdits
  split <;> rfl

theorem settles_plainCondition (indent : Int) (parts : List Node) :
    Edit.Settles false (notEdits parts ++ plainConditionEdits indent (detachNot parts) ++ [.endLine])
      true :=
  ((settles_adds (isAdd_notEdits parts)).append (settles_plainConditionEdits indent _)).append
    settles_endLine

theorem settles_membership (left : Term) (op : String) (query : List Node) {laid : Draft (List Node)}
    (h : laid.Settles true true) : (membership left op query laid).Settles false true := by
  unfold membership
  split
  · exact (settles_emit (.add settles_endLine)).bind fun _ ↦ h.bind fun _ ↦
      (settles_emit (.extendLast settles_endLine)).bind_pure
  · exact (settles_emit settles_endLine).bind_pure

theorem settles_tableEdits (table : String) (columns : List Node) :
    Edit.Settles true (tableEdits table columns) true := by
  refine .addLine (.addLine ?_)
  split
  · exact settles_nil
  · exact .extendLast settles_nil

theorem settles_rowEdits (rows : List (List Node)) : Edit.Settles true (rowEdits rows) true := by
  induction rows with
  | nil => exact settles_nil
  | cons row rest ih =>
    have hcomma : Edit.Settles true (if rest.isEmpty then [] else [.extendLast ","]) true := by
      split
      · exact settles_nil
      · exact .extendLast settles_nil
    exact .addLine (hcomma.append ih)

theorem settles_condition {indent : Int} {node : Node}
    (h : ∀ values, valuesOf node = .ok values → (conditionValues indent values).Settles false true) :
    (condition indent node).Settles false true := by
  cases hvalues : valuesOf node with
  | ok values =>
    rw [condition_of_values hvalues]
    exact (h values hvalues).bind_pure
  | error fault =>
    rw [condition_of_no_values hvalues]
    exact settles_fail _

/-- Every statement leaves no piece pending, whatever its tree. -/
theorem settles_layout :
    (∀ indent nodes, (statements indent nodes).Settles true true) ∧
      (∀ indent node, (statement indent node).Settles true true) ∧
      (∀ indent nodes, (conditions indent nodes).Settles true true) ∧
      ∀ indent values, (conditionValues indent values).Settles false true := by
  apply layout_induct
  case select =>
    intro indent word items
    exact (settles_emit (.addLine (settles_selectItemsEdits indent items))).bind_pure
  case fromTables =>
    intro indent word parts
    exact ((settles_emit (settles_addLine _)).bind fun _ ↦ settles_fromParts indent parts).bind_pure
  case where_ =>
    intro indent word nodes ih
    exact (settles_emit (settles_addLine _)).bind fun _ ↦ ih.bind_pure
  case groupBy =>
    intro indent items rollup
    exact (settles_emit (settles_groupByEdits indent items rollup)).bind_pure
  case having_ =>
    intro indent word nodes
    exact ((settles_emit (settles_addLine _)).bind fun _ ↦
      (settles_havingConditions indent nodes).anywhere).bind_pure
  case orderBy =>
    intro indent items
    exact ((settles_emit (settles_addLine _)).bind fun _ ↦ settles_orderItems indent items).bind_pure
  case limit =>
    intro indent count offset offsetWord
    exact (settles_emit (settles_addLine _)).bind_pure
  case insertRows =>
    intro indent word table rows columns query
    exact (settles_emit ((settles_tableEdits table columns).append
      (.addLine (settles_rowEdits rows.2)))).bind_pure
  case insertQuery =>
    intro indent word table columns query ih
    refine (settles_emit (settles_tableEdits table columns)).bind fun _ ↦ ?_
    split
    · exact settles_pure _
    · exact ih.bind_pure
  case semicolon =>
    intro indent text
    exact (settles_emit (.extendLast settles_nil)).bind_pure
  case unknown =>
    intro indent node hunknown
    rw [hunknown]
    exact settles_fail _
  case done =>
    intro indent
    exact (settles_emit settles_endLine).bind_pure
  case next =>
    intro indent node rest hnode hrest
    rw [statements]
    refine hnode.bind fun _ ↦ Settles.bind ?_ fun _ ↦ hrest.bind_pure
    split
    · exact settles_emit (.blankLines settles_nil)
    · exact settles_emit settles_nil
  case noCondition =>
    intro indent
    exact settles_pure _
  case lastLink =>
    intro indent word
    exact (settles_emit (.add (settles_add _))).bind fun _ ↦ settles_fail _
  case linked =>
    intro indent word node rest hnode hrest
    exact (settles_emit (.add (settles_add _))).bind fun _ ↦ (settles_condition hnode).bind fun _ ↦
      hrest.bind_pure
  case unlinked =>
    intro indent node rest hlink hnode hrest
    rw [conditions_cons indent hlink]
    exact (settles_emit (settles_add _)).bind fun _ ↦ (settles_condition hnode).bind fun _ ↦
      hrest.bind_pure
  case negatedQuery =>
    intro indent word left op query ih
    exact (settles_emit (settles_add _)).bind fun _ ↦ (settles_membership left op query ih).bind_pure
  case comparedQuery =>
    intro indent left op query ih
    exact (settles_membership left op query ih).bind_pure
  case noQuery =>
    intro indent values hnegated hplain
    rw [conditionValues]
    · exact (settles_emit (settles_plainCondition indent values)).bind_pure
    · exact hnegated
    · exact hplain

/-! ### One list behind another -/

def gapBetween (first second : List Node) : List String :=
  if first.getLast?.any isSemicolon && !second.isEmpty then ["", ""] else []

/-- Only the last statement of a list decides on the empty lines behind it. -/
theorem gapBetween_cons (node : Node) {rest : List Node} (hrest : rest ≠ []) (second : List Node) :
    gapBetween (node :: rest) second = gapBetween rest second := by
  obtain ⟨other, rest, rfl⟩ := List.exists_cons_of_ne_nil hrest
  rw [gapBetween, List.getLast?_cons_cons, ← gapBetween]

theorem eq_behind_of_pending {buffer : LineBuffer} (h : buffer.pending = []) :
    buffer = ({} : LineBuffer).behind buffer.lines := by
  obtain ⟨pending, lines⟩ := buffer
  obtain rfl : pending = [] := h
  simp [LineBuffer.behind]

theorem lines_endLine_finished (front : List String) :
    (({} : LineBuffer).behind front).endLine.lines = front := by
  rw [LineBuffer.endLine_behind]
  exact List.append_nil front

/-- What stands in a buffer where the statements behind a node start. -/
theorem afterNode_eq (node : Node) (second : List Node) {buffer : LineBuffer}
    (h : buffer.pending = []) :
    (if isSemicolon node && !second.isEmpty then buffer.blankLines 2 else buffer) =
      ({} : LineBuffer).behind (buffer.lines ++ gapBetween [node] second) := by
  have hlines : buffer.endLine.lines = buffer.lines := by simp [LineBuffer.endLine, h]
  rw [gapBetween, List.getLast?_singleton, Option.any_some]
  split
  · rw [LineBuffer.blankLines_two, hlines]
  · rw [List.append_nil]
    exact eq_behind_of_pending h

/-- The induction is on the first list.  No statement of it leaves a piece pending, so at its end the buffer
has finished lines only. -/
theorem write_statements_append {indent : Int} {first second tree left : List Node}
    {front : List String} {last laid : LineBuffer}
    (hfirst : (statements indent first).write (({} : LineBuffer).behind front) = .ok (tree, last))
    (hsecond : (statements indent second).write {} = .ok (left, laid)) :
    (statements indent (first ++ second)).write (({} : LineBuffer).behind front) =
      .ok (tree ++ left, laid.behind (last.lines ++ gapBetween first second)) := by
  induction first generalizing front tree with
  | nil =>
    cases hfirst
    have hgap : gapBetween [] second = [] := rfl
    rw [lines_endLine_finished, hgap, List.append_nil]
    exact Draft.write_behind hsecond front
  | cons node rest ih =>
    rw [write_statements_cons] at hfirst
    rw [List.cons_append, write_statements_cons]
    obtain ⟨⟨found, next⟩, hfound, hrest⟩ := Read.bind_eq_ok.mp hfirst
    obtain ⟨⟨others, done⟩, hmore, hdone⟩ := Read.map_eq_ok.mp hrest
    cases hdone
    have hnext : next.pending = [] := (settles_layout.2.1 indent node).pending_eq (fun _ ↦ rfl) hfound
    refine Read.bind_eq_ok.mpr ⟨_, hfound, Read.map_eq_ok.mpr ⟨(others ++ left, _), ?_, rfl⟩⟩
    dsimp only at hmore ⊢
    rw [afterNode_eq node _ hnext] at hmore ⊢
    cases rest with
    | nil =>
      cases hmore
      have hgap : gapBetween [node] [] = [] := by simp [gapBetween]
      rw [hgap, List.append_nil, lines_endLine_finished]
      exact Draft.write_behind hsecond (next.lines ++ gapBetween [node] second)
    | cons other rest =>
      rw [gapBetween_cons node (List.cons_ne_nil other rest)]
      exact ih hmore

/-- Statements are laid out independently of those in front of them. -/
theorem style_append (indent : Int) {first second : List Node} {styled other : Styled}
    (hfirst : style indent first = .ok styled) (hsecond : style indent second = .ok other) :
    style indent (first ++ second) =
      .ok ⟨styled.lines ++ gapBetween first second ++ other.lines, styled.tree ++ other.tree⟩ := by
  obtain ⟨⟨tree, last⟩, hlast, hstyled⟩ := Read.bind_eq_ok.mp hfirst
  obtain ⟨⟨left, laid⟩, hlaid, hother⟩ := Read.bind_eq_ok.mp hsecond
  cases hstyled
  cases hother
  have hempty : ({} : LineBuffer) = ({} : LineBuffer).behind [] := rfl
  rw [hempty] at hlast
  rw [style, hempty, write_statements_append hlast hlaid]
  rfl

/-- `insert into t (a) select b where not c in (select d);` -/
def storedSearch : List Node :=
  [.insertClause "insert into" "t" none [.plain .identifier "a"]
      [.selectClause "select" [.plain .identifier "b"],
        .whereClause "where" [.condition [.not "not", .plain .identifier "c", .operator "in",
          .subselect [.selectClause "select" [.plain .identifier "d"]]]]],
    .semicolon ";"]

/-- `having not count(a) > 1 limit 2;` -/
def limitedCount : List Node :=
  [.havingClause "having" [.condition [.not "not", .call "count" [.plain .identifier "a"] none none,
      .operator ">", .plain .number "1"]],
    .limitClause ⟨.number, "2", none, none, none⟩ none none, .semicolon ";"]

theorem exists_style_of_toOption {indent : Int} {nodes : List Node} {lines : List String}
    (h : (style indent nodes).toOption.map Styled.lines = some lines) :
    ∃ styled, style indent nodes = .ok styled ∧ styled.lines = lines := by
  cases hstyle : style indent nodes with
  | error fault =>
    rw [hstyle] at h
    cases h
  | ok styled =>
    rw [hstyle] at h
    exact ⟨styled, rfl, Option.some.inj h⟩

theorem style_append_storedSearch :
    ∃ styled, style 1 (storedSearch ++ limitedCount) = .ok styled ∧
      styled.lines =
        ["INSERT INTO", "    t (a)", "    SELECT", "        b", "    WHERE", "        NOT c IN (",
            "            SELECT", "                d);"] ++ ["", ""] ++
          ["    HAVING", "        NOT COUNT(a) > 1", "    LIMIT 2;"] := by
  have hlines : (style 1 storedSearch).toOption.map Styled.lines = some
        ["INSERT INTO", "    t (a)", "    SELECT", "        b", "    WHERE", "        NOT c IN (",
            "            SELECT", "                d);"] ∧
      (style 1 limitedCount).toOption.map Styled.lines = some
        ["    HAVING", "        NOT COUNT(a) > 1", "    LIMIT 2;"] := by decide +kernel
  obtain ⟨styled, hstyled, hfirst⟩ := exists_style_of_toOption hlines.1
  obtain ⟨other, hother, hsecond⟩ := exists_style_of_toOption hlines.2
  refine ⟨_, style_append 1 hstyled hother, ?_⟩
  rw [hfirst, hsecond]
  rfl

end Layout

end SqlLayout
