import SqlLayout.Proofs.Layout.UpperCase
import SqlLayout.Proofs.Read.Trees

/-!
# How the layout of a tree that was read ends

The layout expects a certain class in certain places: a table behind a join, a comparison of a name with
a number in HAVING, a statement that it knows.  Where a tree that was read keeps these three, its
layout ends with lines or finds the statement invalid, and with nothing else.
-/

namespace SqlLayout.Layout

open Read

def FailsOnly {α : Type} (allowed : Fault → Prop) (draft : Draft α) : Prop :=
  ∀ fault, draft.outcome = .error fault → allowed fault

/-- The only fault of the draft is that a statement is invalid. -/
def IsSafe {α : Type} (draft : Draft α) : Prop :=
  ∀ fault, draft.outcome = .error fault → fault = .invalidStatement

section Drafts

variable {α β : Type} {allowed : Fault → Prop}

theorem FailsOnly.bind {first : Draft α} {next : α → Draft β} (hfirst : FailsOnly allowed first)
    (hnext : ∀ result, FailsOnly allowed (next result)) : FailsOnly allowed (first >>= next) := by
  intro fault h
  cases houtcome : first.outcome with
  | error stop =>
    rw [Draft.bind_of_error houtcome] at h
    cases h
    exact hfirst _ houtcome
  | ok result =>
    rw [Draft.bind_of_ok houtcome] at h
    exact hnext result fault h

theorem IsSafe.failsOnly {draft : Draft α} (h : IsSafe draft) (hinvalid : allowed .invalidStatement) :
    FailsOnly allowed draft := by
  intro fault hfault
  rw [h fault hfault]
  exact hinvalid

/-- Edits do not fail, so a draft behind them fails as before. -/
theorem failsOnly_emit_bind {edits : List Edit} {next : Unit → Draft β}
    (h : FailsOnly allowed (next ())) : FailsOnly allowed (Draft.emit edits >>= next) := by
  apply FailsOnly.bind _ fun _ ↦ h
  intro fault hfault
  cases hfault

theorem isSafe_emit (edits : List Edit) : IsSafe (Draft.emit edits) := by
  intro fault h
  cases h

theorem isSafe_pure (result : α) : IsSafe (pure result : Draft α) := by
  intro fault h
  cases h

theorem isSafe_fail : IsSafe (Draft.fail .invalidStatement : Draft α) := by
  intro fault h
  cases h
  rfl

theorem IsSafe.bind {first : Draft α} {next : α → Draft β} (hfirst : IsSafe first)
    (hnext : ∀ result, IsSafe (next result)) : IsSafe (first >>= next) :=
  FailsOnly.bind hfirst hnext

theorem isSafe_emit_bind {edits : List Edit} {next : Unit → Draft β} (h : IsSafe (next ())) :
    IsSafe (Draft.emit edits >>= next) :=
  (isSafe_emit edits).bind fun _ ↦ h

theorem IsSafe.write {draft : Draft α} (h : IsSafe draft) (buffer : LineBuffer) :
    (∃ written, draft.write buffer = .ok written) ∨
      draft.write buffer = .error .invalidStatement := by
  unfold Draft.write
  split
  · exact .inr rfl
  · rename_i written _
    cases houtcome : draft.outcome with
    | error fault =>
      rw [h fault houtcome]
      exact .inr rfl
    | ok result => exact .inl ⟨(result, written), rfl⟩

end Drafts

/-! ### Clauses -/

theorem isSafe_named_term (t : Term) : IsSafe (named (.term t)) :=
  isSafe_emit_bind (isSafe_emit _)

/-- Whether a name or a number stands behind each join that is not the last part. -/
def joinsNamed : List Node → Bool
  | [] => true
  | .join _ :: next :: rest => (next.isIdentifier || next.isNumber) && joinsNamed (next :: rest)
  | _ :: rest => joinsNamed rest

def hasTables : Node → Bool
  | .fromClause _ parts => joinsNamed parts
  | _ => true

theorem joinsNamed_tail {part : Node} {rest : List Node} (h : joinsNamed (part :: rest) = true) :
    joinsNamed rest = true := by
  unfold joinsNamed at h
  split at h
  · rename_i heq
    cases heq
  · rename_i heq
    cases heq
    exact (Bool.and_eq_true _ _ ▸ h).2
  · rename_i heq
    cases heq
    exact h

theorem isSafe_fromParts (indent : Int) {parts : List Node} (h : joinsNamed parts = true) :
    IsSafe (fromParts indent parts) := by
  fun_induction fromParts indent parts with
  | case1 => exact isSafe_pure ()
  | case2 word => exact isSafe_emit_bind isSafe_fail
  | case3 word table rest ih =>
    have hrest := ih (joinsNamed_tail (joinsNamed_tail h))
    have htable : IsSafe (named table) := by
      cases table with
      | term t => exact isSafe_named_term t
      | _ => simp [joinsNamed, Node.isIdentifier, Node.isNumber] at h
    exact isSafe_emit_bind (htable.bind fun _ ↦ isSafe_emit_bind hrest)
  | case4 word parts => exact isSafe_emit _
  | case5 word parts next rest ih =>
    exact isSafe_emit_bind (ih (joinsNamed_tail (joinsNamed_tail h)))
  | case6 part rest _ _ _ _ _ hname ih =>
    have hrest := ih (joinsNamed_tail h)
    cases part with
    | term t =>
      exact isSafe_emit_bind ((isSafe_named_term t).bind fun _ ↦
        isSafe_emit_bind (isSafe_emit_bind hrest))
    | _ => cases hname
  | case7 part rest _ _ _ _ _ _ ih => exact isSafe_emit_bind (ih (joinsNamed_tail h))

theorem isSafe_orderItems (indent : Int) {items : List Node}
    (h : ∀ item ∈ items, item.isTerm = true) : IsSafe (orderItems indent items) := by
  induction items with
  | nil => exact isSafe_pure ()
  | cons item rest ih =>
    obtain ⟨hitem, hrest⟩ := List.forall_mem_cons.mp h
    cases item with
    | term t =>
      exact isSafe_emit_bind ((isSafe_emit _).bind fun _ ↦ isSafe_emit_bind (ih hrest))
    | _ => cases hitem

def isLink : Node → Bool
  | .link _ => true
  | _ => false

def isCounted : Node → Bool
  | .condition [left, .operator _, right] => left.isIdentifier && right.isNumber
  | _ => false

def hasCounts : Node → Bool
  | .havingClause _ nodes => nodes.all fun node ↦ isLink node || isCounted node
  | _ => true

theorem isSafe_havingCondition {node : Node} (h : isCounted node = true) :
    IsSafe (havingCondition node) := by
  unfold isCounted at h
  split at h
  · rw [havingCondition_condition, havingValues, h]
    exact isSafe_emit _
  · cases h

theorem isSafe_havingConditions (indent : Int) {nodes : List Node}
    (h : Alternate (isCounted · = true) nodes) : IsSafe (havingConditions indent nodes) := by
  induction h with
  | nil => exact isSafe_emit _
  | last word => exact isSafe_emit_bind isSafe_fail
  | link word hnode _ ih =>
    exact isSafe_emit_bind ((isSafe_havingCondition hnode).bind fun _ ↦ ih)
  | node hnode _ ih =>
    exact isSafe_emit_bind ((isSafe_havingCondition hnode).bind fun _ ↦ ih)

theorem isSafe_condition (indent : Int) {node : Node} (h : IsCondition node) :
    IsSafe (condition indent node) := by
  have hplain : ∀ parts, IsSafe (do
      Draft.emit (notEdits parts ++ plainConditionEdits indent (detachNot parts) ++ [.endLine])
      return Node.condition (detachNot parts)) := fun parts ↦ isSafe_emit_bind (isSafe_pure _)
  cases h with
  | plain h => cases h <;> exact hplain _
  | negatedCall word name args asWord aliasName op hright => cases hright <;> exact hplain _
  | membership op items hleft => cases hleft <;> exact hplain _

theorem isSafe_conditions (indent : Int) {nodes : List Node} (h : Alternate IsCondition nodes) :
    IsSafe (conditions indent nodes) := by
  induction h with
  | nil => exact isSafe_pure _
  | last word => exact isSafe_emit_bind isSafe_fail
  | link word hnode _ ih =>
    exact isSafe_emit_bind ((isSafe_condition indent hnode).bind fun _ ↦
      ih.bind fun _ ↦ isSafe_pure _)
  | node hnode _ ih =>
    exact isSafe_emit_bind ((isSafe_condition indent hnode).bind fun _ ↦
      ih.bind fun _ ↦ isSafe_pure _)

/-! ### Statements -/

/-- `part.StatedIn node` says that a part is the node or a statement of the query that the node stores, at
any depth. -/
inductive StatedIn : Node → Node → Prop
  | self (node : Node) : StatedIn node node
  | query {part child : Node} {word table : String} {rows : Option (String × List (List Node))}
      {columns query : List Node} : child ∈ query → StatedIn part child →
      StatedIn part (.insertClause word table rows columns query)

structure IsLayable (node : Node) : Prop where
  isStatement : node.isStatement = true
  wellBuilt : WellBuilt node
  noCall : ∀ part, StatedIn part node → part.isCall = false
  joins : node.Everywhere (hasTables · = true)
  having : node.Everywhere (hasCounts · = true)

def HavingFailsOnly (allowed : Fault → Prop) (indent : Int) : Node → Prop
  | .havingClause _ nodes => FailsOnly allowed (havingConditions indent nodes)
  | _ => True

structure FailsByHaving (allowed : Fault → Prop) (indent : Int) (node : Node) : Prop where
  isStatement : node.isStatement = true
  wellBuilt : WellBuilt node
  noCall : ∀ part, StatedIn part node → part.isCall = false
  joins : node.Everywhere (hasTables · = true)
  having : node.Everywhere (HavingFailsOnly allowed indent)

section Statements

variable {allowed : Fault → Prop} {indent : Int}

theorem FailsByHaving.of_query {word table : String} {rows : Option (String × List (List Node))}
    {columns query : List Node}
    (h : FailsByHaving allowed indent (.insertClause word table rows columns query))
    {child : Node} (hchild : child ∈ query) : FailsByHaving allowed indent child := by
  have hmem : child ∈ (Node.insertClause word table rows columns query).children :=
    List.mem_append_right _ hchild
  have hfits := wellBuilt_iff.mp h.wellBuilt
  constructor
  · exact hfits.1.2.2 child hchild
  · exact hfits.2 child hmem
  · exact fun part hpart ↦ h.noCall part (.query hchild hpart)
  · exact (Node.everywhere_iff.mp h.joins).2 child hmem
  · exact (Node.everywhere_iff.mp h.having).2 child hmem

mutual

theorem failsOnly_statement (hinvalid : allowed .invalidStatement) {node : Node}
    (h : FailsByHaving allowed indent node) : FailsOnly allowed (statement indent node) := by
  have hfits := (wellBuilt_iff.mp h.wellBuilt).1
  have hpure : ∀ node : Node, FailsOnly allowed (pure node : Draft Node) :=
    fun node ↦ (isSafe_pure node).failsOnly hinvalid
  cases node with
  | selectClause word items => exact failsOnly_emit_bind (hpure _)
  | fromClause word parts =>
    have hparts := isSafe_fromParts indent (h.joins _ (.self _))
    exact ((isSafe_emit_bind hparts).failsOnly hinvalid).bind fun _ ↦ hpure _
  | whereClause word nodes =>
    have hnodes := (alternate_of_areLinked hfits fun _ _ hnode ↦ hnode).1
    apply failsOnly_emit_bind
    exact ((isSafe_conditions indent hnodes).failsOnly hinvalid).bind fun _ ↦ hpure _
  | groupByClause items rollup => exact failsOnly_emit_bind (hpure _)
  | havingClause word nodes =>
    have hconditions : FailsOnly allowed (havingConditions indent nodes) := h.having _ (.self _)
    exact (failsOnly_emit_bind hconditions).bind fun _ ↦ hpure _
  | orderByClause items =>
    have hitems := isSafe_orderItems indent hfits
    exact ((isSafe_emit_bind hitems).failsOnly hinvalid).bind fun _ ↦ hpure _
  | limitClause count offset offsetWord => exact failsOnly_emit_bind (hpure _)
  | insertClause word table rows columns query =>
    cases rows with
    | some rows => exact failsOnly_emit_bind (hpure _)
    | none =>
      have hquery := failsOnly_statements hinvalid fun child hchild ↦ h.of_query hchild
      apply failsOnly_emit_bind
      split
      · exact hpure _
      · exact hquery.bind fun _ ↦ hpure _
  | semicolon text => exact failsOnly_emit_bind (hpure _)
  | call name args asWord aliasName => cases h.noCall _ (.self _)
  | _ => cases h.isStatement

theorem failsOnly_statements (hinvalid : allowed .invalidStatement) {nodes : List Node}
    (h : ∀ node ∈ nodes, FailsByHaving allowed indent node) :
    FailsOnly allowed (statements indent nodes) := by
  have hpure : ∀ nodes : List Node, FailsOnly allowed (pure nodes : Draft (List Node)) :=
    fun nodes ↦ (isSafe_pure nodes).failsOnly hinvalid
  cases nodes with
  | nil => exact failsOnly_emit_bind (hpure _)
  | cons node rest =>
    obtain ⟨hnode, hrest⟩ := List.forall_mem_cons.mp h
    have hfirst := failsOnly_statement hinvalid hnode
    have hothers := failsOnly_statements hinvalid hrest
    exact hfirst.bind fun _ ↦ failsOnly_emit_bind (hothers.bind fun _ ↦ hpure _)

end

end Statements

theorem isSafe_statements (indent : Int) {nodes : List Node} (h : ∀ node ∈ nodes, IsLayable node) :
    IsSafe (statements indent nodes) := by
  have hfails : ∀ node ∈ nodes, FailsByHaving (· = .invalidStatement) indent node := by
    intro node hnode
    obtain ⟨hstatement, hbuilt, hcalls, hjoins, hhaving⟩ := h node hnode
    refine ⟨hstatement, hbuilt, hcalls, hjoins, fun part hpart ↦ ?_⟩
    cases part with
    | havingClause word nodes =>
      have hcounts := List.all_eq_true.mp (hhaving _ hpart)
      apply isSafe_havingConditions indent
      apply (alternate_of_areLinked (hbuilt _ hpart) _).1
      intro node hmem hnode
      obtain ⟨parts, rfl⟩ := exists_parts_of_isCondition hnode
      exact hcounts _ hmem
    | _ => trivial
  refine failsOnly_statements ?_ hfails
  rfl

theorem wellBuilt_of_parse {tokens : List Token} {nodes : List Node}
    (h : parse tokens = .ok nodes) :
    ∀ node ∈ nodes, node.isStatement = true ∧ WellBuilt node := by
  unfold parse at h
  split at h
  · cases h
  · cases h
    intro node hnode
    obtain ⟨found, hfound, rfl⟩ := List.mem_map.mp hnode
    exact readStatements_delivers tokens.length tokens (Nat.le_refl _) found hfound

/-- If no statement that was read is a call, each join has its table and HAVING compares names with
numbers, then the layout gives lines or finds a statement invalid. -/
theorem style_ok_or_invalidStatement (indent : Int) {tokens : List Token} {nodes : List Node}
    (hparse : parse tokens = .ok nodes)
    (hcalls : ∀ node ∈ nodes, ∀ part, StatedIn part node → part.isCall = false)
    (hjoins : ∀ node ∈ nodes, node.Everywhere (hasTables · = true))
    (hhaving : ∀ node ∈ nodes, node.Everywhere (hasCounts · = true)) :
    (∃ styled, style indent nodes = .ok styled) ∨
      style indent nodes = .error .invalidStatement := by
  have hlayable : ∀ node ∈ nodes, IsLayable node := by
    intro node hnode
    obtain ⟨hstatement, hbuilt⟩ := wellBuilt_of_parse hparse node hnode
    exact ⟨hstatement, hbuilt, hcalls node hnode, hjoins node hnode, hhaving node hnode⟩
  unfold style
  rcases (isSafe_statements indent hlayable).write {} with ⟨written, hwritten⟩ | hinvalid
  · rw [hwritten]
    exact .inl ⟨_, rfl⟩
  · rw [hinvalid]
    exact .inr rfl

/-- `insert into t select a from b join c having n > 1` -/
def storedCount : List Token :=
  [⟨.insertWord, "insert into"⟩, ⟨.identifier, "t"⟩, ⟨.selectWord, "select"⟩, ⟨.identifier, "a"⟩,
    ⟨.fromWord, "from"⟩, ⟨.identifier, "b"⟩, ⟨.join, "join"⟩, ⟨.identifier, "c"⟩,
    ⟨.havingWord, "having"⟩, ⟨.identifier, "n"⟩, ⟨.compare, ">"⟩, ⟨.number, "1"⟩]

theorem style_storedCount_ok_or_invalidStatement :
    ∃ node, parse storedCount = .ok [node] ∧ ((∃ styled, style 0 [node] = .ok styled) ∨
      style 0 [node] = .error .invalidStatement) := by
  have hparse : parse storedCount = .ok [.insertClause "insert into" "t" none []
      [.selectClause "select" [.plain .identifier "a"],
        .fromClause "from" [.plain .identifier "b", .join "join", .plain .identifier "c"],
        .havingClause "having" [.condition [.plain .identifier "n", .operator ">",
          .plain .number "1"]]]] := rfl
  refine ⟨_, hparse, style_ok_or_invalidStatement 0 hparse ?_ ?_ ?_⟩
  · intro node hnode part hpart
    obtain rfl := List.mem_singleton.mp hnode
    cases hpart with
    | self => rfl
    | query hchild hpart =>
      simp only [List.mem_cons, List.not_mem_nil, or_false] at hchild
      rcases hchild with rfl | rfl | rfl <;> cases hpart <;> rfl
  · intro node hnode
    obtain rfl := List.mem_singleton.mp hnode
    exact Node.everywhere_of_allTo 4 rfl
  · intro node hnode
    obtain rfl := List.mem_singleton.mp hnode
    exact Node.everywhere_of_allTo 4 rfl

end SqlLayout.Layout
