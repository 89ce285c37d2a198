import SqlLayout.Proofs.Regular
import SqlLayout.Proofs.Tree

/-!
# Well-built trees

A node fits if its children are of the sorts that its reader puts there, and a tree is well built if all
its nodes fit.  Regular trees are well built.
-/

namespace SqlLayout.Node

def isTerm : Node → Bool
  | term _ => true
  | _ => false

def isCall : Node → Bool
  | call .. => true
  | _ => false

def isOperand : Node → Bool
  | term _ | call .. => true
  | _ => false

def isBranch : Node → Bool
  | whenThen .. | otherwise .. => true
  | _ => false

def isItem : Node → Bool
  | term _ | call .. | caseOf .. => true
  | _ => false

def isFromPart : Node → Bool
  | term _ | join _ | onClause .. => true
  | _ => false

def isStatement : Node → Bool
  | call .. | selectClause .. | fromClause .. | whereClause .. | groupByClause .. | havingClause ..
  | orderByClause .. | limitClause .. | insertClause .. | semicolon _ => true
  | _ => false

end SqlLayout.Node

namespace SqlLayout.Read

open Node

variable {node : Node} {parts : List Node}

/-- The left side of a membership test and the right side of a negated call: a value or a bare NOT. -/
inductive IsValueOrNot : Node → Prop
  | term (t : Term) : IsValueOrNot (.term t)
  | not (word : String) : IsValueOrNot (.not word)

inductive IsPlainCondition : Node → Prop
  | negated (word : String) (left : Term) (op : String) (right : Term) :
      IsPlainCondition (.condition [.not word, .term left, .operator op, .term right])
  | between (left : Term) (word : String) (low : Term) (link : String) (high : Term) :
      IsPlainCondition (.condition [.term left, .between word, .term low, .link link, .term high])
  | comparison (left : Term) (op : String) (right : Term) :
      IsPlainCondition (.condition [.term left, .operator op, .term right])
  | isNull (left : Term) (word null : String) :
      IsPlainCondition (.condition [.term left, .is word, .null null])
  | isNotNull (left : Term) (word no null : String) :
      IsPlainCondition (.condition [.term left, .is word, .not no, .null null])

inductive IsCondition : Node → Prop
  | plain {node : Node} : IsPlainCondition node → IsCondition node
  | negatedCall (word name : String) (args : List Node) (asWord aliasName : Option String)
      (op : String) {right : Node} : IsValueOrNot right →
      IsCondition (.condition [.not word, .call name args asWord aliasName, .operator op, right])
  | membership {left : Node} (op : String) (items : List Node) : IsValueOrNot left →
      IsCondition (.condition [left, .operator op, .group items])

/-- Conditions with one link between each two.  A link may also be the last. -/
inductive AreLinked : List Node → Prop
  | nil : AreLinked []
  | last {node : Node} : IsCondition node → AreLinked [node]
  | link {node : Node} (word : String) {rest : List Node} : IsCondition node → AreLinked rest →
      AreLinked (node :: .link word :: rest)

inductive IsJoinPart : Node → Prop
  | link (word : String) : IsJoinPart (.link word)
  | comparison {left right : Node} (op : String) : left.isOperand = true →
      right.isOperand = true → IsJoinPart (.condition [left, .operator op, right])

def Fits : Node → Prop
  | .call _ args _ _ => ∀ arg ∈ args, arg.isOperand = true
  | .caseOf _ branches => ∀ branch ∈ branches, branch.isBranch = true
  | .group items => ∀ item ∈ items, item.isTerm = true
  | .subselect _ | .valuesClause .. => False
  | .onClause _ parts => ∀ part ∈ parts, IsJoinPart part
  | .selectClause _ items => ∀ item ∈ items, item.isItem = true
  | .fromClause _ parts => ∀ part ∈ parts, part.isFromPart = true
  | .whereClause _ conditions | .havingClause _ conditions => AreLinked conditions
  | .groupByClause items _ | .orderByClause items => ∀ item ∈ items, item.isTerm = true
  | .insertClause _ _ rows columns query =>
    (∀ values ∈ rows, ∀ row ∈ values.2, ∀ value ∈ row, value.isTerm = true) ∧
      (∀ column ∈ columns, column.isTerm = true) ∧ ∀ statement ∈ query, statement.isStatement = true
  | _ => True

def WellBuilt (node : Node) : Prop :=
  node.Everywhere Fits

theorem wellBuilt_iff : WellBuilt node ↔ Fits node ∧ ∀ child ∈ node.children, WellBuilt child :=
  everywhere_iff

theorem wellBuilt_of_isTerm (h : node.isTerm = true) : WellBuilt node := by
  cases node with
  | term t => exact everywhere_leaf trivial rfl
  | _ => cases h

theorem wellBuilt_of_isBranch (h : node.isBranch = true) : WellBuilt node := by
  cases node with
  | whenThen whenWord tested thenWord result => exact everywhere_leaf trivial rfl
  | otherwise elseWord result => exact everywhere_leaf trivial rfl
  | _ => cases h

variable {node : Node}

theorem wellBuilt_condition (h : ∀ part ∈ parts, WellBuilt part) : WellBuilt (.condition parts) :=
  wellBuilt_iff.mpr ⟨trivial, h⟩

theorem IsPlainCondition.wellBuilt (h : IsPlainCondition node) : WellBuilt node := by
  have hleaves : ∀ {parts : List Node}, (∀ part ∈ parts, Fits part ∧ part.children = []) →
      WellBuilt (.condition parts) := fun hparts ↦
    wellBuilt_condition fun part hpart ↦ everywhere_leaf (hparts part hpart).1 (hparts part hpart).2
  cases h <;> exact hleaves (by simp [Fits, children])

theorem IsValueOrNot.wellBuilt (h : IsValueOrNot node) : WellBuilt node := by
  cases h <;> exact everywhere_leaf trivial rfl

theorem isOperand_of_isCall (h : node.isCall = true) : node.isOperand = true := by
  cases node <;> first | rfl | cases h

/-- A comparison of names and calls is a part of an ON, and well built if its sides are. -/
theorem isJoinPart_comparison {left right : Node} (op : String)
    (hleft : left.isOperand = true ∧ WellBuilt left)
    (hright : right.isOperand = true ∧ WellBuilt right) :
    IsJoinPart (.condition [left, .operator op, right]) ∧
      WellBuilt (.condition [left, .operator op, right]) := by
  refine ⟨.comparison op hleft.1 hright.1, wellBuilt_condition ?_⟩
  simp only [List.forall_mem_cons, List.not_mem_nil, false_imp_iff, implies_true, and_true]
  exact ⟨hleft.2, everywhere_leaf trivial rfl, hright.2⟩

theorem wellBuilt_limitClause (number : Term) (offset : Option Term) (offsetWord : Option String) :
    WellBuilt (.limitClause number offset offsetWord) := by
  refine wellBuilt_iff.mpr ⟨trivial, fun child hchild ↦ wellBuilt_of_isTerm ?_⟩
  rcases List.mem_cons.mp hchild with rfl | hchild
  · rfl
  · obtain ⟨t, -, rfl⟩ := Option.map_eq_some_iff.mp (Option.mem_toList.mp hchild)
    rfl

inductive Alternate (good : Node → Prop) : List Node → Prop
  | nil : Alternate good []
  | last (word : String) : Alternate good [.link word]
  | link (word : String) {node : Node} {rest : List Node} : good node → Alternate good rest →
      Alternate good (.link word :: node :: rest)
  | node {parts rest : List Node} : good (.condition parts) → Alternate good rest →
      Alternate good (.condition parts :: rest)

theorem exists_parts_of_isCondition (h : IsCondition node) : ∃ parts, node = .condition parts := by
  cases h with
  | plain h => cases h <;> exact ⟨_, rfl⟩
  | negatedCall word name args asWord aliasName op hright => exact ⟨_, rfl⟩
  | membership op items hleft => exact ⟨_, rfl⟩

theorem alternate_of_areLinked {good : Node → Prop} {nodes : List Node} (h : AreLinked nodes)
    (hgood : ∀ node ∈ nodes, IsCondition node → good node) :
    Alternate good nodes ∧ ∀ word, Alternate good (.link word :: nodes) := by
  induction h with
  | nil => exact ⟨.nil, .last⟩
  | @last node hnode =>
    have hfirst := hgood node (List.mem_cons_self ..) hnode
    obtain ⟨parts, rfl⟩ := exists_parts_of_isCondition hnode
    exact ⟨.node hfirst .nil, fun word ↦ .link word hfirst .nil⟩
  | @link node word rest hnode _ ih =>
    have hfirst := hgood node (List.mem_cons_self ..) hnode
    have hrest := (ih fun node hmem ↦ hgood node (by simp [hmem])).2 word
    obtain ⟨parts, rfl⟩ := exists_parts_of_isCondition hnode
    exact ⟨.node hfirst hrest, fun word ↦ .link word hfirst hrest⟩

/-! ### Regular trees -/

mutual

theorem wellBuilt_of_isArg {node : Node} (h : Regular.isArg node = true) :
    node.isOperand = true ∧ WellBuilt node := by
  cases node with
  | term t => exact ⟨rfl, everywhere_leaf trivial rfl⟩
  | call name args asWord aliasName =>
    simp only [Regular.isArg, Bool.and_eq_true] at h
    have hargs := wellBuilt_of_areArgs h.1.1
    refine ⟨rfl, wellBuilt_iff.mpr ⟨fun arg harg ↦ (hargs arg harg).1, ?_⟩⟩
    exact fun arg harg ↦ (hargs arg harg).2
  | _ => cases h

theorem wellBuilt_of_areArgs {args : List Node} (h : Regular.areArgs args = true) :
    ∀ arg ∈ args, arg.isOperand = true ∧ WellBuilt arg := by
  cases args with
  | nil => simp
  | cons arg rest =>
    simp only [Regular.areArgs, Bool.and_eq_true] at h
    exact List.forall_mem_cons.mpr ⟨wellBuilt_of_isArg h.1, wellBuilt_of_areArgs h.2⟩

end

theorem isBranch_of_regular (h : Regular.isBranch node = true) : node.isBranch = true := by
  cases node with
  | whenThen whenWord tested thenWord result => rfl
  | otherwise elseWord result => rfl
  | _ => cases h

theorem wellBuilt_of_isItem (h : Regular.isItem node = true) :
    node.isItem = true ∧ WellBuilt node := by
  cases node with
  | term t => exact ⟨rfl, everywhere_leaf trivial rfl⟩
  | call name args asWord aliasName => exact ⟨rfl, (wellBuilt_of_isArg h).2⟩
  | caseOf word branches =>
    have hbranches : ∀ branch ∈ branches, branch.isBranch = true := fun branch hbranch ↦
      isBranch_of_regular (List.all_eq_true.mp h branch hbranch)
    exact ⟨rfl, wellBuilt_iff.mpr ⟨hbranches, fun branch hbranch ↦
      wellBuilt_of_isBranch (hbranches branch hbranch)⟩⟩
  | _ => cases h

theorem wellBuilt_of_isCall (h : Regular.isCall node = true) : node.isOperand = true ∧ WellBuilt node := by
  obtain ⟨name, args, asWord, aliasName, rfl, harg⟩ := Regular.exists_of_isCall h
  exact wellBuilt_of_isArg harg

theorem wellBuilt_of_regular_operand {left right : Node} {stage next : Nat}
    (h : Regular.Comparison stage next left right) :
    (left.isOperand = true ∧ WellBuilt left) ∧ right.isOperand = true ∧ WellBuilt right := by
  have hname : ∀ {node : Node}, Regular.isPlainName node = true →
      node.isOperand = true ∧ WellBuilt node := by
    intro node hnode
    obtain ⟨t, rfl, -⟩ := Regular.exists_of_isPlainName hnode
    exact ⟨rfl, everywhere_leaf trivial rfl⟩
  cases h with
  | names hleft hright => exact ⟨hname hleft, hname hright⟩
  | callOnRight _ hleft hright => exact ⟨hname hleft, wellBuilt_of_isCall hright⟩
  | callOnLeft _ hleft hright => exact ⟨wellBuilt_of_isCall hleft, hname hright⟩

theorem wellBuilt_of_areJoinParts {last : Bool} {stage : Nat}
    (h : Regular.areJoinParts last stage parts = true) :
    ∀ part ∈ parts, IsJoinPart part ∧ WellBuilt part := by
  induction parts generalizing stage with
  | nil => simp
  | cons part rest ih =>
    rcases Regular.areJoinParts_cons h with
      ⟨word, rfl, -, hrest⟩ | ⟨left, op, right, next, rfl, -, hform, hrest⟩ |
      ⟨left, op, right, rfl, -, hleft, hright, -, -, rfl⟩
    · exact List.forall_mem_cons.mpr ⟨⟨.link word, everywhere_leaf trivial rfl⟩, ih hrest⟩
    · obtain ⟨hleft, hright⟩ := wellBuilt_of_regular_operand hform
      exact List.forall_mem_cons.mpr ⟨isJoinPart_comparison op hleft hright, ih hrest⟩
    · exact List.forall_mem_singleton.mpr
        (isJoinPart_comparison op (wellBuilt_of_isCall hleft) (wellBuilt_of_isCall hright))

theorem wellBuilt_of_fromParts {last : Bool} (h : Regular.FromParts last parts) :
    ∀ part ∈ parts, part.isFromPart = true ∧ WellBuilt part := by
  have hjoin : ∀ word, (Node.join word).isFromPart = true ∧ WellBuilt (.join word) := fun _ ↦
    ⟨rfl, everywhere_leaf trivial rfl⟩
  have hterm : ∀ t, (Node.term t).isFromPart = true ∧ WellBuilt (.term t) := fun _ ↦
    ⟨rfl, everywhere_leaf trivial rfl⟩
  induction h with
  | nil => simp
  | @on join word t parts _ _ hparts =>
    have hon := wellBuilt_of_areJoinParts hparts
    have hbuilt : WellBuilt (.onClause word parts) :=
      wellBuilt_iff.mpr ⟨fun part hpart ↦ (hon part hpart).1, fun part hpart ↦ (hon part hpart).2⟩
    simp only [List.forall_mem_cons, List.not_mem_nil, false_imp_iff, implies_true, and_true]
    exact ⟨hjoin join, hterm t, rfl, hbuilt⟩
  | join _ _ _ ih => exact List.forall_mem_cons.mpr ⟨hjoin _, List.forall_mem_cons.mpr ⟨hterm _, ih⟩⟩
  | table _ _ _ ih => exact List.forall_mem_cons.mpr ⟨hterm _, ih⟩

theorem isTerm_of_isPlainTerm (h : Regular.isPlainTerm node = true) : node.isTerm = true := by
  obtain ⟨t, rfl, -⟩ := Regular.exists_of_isPlainTerm h
  rfl

theorem wellBuilt_of_regular_condition {membership : Bool} (h : Regular.Condition membership node) :
    IsCondition node ∧ WellBuilt node := by
  have hplain : ∀ {node : Node}, IsPlainCondition node → IsCondition node ∧ WellBuilt node :=
    fun h ↦ ⟨.plain h, h.wellBuilt⟩
  cases h with
  | comparison => exact hplain (.comparison ..)
  | negated => exact hplain (.negated ..)
  | between => exact hplain (.between ..)
  | isNull => exact hplain (.isNull ..)
  | isNotNull => exact hplain (.isNotNull ..)
  | @member left op items _ _ _ _ hitems =>
    have hterms : ∀ item ∈ items, item.isTerm = true := fun item hitem ↦
      isTerm_of_isPlainTerm (List.all_eq_true.mp hitems item hitem)
    have hgroup : WellBuilt (.group items) :=
      wellBuilt_iff.mpr ⟨hterms, fun item hitem ↦ wellBuilt_of_isTerm (hterms item hitem)⟩
    refine ⟨.membership op items (.term left), wellBuilt_condition ?_⟩
    simp only [List.forall_mem_cons, List.not_mem_nil, false_imp_iff, implies_true, and_true]
    exact ⟨everywhere_leaf trivial rfl, everywhere_leaf trivial rfl, hgroup⟩

theorem wellBuilt_of_areLinked {test : Node → Bool} {nodes : List Node}
    (htest : ∀ node, test node = true → IsCondition node ∧ WellBuilt node)
    (h : Regular.areLinked test nodes = true) :
    AreLinked nodes ∧ ∀ node ∈ nodes, WellBuilt node := by
  obtain ⟨node, rest, rfl, hnode, hrest⟩ := Regular.areLinked_cases h
  obtain ⟨hcondition, hbuilt⟩ := htest node hnode
  rcases hrest with rfl | ⟨word, next, more, rfl, hmore⟩
  · exact ⟨.last hcondition, by simpa using hbuilt⟩
  · obtain ⟨hothers, hbuiltOthers⟩ := wellBuilt_of_areLinked htest hmore
    refine ⟨.link word hcondition hothers, ?_⟩
    exact List.forall_mem_cons.mpr
      ⟨hbuilt, List.forall_mem_cons.mpr ⟨everywhere_leaf trivial rfl, hbuiltOthers⟩⟩
  termination_by nodes.length

/-- A clause of terms is well built. -/
theorem forall_wellBuilt_of_isTerm {items : List Node} {test : Node → Bool}
    (htest : ∀ item, test item = true → item.isTerm = true) (h : items.all test = true) :
    (∀ item ∈ items, item.isTerm = true) ∧ ∀ item ∈ items, WellBuilt item := by
  have hterms : ∀ item ∈ items, item.isTerm = true := fun item hitem ↦
    htest item (List.all_eq_true.mp h item hitem)
  exact ⟨hterms, fun item hitem ↦ wellBuilt_of_isTerm (hterms item hitem)⟩

theorem wellBuilt_fromClause_of_regular {last : Bool} (word : String)
    (h : Regular.areFromParts last parts = true) : WellBuilt (.fromClause word parts) := by
  have hparts := wellBuilt_of_fromParts (Regular.fromParts_of_areFromParts h)
  exact wellBuilt_iff.mpr ⟨fun part hpart ↦ (hparts part hpart).1, fun part hpart ↦ (hparts part hpart).2⟩

theorem wellBuilt_of_endsText (h : Regular.endsText node = true) :
    node.isStatement = true ∧ WellBuilt node := by
  rcases Regular.cases_of_endsText h with
    ⟨word, rfl⟩ | ⟨word, parts, rfl, -, hparts⟩ | ⟨word, rfl, -⟩ | rfl | ⟨word, rfl, -⟩ | rfl
  · exact ⟨rfl, wellBuilt_iff.mpr ⟨List.forall_mem_nil _, List.forall_mem_nil _⟩⟩
  · exact ⟨rfl, wellBuilt_fromClause_of_regular word hparts⟩
  · exact ⟨rfl, wellBuilt_iff.mpr ⟨.nil, List.forall_mem_nil _⟩⟩
  · exact ⟨rfl, wellBuilt_iff.mpr ⟨List.forall_mem_nil _, List.forall_mem_nil _⟩⟩
  · exact ⟨rfl, wellBuilt_iff.mpr ⟨.nil, List.forall_mem_nil _⟩⟩
  · exact ⟨rfl, wellBuilt_iff.mpr ⟨List.forall_mem_nil _, List.forall_mem_nil _⟩⟩

mutual

theorem wellBuilt_of_regular {node : Node} (h : Regular.isStatement node = true) :
    node.isStatement = true ∧ WellBuilt node := by
  cases node with
  | selectClause word items =>
    simp only [Regular.isStatement, Bool.and_eq_true, List.all_eq_true] at h
    have hitems : ∀ item ∈ items, item.isItem = true ∧ WellBuilt item := fun item hitem ↦
      wellBuilt_of_isItem (h.2 item hitem)
    refine ⟨rfl, wellBuilt_iff.mpr ⟨fun item hitem ↦ (hitems item hitem).1, ?_⟩⟩
    exact fun item hitem ↦ (hitems item hitem).2
  | fromClause word parts =>
    simp only [Regular.isStatement, Bool.and_eq_true] at h
    exact ⟨rfl, wellBuilt_fromClause_of_regular word h.2⟩
  | whereClause word nodes =>
    simp only [Regular.isStatement, Bool.and_eq_true] at h
    have hnodes := wellBuilt_of_areLinked
      (fun _ h ↦ wellBuilt_of_regular_condition (Regular.condition_of_isCondition h)) h.2
    exact ⟨rfl, wellBuilt_iff.mpr hnodes⟩
  | groupByClause items rollup =>
    simp only [Regular.isStatement, Bool.and_eq_true] at h
    refine ⟨rfl, wellBuilt_iff.mpr (forall_wellBuilt_of_isTerm ?_ h.1.2)⟩
    intro item hitem
    obtain ⟨t, rfl, -⟩ := Regular.exists_of_isPlainColumn hitem
    rfl
  | havingClause word nodes =>
    simp only [Regular.isStatement, Bool.and_eq_true] at h
    refine ⟨rfl, wellBuilt_iff.mpr (wellBuilt_of_areLinked ?_ h.2)⟩
    intro node hnode
    obtain ⟨left, op, right, rfl, -⟩ := Regular.exists_of_isHavingCondition hnode
    exact ⟨.plain (.comparison ..), (IsPlainCondition.comparison ..).wellBuilt⟩
  | orderByClause items =>
    simp only [Regular.isStatement, Bool.and_eq_true] at h
    refine ⟨rfl, wellBuilt_iff.mpr (forall_wellBuilt_of_isTerm ?_ h.2)⟩
    intro item hitem
    obtain ⟨t, rfl, -⟩ := Regular.exists_of_isOrderItem hitem
    rfl
  | limitClause count offset offsetWord => exact ⟨rfl, wellBuilt_limitClause count offset offsetWord⟩
  | insertClause word table rows columns query =>
    cases rows with
    | some rows => cases h
    | none =>
      simp only [Regular.isStatement, Bool.and_eq_true] at h
      obtain ⟨hcolumns, hbuilt⟩ := forall_wellBuilt_of_isTerm
        (fun _ ↦ isTerm_of_isPlainTerm) h.1.1.2
      have hquery := wellBuilt_of_areStatements h.2
      refine ⟨rfl, wellBuilt_iff.mpr ⟨⟨by simp, hcolumns, ?_⟩, ?_⟩⟩
      · exact fun statement hstatement ↦ (hquery statement hstatement).1
      · intro child hchild
        rcases List.mem_append.mp hchild with hchild | hchild
        · exact hbuilt child hchild
        · exact (hquery child hchild).2
  | semicolon text => exact ⟨rfl, everywhere_leaf trivial rfl⟩
  | _ => cases h

theorem wellBuilt_of_areStatements {nodes : List Node} (h : Regular.areStatements nodes = true) :
    ∀ node ∈ nodes, node.isStatement = true ∧ WellBuilt node := by
  cases nodes with
  | nil => simp
  | cons node rest =>
    obtain ⟨hnode, hrest⟩ := Regular.areStatements_cons h
    exact List.forall_mem_cons.mpr
      ⟨hnode.elim wellBuilt_of_regular wellBuilt_of_endsText, wellBuilt_of_areStatements hrest⟩

end

end SqlLayout.Read
