import SqlLayout.Format
import SqlLayout.Proofs.Layout.Frames
import SqlLayout.Proofs.Layout.Outcome

/-!
# The texts that a layout copies

`shownTexts` lists the texts of a tree that its layout copies into the lines, in the order in which they
stand there: names, values and literals as they are, and those keywords and names of functions that are
not written in one fixed spelling in upper case.  Trees of the same shape have layouts with the same frame
around these texts.
-/

namespace SqlLayout.Layout

open Text

variable {text word op : String} {t u : Term} {nodes others : List Node}

/-! ### Shown texts -/

section Shown

def valueTexts : Node → List String
  | .term t => [t.text]
  | _ => []

def namedTexts : Node → List String
  | .term t => t.text :: t.aliasName.toList
  | _ => []

mutual

def callTexts : Node → List String
  | .call name args asWord aliasName =>
    upper name :: (argTexts args ++ if isPresent asWord then aliasName.toList else [])
  | .term t => [t.text]
  | _ => []

def argTexts : List Node → List String
  | [] => []
  | arg :: rest => callTexts arg ++ argTexts rest

end

def branchTexts : Node → List String
  | .whenThen _ tested _ result => [tested, result]
  | .otherwise _ result => [result]
  | _ => []

def selectItemTexts : Node → List String
  | .caseOf word branches => upper word :: branches.flatMap branchTexts
  | .term t => namedTexts (.term t)
  | node => callTexts node

def operandTexts : Node → List String
  | .operator op => [upper op]
  | node => callTexts node

def joinPartTexts : Node → List String
  | .condition operands => operands.flatMap operandTexts
  | _ => []

/-- The parts of a FROM clause; the part after an ON is passed over. -/
def fromTexts : List Node → List String
  | [] => []
  | .join word :: table :: rest => upper word :: (namedTexts table ++ fromTexts rest)
  | .onClause _ parts :: _ :: rest => parts.flatMap joinPartTexts ++ fromTexts rest
  | [.onClause _ parts] => parts.flatMap joinPartTexts
  | part :: rest => (if part.isIdentifier then namedTexts part else []) ++ fromTexts rest

def limitTexts (count : Term) (offset : Option Term) (offsetWord : Option String) : List String :=
  match offset with
  | none => [count.text]
  | some offset =>
    if isPresent offsetWord then [count.text, offset.text] else [offset.text, count.text]

def sortTexts : Node → List String
  | .term t => t.text :: (t.sort.map upper).toList
  | _ => []

def havingTexts : Node → List String
  | .link word => [upper word]
  | .condition [.term left, .operator op, .term right] => [left.text, upper op, right.text]
  | _ => []

/-- The texts of a condition behind its NOT.  The operator in front of a list of values is always
written IN. -/
def plainConditionTexts : List Node → List String
  | [.term left, .operator op, .term right] => [left.text, upper op, right.text]
  | [.term left, .between _, .term low, .link _, .term high] => [left.text, low.text, high.text]
  | [.term left, .is _, .null _] => [left.text]
  | [.term left, .is _, .not _, .null _] => [left.text]
  | [.term left, .operator _, .group items] => left.text :: items.flatMap valueTexts
  | _ => []

def whereTexts : Node → List String
  | .link word => [upper word]
  | .condition parts => plainConditionTexts (detachNot parts)
  | _ => []

mutual

def statementTexts : Node → List String
  | .selectClause word items => upper word :: items.flatMap selectItemTexts
  | .fromClause _ parts => fromTexts parts
  | .whereClause _ conditions => conditions.flatMap whereTexts
  | .groupByClause items _ => items.flatMap valueTexts
  | .havingClause _ conditions => conditions.flatMap havingTexts
  | .orderByClause items => items.flatMap sortTexts
  | .limitClause count offset offsetWord => limitTexts count offset offsetWord
  | .insertClause _ table none columns query =>
    table :: (columns.flatMap valueTexts ++ shownTexts query)
  | _ => []

def shownTexts : List Node → List String
  | [] => []
  | node :: rest => statementTexts node ++ shownTexts rest

end

end Shown

/-! ### Values and calls -/

/-- Related texts of tokens are related as copied texts, in upper case too unless they are literals, and
never empty. -/
structure Carries (R : TextRelation) (S : String → String → Prop) : Prop where
  text : ∀ {kind text other}, R kind text other → S text other
  upper : ∀ {kind text other}, kind ≠ .str → R kind text other → S (upper text) (upper other)
  nonempty : NonemptyTexts S

section Values

open Read

variable {R : TextRelation} {S : String → String → Prop} {fresh after middle : Bool}
  {node other : Node} {nodes others : List Node} {xs ys : List String}

theorem quoteless_indentation (level : Int) :
    (indentation level).toList.all (!Word.isQuote ·) = true := by
  unfold indentation
  induction level.toNat with
  | zero => rfl
  | succ n ih =>
    simp only [List.replicate_succ, String.join_cons, String.toList_append, List.all_append, ih,
      Bool.and_true]
    rfl

theorem copied_indentation (level : Int) : Copied S [] [] (indentation level) (indentation level) :=
  .fixed (quoteless_indentation level)

theorem Carries.value (hR : Carries R S) (h : RelatedValue R text word) : S text word := by
  obtain ⟨-, h⟩ := h
  exact hR.text h

theorem Carries.isPresent_eq (hR : Carries R S) {kind : Kind} {word wordOther : Option String}
    (h : Option.Rel (R kind) word wordOther) : isPresent word = isPresent wordOther := by
  cases h with
  | none => rfl
  | some h =>
    obtain ⟨hword, hother⟩ := hR.nonempty _ _ (hR.text h)
    simp only [isPresent, bne_iff_ne.mpr hword, bne_iff_ne.mpr hother]

theorem facing_commaBefore (h : RelatedNodes R nodes others)
    (htext : text.toList.all (!Word.isQuote ·) = true) :
    FacingEdits S fresh [] [] (commaBefore nodes text) (commaBefore others text) false := by
  cases h with
  | nil => exact facing_nil.stale
  | cons _ _ => exact facing_fixed htext facing_nil

theorem facing_aliasEdits (hR : Carries R S) {asWord asOther name nameOther : Option String}
    (has : Option.Rel (R .asWord) asWord asOther) (hname : Option.Rel (RelatedValue R) name nameOther) :
    FacingEdits S fresh name.toList nameOther.toList (aliasEdits asWord name)
      (aliasEdits asOther nameOther) false := by
  have hfirst : FacingEdits S fresh [] [] (if isPresent asWord then [.add " AS"] else [])
      (if isPresent asOther then [.add " AS"] else []) false := by
    rw [← hR.isPresent_eq has]
    split
    · exact facing_fixed rfl facing_nil
    · exact facing_nil.stale
  cases hname with
  | none => exact hfirst.append facing_nil
  | some hname =>
    have htext := hR.value hname
    obtain ⟨hne, hneOther⟩ := hR.nonempty _ _ htext
    simp only [aliasEdits, if_neg hne, if_neg hneOther]
    exact hfirst.append (facing_fixed rfl (facing_copied htext facing_nil))

theorem facing_callAliasEdits (hR : Carries R S) {asWord asOther name nameOther : Option String}
    (has : Option.Rel (R .asWord) asWord asOther) (hname : Option.Rel (RelatedValue R) name nameOther) :
    FacingEdits S fresh (if isPresent asWord then name.toList else [])
      (if isPresent asOther then nameOther.toList else []) (callAliasEdits asWord name)
      (callAliasEdits asOther nameOther) false := by
  rw [← hR.isPresent_eq has]
  cases hname with
  | none =>
    simp only [callAliasEdits, Option.toList_none, ite_self]
    exact facing_nil.stale
  | some hname =>
    have htext := hR.value hname
    obtain ⟨hne, hneOther⟩ := hR.nonempty _ _ htext
    simp only [callAliasEdits, ← hR.isPresent_eq has]
    cases isPresent asWord with
    | false => exact facing_nil.stale
    | true =>
      simp only [bne_iff_ne, ne_eq, hne, hneOther, not_false_eq_true, if_true, Bool.true_and]
      exact facing_fixed rfl (facing_copied htext facing_nil)

mutual

theorem facing_callEdits (hR : Carries R S) (fresh : Bool) {node other : Node}
    (hnode : node.isOperand = true) (hbuilt : WellBuilt node) (h : node.Related R other) :
    FacingEdits S fresh (callTexts node) (callTexts other) (callEdits node) (callEdits other) false := by
  cases node with
  | term t =>
    cases h with
    | term hterm =>
      obtain ⟨htext, -, -, -⟩ := hterm
      exact facing_copied (hR.text htext) facing_nil
    | abandoned hnode _ => cases hnode
  | call name args asWord aliasName =>
    cases h with
    | call hname hargs has halias =>
      obtain ⟨hfits, hchildren⟩ := wellBuilt_iff.mp hbuilt
      have hupper := hR.upper (by decide) hname
      have hinner := facing_argEdits hR false hfits hchildren hargs
      exact (facing_copied hupper (facing_fixed rfl hinner)).append
        (facing_fixed rfl (facing_callAliasEdits hR has halias))
    | abandoned hnode _ => cases hnode
  | _ => cases hnode

theorem facing_argEdits (hR : Carries R S) (fresh : Bool) {nodes others : List Node}
    (hnodes : ∀ arg ∈ nodes, arg.isOperand = true) (hbuilt : ∀ arg ∈ nodes, WellBuilt arg) (h : RelatedNodes R nodes others) :
    FacingEdits S fresh (argTexts nodes) (argTexts others) (argEdits nodes) (argEdits others) false := by
  cases nodes with
  | nil =>
    cases h
    exact facing_nil.stale
  | cons arg rest =>
    obtain ⟨harg, hrest⟩ := List.forall_mem_cons.mp hnodes
    obtain ⟨hbuiltArg, hbuiltRest⟩ := List.forall_mem_cons.mp hbuilt
    cases h with
    | cons hfirst hmore =>
      have hcall := facing_callEdits hR fresh harg hbuiltArg hfirst
      exact (hcall.append_fixed (facing_commaBefore hmore rfl)).append
        (facing_argEdits hR false hrest hbuiltRest hmore)

end

end Values

/-! ### Clauses -/

section Clauses

open Read

variable {R : TextRelation} {S : String → String → Prop} {fresh : Bool}
  {node other : Node} {nodes others : List Node}

theorem isAbandoned_of_isItem (h : node.isItem = true) : node.isAbandoned = false := by
  cases node <;> first | rfl | cases h

theorem isItem_of_isOperand (h : node.isOperand = true) : node.isItem = true := by
  cases node <;> first | rfl | cases h

theorem isAbandoned_of_isBranch (h : node.isBranch = true) : node.isAbandoned = false := by
  cases node <;> first | rfl | cases h

theorem copied_branch (hR : Carries R S) (hnode : node.isBranch = true) (h : node.Related R other) :
    Copied S (branchTexts node) (branchTexts other) node.text other.text := by
  cases h with
  | whenThen _ htested _ hresult =>
    exact .append (.append (.append (.fixed rfl) (.copied (hR.value htested))) (.fixed rfl))
      (.copied (hR.value hresult))
  | otherwise _ hresult => exact .append (.fixed rfl) (.copied (hR.value hresult))
  | abandoned habandoned _ => simp [isAbandoned_of_isBranch hnode] at habandoned
  | _ => cases hnode

theorem facing_branchEdits (hR : Carries R S) (indent : Int)
    (hnodes : ∀ branch ∈ nodes, branch.isBranch = true) (h : RelatedNodes R nodes others) :
    FacingEdits S fresh (nodes.flatMap branchTexts) (others.flatMap branchTexts)
      (branchEdits indent nodes) (branchEdits indent others) false := by
  induction h generalizing fresh with
  | nil => exact facing_nil.stale
  | cons hbranch hrest ih =>
    obtain ⟨hfirst, hmore⟩ := List.forall_mem_cons.mp hnodes
    have htext : Copied S _ _ _ _ := .append (copied_indentation (indent + 2))
      (copied_branch hR hfirst hbranch)
    cases hrest with
    | nil => exact facing_add htext facing_nil
    | cons _ _ => exact facing_add htext (facing_endLine hR.nonempty (ih hmore))

theorem facing_selectItemEdits (hR : Carries R S) (fresh : Bool) (indent : Int)
    (hnode : node.isItem = true) (hbuilt : WellBuilt node) (h : node.Related R other) :
    FacingEdits S fresh (selectItemTexts node) (selectItemTexts other) (selectItemEdits indent node)
      (selectItemEdits indent other) false := by
  cases h with
  | term hterm =>
    obtain ⟨htext, halias, has, -⟩ := hterm
    exact facing_copied (hR.text htext) (facing_aliasEdits hR has halias)
  | call hname hargs has halias =>
    exact facing_callEdits hR fresh rfl hbuilt (.call hname hargs has halias)
  | caseOf hword hbranches =>
    have hupper := hR.upper (by decide) hword
    exact facing_addLine hR.nonempty (.copied hupper)
      (facing_branchEdits hR indent (wellBuilt_iff.mp hbuilt).1 hbranches)
  | abandoned habandoned _ => simp [isAbandoned_of_isItem hnode] at habandoned
  | _ => cases hnode

theorem facing_selectItemsEdits (hR : Carries R S) (indent : Int)
    (hnodes : ∀ item ∈ nodes, item.isItem = true) (hbuilt : ∀ item ∈ nodes, WellBuilt item)
    (h : RelatedNodes R nodes others) :
    FacingEdits S true (nodes.flatMap selectItemTexts) (others.flatMap selectItemTexts)
      (selectItemsEdits indent nodes) (selectItemsEdits indent others) true := by
  induction h with
  | nil => exact facing_nil
  | cons hitem hrest ih =>
    obtain ⟨hfirst, hmore⟩ := List.forall_mem_cons.mp hnodes
    obtain ⟨hbuiltItem, hbuiltRest⟩ := List.forall_mem_cons.mp hbuilt
    have hline := facing_selectItemEdits hR false indent hfirst hbuiltItem hitem
    exact ((facing_fixed (quoteless_indentation (indent + 1)) hline).append_fixed
      (facing_commaBefore hrest rfl)).append (facing_endLine hR.nonempty (ih hmore hbuiltRest))

theorem copied_spaced (h : S text word) : Copied S [text] [word] (" " ++ text ++ " ") (" " ++ word ++ " ") :=
  (Copied.copied h).enclosed rfl rfl

theorem facing_operandEdits (hR : Carries R S) (fresh : Bool) (hnode : node.isOperand = true)
    (hbuilt : WellBuilt node) (h : node.Related R other) :
    FacingEdits S fresh (operandTexts node) (operandTexts other) (operandEdits node)
      (operandEdits other) false := by
  cases h with
  | call hname hargs has halias =>
    exact facing_callEdits hR fresh rfl hbuilt (.call hname hargs has halias)
  | term hterm =>
    obtain @⟨kind, _, _, _, _, _, _, _, _, htext, -, -, -⟩ := hterm
    cases kind with
    | identifier => exact facing_copied (hR.text htext) facing_nil
    | number | str => exact facing_add (copied_spaced (hR.text htext)) facing_nil
  | abandoned habandoned _ =>
    simp [isAbandoned_of_isItem (isItem_of_isOperand hnode)] at habandoned
  | _ => cases hnode

theorem facing_operator (hR : Carries R S) (fresh : Bool) (h : (Node.operator op).Related R other) :
    FacingEdits S fresh (operandTexts (.operator op)) (operandTexts other) (operandEdits (.operator op))
      (operandEdits other) false := by
  cases h with
  | operator hop => exact facing_add (copied_spaced (hR.upper (by decide) hop)) facing_nil
  | abandoned habandoned _ => cases habandoned

theorem facing_joinConditionEdits (hR : Carries R S) (fresh : Bool) (indent : Int) (newLine : Bool)
    (hnodes : ∀ part ∈ nodes, IsJoinPart part) (hbuilt : ∀ part ∈ nodes, WellBuilt part)
    (h : RelatedNodes R nodes others) :
    FacingEdits S fresh (nodes.flatMap joinPartTexts) (others.flatMap joinPartTexts)
      (joinConditionEdits indent newLine nodes) (joinConditionEdits indent newLine others) false := by
  induction h generalizing fresh newLine with
  | nil => exact facing_nil.stale
  | cons hpart hrest ih =>
    obtain ⟨hfirst, hmore⟩ := List.forall_mem_cons.mp hnodes
    obtain ⟨hbuiltPart, hbuiltRest⟩ := List.forall_mem_cons.mp hbuilt
    have hstart : FacingEdits S fresh [] [] (if newLine then [.add (indentation (indent + 2))] else [])
        (if newLine then [.add (indentation (indent + 2))] else []) false := by
      split
      · exact facing_fixed (quoteless_indentation _) facing_nil
      · exact facing_nil.stale
    cases hfirst with
    | link word =>
      cases hpart with
      | link _ => exact hstart.append (facing_fixed rfl (ih false false hmore hbuiltRest))
      | abandoned habandoned _ => cases habandoned
    | @comparison left right op hleft hright =>
      have hbuiltParts := (wellBuilt_iff.mp hbuiltPart).2
      cases hpart with
      | condition hparts =>
        obtain _ | ⟨hleftOther, _ | ⟨hop, _ | ⟨hrightOther, _ | _⟩⟩⟩ := hparts
        have hfirst := facing_operandEdits hR false hleft (hbuiltParts _ (by simp [Node.children]))
          hleftOther
        have hlast := facing_operandEdits hR false hright
          (hbuiltParts _ (by simp [Node.children])) hrightOther
        have hoperands := hfirst.append ((facing_operator hR false hop).append
          (hlast.append facing_nil))
        exact (hstart.append hoperands).append
          (facing_endLine hR.nonempty (ih true true hmore hbuiltRest))
      | membership _ _ hfound _ => simp [hright] at hfound
      | abandoned habandoned _ => cases left <;> cases habandoned

theorem isAbandoned_of_isFromPart (h : node.isFromPart = true) : node.isAbandoned = false := by
  cases node <;> first | rfl | cases h

theorem startsWith_related (hnodes : ∀ part ∈ nodes, part.isFromPart = true)
    (h : RelatedNodes R nodes others) :
    startsWithOn nodes = startsWithOn others ∧ startsWithJoin nodes = startsWithJoin others := by
  cases h with
  | nil => exact ⟨rfl, rfl⟩
  | cons hfirst _ =>
    have hpart := isAbandoned_of_isFromPart (hnodes _ (List.mem_cons_self ..))
    cases hfirst with
    | abandoned habandoned _ => simp [hpart] at habandoned
    | _ => exact ⟨rfl, rfl⟩

/-- What stands behind a join is copied, or the layout fails. -/
theorem facing_named (hR : Carries R S) (fresh : Bool) (hnode : node.isFromPart = true)
    (h : node.Related R other) :
    FacingDrafts S fresh (namedTexts node) (namedTexts other) (named node) (named other) false := by
  cases h with
  | term hterm =>
    obtain ⟨htext, halias, has, -⟩ := hterm
    exact (facing_emit (facing_copied (hR.text htext) facing_nil)).bind fun _ _ ↦
      facing_emit (facing_aliasEdits hR has halias)
  | join hword => exact fun _ _ _ _ _ ↦ .error rfl
  | onClause hword hparts => exact fun _ _ _ _ _ ↦ .error rfl
  | abandoned habandoned _ => simp [isAbandoned_of_isFromPart hnode] at habandoned
  | _ => cases hnode

theorem facing_joinWord (hR : Carries R S) (indent : Int) {wordOther : String} (h : R .join word wordOther) :
    FacingEdits S fresh [upper word] [upper wordOther]
      [.add (indentation (indent + 1)), .add (upper word), .add " "]
      [.add (indentation (indent + 1)), .add (upper wordOther), .add " "] false :=
  facing_fixed (quoteless_indentation _) (facing_copied (hR.upper (by decide) h)
    (facing_fixed rfl facing_nil))

theorem facing_joinEnd (hR : Carries R S) (hnodes : ∀ part ∈ nodes, part.isFromPart = true)
    (h : RelatedNodes R nodes others) :
    FacingEdits S fresh [] [] ((if startsWithOn nodes then [.add " ON"] else []) ++ [.endLine])
      ((if startsWithOn others then [.add " ON"] else []) ++ [.endLine]) true := by
  rw [(startsWith_related hnodes h).1]
  split
  · exact facing_fixed rfl (facing_endLine hR.nonempty facing_nil)
  · exact facing_endLine hR.nonempty facing_nil

theorem facing_comma (hnodes : ∀ part ∈ nodes, part.isFromPart = true)
    (h : RelatedNodes R nodes others) :
    FacingEdits S fresh [] [] (if startsWithJoin nodes then [] else commaBefore nodes ",")
      (if startsWithJoin others then [] else commaBefore others ",") false := by
  rw [(startsWith_related hnodes h).2]
  split
  · exact facing_nil.stale
  · exact facing_commaBefore h rfl

theorem facing_fromParts (hR : Carries R S) (indent : Int)
    (hnodes : ∀ part ∈ nodes, part.isFromPart = true) (hbuilt : ∀ part ∈ nodes, WellBuilt part)
    (h : RelatedNodes R nodes others) :
    FacingDrafts S true (fromTexts nodes) (fromTexts others) (fromParts indent nodes)
      (fromParts indent others) true := by
  fun_induction fromTexts nodes generalizing others with
  | case1 =>
    cases h
    exact facing_pure () ()
  | case2 word table rest ih =>
    obtain ⟨-, htable, hrest⟩ := by simpa only [List.forall_mem_cons] using hnodes
    obtain ⟨-, -, hbuiltRest⟩ := by simpa only [List.forall_mem_cons] using hbuilt
    obtain _ | ⟨hjoin, _ | ⟨htableOther, hmore⟩⟩ := h
    cases hjoin with
    | join hword =>
      exact (facing_emit (facing_joinWord hR indent hword)).bind fun _ _ ↦
        (facing_named hR false htable htableOther).bind fun _ _ ↦
          (facing_emit (facing_joinEnd hR hrest hmore)).bind fun _ _ ↦ ih hrest hbuiltRest hmore
    | abandoned habandoned _ => cases habandoned
  | case3 word parts part rest ih =>
    obtain ⟨-, -, hrest⟩ := by simpa only [List.forall_mem_cons] using hnodes
    obtain ⟨hon, -, hbuiltRest⟩ := by simpa only [List.forall_mem_cons] using hbuilt
    obtain ⟨hfits, hparts⟩ := wellBuilt_iff.mp hon
    obtain _ | ⟨hclause, _ | ⟨-, hmore⟩⟩ := h
    cases hclause with
    | onClause _ hrelated =>
      have hconditions := facing_joinConditionEdits hR true indent true hfits hparts hrelated
      exact (facing_emit (hconditions.append_fixed (facing_endLine hR.nonempty facing_nil))).bind
        fun _ _ ↦ ih hrest hbuiltRest hmore
    | abandoned habandoned _ => cases habandoned
  | case4 word parts =>
    obtain ⟨hfits, hparts⟩ := wellBuilt_iff.mp (hbuilt _ (List.mem_cons_self ..))
    obtain _ | ⟨hclause, _ | _⟩ := h
    cases hclause with
    | onClause _ hrelated =>
      have hconditions := facing_joinConditionEdits hR true indent true hfits hparts hrelated
      exact facing_emit (hconditions.append_fixed (facing_endLine hR.nonempty facing_nil))
    | abandoned habandoned _ => cases habandoned
  | case5 part rest hjoin hon hlast ih =>
    obtain ⟨hpart, hrest⟩ := List.forall_mem_cons.mp hnodes
    obtain ⟨-, hbuiltRest⟩ := List.forall_mem_cons.mp hbuilt
    cases part with
    | term t =>
      obtain _ | ⟨hterm, hmore⟩ := h
      have hname := facing_named hR false hpart hterm
      cases hterm with
      | term hrelated =>
        obtain @⟨kind, _, _, _, _, _, _, _, _, htext, halias, has, hsort⟩ := hrelated
        have hmore' := ih hrest hbuiltRest hmore
        cases kind with
        | identifier =>
          exact (facing_emit (facing_fixed (quoteless_indentation _) facing_nil)).bind fun _ _ ↦
            hname.bind fun _ _ ↦ (facing_emit (facing_comma hrest hmore)).bind fun _ _ ↦
              (facing_emit (facing_endLine hR.nonempty facing_nil)).bind fun _ _ ↦ hmore'
        | number | str =>
          exact (facing_emit (facing_endLine hR.nonempty facing_nil)).bind fun _ _ ↦ hmore'
      | abandoned habandoned _ => cases habandoned
    | join word =>
      cases rest with
      | nil =>
        obtain _ | ⟨hword, _ | _⟩ := h
        cases hword with
        | join hword => exact fun _ _ _ _ _ ↦ .error rfl
        | abandoned habandoned _ => cases habandoned
      | cons table rest => exact (hjoin _ _ _ rfl rfl).elim
    | onClause word parts =>
      cases rest with
      | nil => exact (hlast _ _ rfl rfl).elim
      | cons next rest => exact (hon _ _ _ _ rfl rfl).elim
    | _ => cases hpart

theorem exists_term (h : (Node.term t).Related R other) : ∃ u, other = .term u ∧ t.Related R u := by
  cases h with
  | @term _ u hterm => exact ⟨u, rfl, hterm⟩
  | abandoned habandoned _ => cases habandoned

theorem exists_terms (hnode : node.isTerm = true) (h : node.Related R other) :
    ∃ t u, node = .term t ∧ other = .term u ∧ t.Related R u := by
  cases node with
  | term t =>
    obtain ⟨u, hother, hterm⟩ := exists_term h
    exact ⟨t, u, rfl, hother, hterm⟩
  | _ => cases hnode

theorem Carries.term (hR : Carries R S) (h : t.Related R u) : S t.text u.text := by
  obtain ⟨htext, -, -, -⟩ := h
  exact hR.text htext

theorem facing_groupItemsEdits (hR : Carries R S) (hnodes : ∀ item ∈ nodes, item.isTerm = true)
    (h : RelatedNodes R nodes others) :
    FacingEdits S true (nodes.flatMap valueTexts) (others.flatMap valueTexts) (groupItemsEdits nodes)
      (groupItemsEdits others) true := by
  induction h with
  | nil => exact facing_nil
  | cons hitem hrest ih =>
    obtain ⟨hfirst, hmore⟩ := List.forall_mem_cons.mp hnodes
    obtain ⟨t, u, rfl, rfl, hterm⟩ := exists_terms hfirst hitem
    have htext := Copied.copied (hR.term hterm)
    exact (facing_add (.append (.fixed rfl) htext) (facing_commaBefore hrest rfl)).append
      (facing_endLine hR.nonempty (ih hmore))

theorem facing_groupEdits (hR : Carries R S) (indent : Int)
    (hnodes : ∀ item ∈ nodes, item.isTerm = true) (h : RelatedNodes R nodes others) :
    FacingEdits S true (nodes.flatMap valueTexts) (others.flatMap valueTexts) (groupEdits indent nodes)
      (groupEdits indent others) true := by
  induction h with
  | nil => exact facing_nil
  | @cons _ _ rest more hitem hrest ih =>
    obtain ⟨hfirst, hmore⟩ := List.forall_mem_cons.mp hnodes
    obtain ⟨t, u, rfl, rfl, hterm⟩ := exists_terms hfirst hitem
    have hempty : rest.isEmpty = more.isEmpty := by cases hrest <;> rfl
    have hmark : Copied S [] [] (if rest.isEmpty then ")" else ",") (if more.isEmpty then ")" else ",") := by
      rw [hempty]
      split <;> exact .fixed rfl
    exact facing_fixed (quoteless_indentation _) (facing_copied (hR.term hterm)
      (facing_add hmark (facing_endLine hR.nonempty (ih hmore))))

theorem facing_sortEdits (hR : Carries R S) (h : t.Related R u) :
    FacingDrafts S fresh (t.sort.map upper).toList (u.sort.map upper).toList (sortEdits (.term t))
      (sortEdits (.term u)) false := by
  obtain ⟨-, -, -, hsort⟩ := h
  cases hsort with
  | none => exact facing_emit facing_nil.stale
  | some hword =>
    have hupper : S (upper _) (upper _) := hword.elim (hR.upper (by decide)) (hR.upper (by decide))
    have hword := hword.elim hR.text hR.text
    obtain ⟨hne, hneOther⟩ := hR.nonempty _ _ hword
    simp only [sortEdits, if_neg hne, if_neg hneOther]
    exact facing_emit (facing_add (.append (.fixed rfl) (.copied hupper)) facing_nil)

theorem facing_orderItems (hR : Carries R S) (indent : Int)
    (hnodes : ∀ item ∈ nodes, item.isTerm = true) (h : RelatedNodes R nodes others) :
    FacingDrafts S true (nodes.flatMap sortTexts) (others.flatMap sortTexts) (orderItems indent nodes)
      (orderItems indent others) true := by
  induction h with
  | nil => exact facing_pure () ()
  | cons hitem hrest ih =>
    obtain ⟨hfirst, hmore⟩ := List.forall_mem_cons.mp hnodes
    obtain ⟨t, u, rfl, rfl, hterm⟩ := exists_terms hfirst hitem
    have htext := Copied.append (copied_indentation (indent + 1)) (.copied (hR.term hterm))
    have hend : FacingEdits S false [] [] (commaBefore _ "," ++ [.endLine])
        (commaBefore _ "," ++ [.endLine]) true :=
      (facing_commaBefore hrest rfl).append_fixed (facing_endLine hR.nonempty facing_nil)
    exact (facing_emit (facing_add htext facing_nil)).bind fun _ _ ↦
      (facing_sortEdits hR hterm).bind fun _ _ ↦ (facing_emit hend).bind fun _ _ ↦ ih hmore

theorem copied_limitText (hR : Carries R S) {count countOther : Term} {offset offsetOther : Option Term}
    {word wordOther : Option String} (hcount : count.RelatedNumber R countOther)
    (hoffset : Option.Rel (Term.RelatedNumber R) offset offsetOther)
    (hword : Option.Rel (R .identifier) word wordOther) :
    Copied S (limitTexts count offset word) (limitTexts countOther offsetOther wordOther)
      (limitText count offset word) (limitText countOther offsetOther wordOther) := by
  obtain ⟨hcount⟩ := hcount
  have hnumber := hR.text hcount
  cases hoffset with
  | none => exact .append (.fixed rfl) (.copied hnumber)
  | some hoffset =>
    obtain ⟨hoffset⟩ := hoffset
    have hskipped := hR.text hoffset
    simp only [limitTexts, limitText, ← hR.isPresent_eq hword]
    split
    · exact .append (.append (.append (.fixed rfl) (.copied hnumber)) (.fixed rfl)) (.copied hskipped)
    · exact .append (.append (.append (.fixed rfl) (.copied hskipped)) (.fixed rfl)) (.copied hnumber)

/-! ### Conditions -/

inductive RelatedCondition (R : TextRelation) : Node → Node → Prop
  | negated {word wordOther op opOther : String} {left leftOther right rightOther : Term} :
      left.Related R leftOther → R .compare op opOther → right.Related R rightOther →
      RelatedCondition R (.condition [.not word, .term left, .operator op, .term right])
        (.condition [.not wordOther, .term leftOther, .operator opOther, .term rightOther])
  | comparison {op opOther : String} {left leftOther right rightOther : Term} :
      left.Related R leftOther → R .compare op opOther → right.Related R rightOther →
      RelatedCondition R (.condition [.term left, .operator op, .term right])
        (.condition [.term leftOther, .operator opOther, .term rightOther])
  | between {word wordOther link linkOther : String}
      {left leftOther low lowOther high highOther : Term} :
      left.Related R leftOther → low.Related R lowOther → high.Related R highOther →
      RelatedCondition R (.condition [.term left, .between word, .term low, .link link, .term high])
        (.condition [.term leftOther, .between wordOther, .term lowOther, .link linkOther,
          .term highOther])
  | isNull {word wordOther null nullOther : String} {left leftOther : Term} :
      left.Related R leftOther →
      RelatedCondition R (.condition [.term left, .is word, .null null])
        (.condition [.term leftOther, .is wordOther, .null nullOther])
  | isNotNull {word wordOther no noOther null nullOther : String} {left leftOther : Term} :
      left.Related R leftOther →
      RelatedCondition R (.condition [.term left, .is word, .not no, .null null])
        (.condition [.term leftOther, .is wordOther, .not noOther, .null nullOther])
  | membership {op opOther : String} {left leftOther : Term} {items itemsOther : List Node} :
      left.Related R leftOther → (∀ item ∈ items, item.isTerm = true) →
      RelatedNodes R items itemsOther →
      RelatedCondition R (.condition [.term left, .operator op, .group items])
        (.condition [.term leftOther, .operator opOther, .group itemsOther])
  | bareMembership {word wordOther op opOther : String} {items itemsOther : List Node} :
      RelatedCondition R (.condition [.not word, .operator op, .group items])
        (.condition [.not wordOther, .operator opOther, .group itemsOther])

theorem exists_operator (h : (Node.operator op).Related R other) :
    ∃ opOther, other = .operator opOther ∧ R .compare op opOther := by
  cases h with
  | @operator _ opOther hop => exact ⟨opOther, rfl, hop⟩
  | abandoned habandoned _ => cases habandoned

inductive IsConditionWord : (String → Node) → Prop
  | not : IsConditionWord .not
  | between : IsConditionWord .between
  | link : IsConditionWord .link
  | is : IsConditionWord .is
  | null : IsConditionWord .null

theorem exists_word {build : String → Node} (hbuild : IsConditionWord build)
    (h : (build word).Related R other) : ∃ wordOther, other = build wordOther := by
  cases hbuild <;> cases h <;> first | exact ⟨_, rfl⟩ | contradiction

theorem relatedNodes_of_plain (hnode : IsPlainCondition node) (h : node.Related R other) :
    ∃ parts others, node = .condition parts ∧ other = .condition others ∧
      RelatedNodes R parts others := by
  cases h with
  | condition hparts => exact ⟨_, _, rfl, rfl, hparts⟩
  | membership _ _ hfound _ =>
    cases hnode
    cases hfound
  | abandoned habandoned _ => cases hnode <;> cases habandoned
  | _ => cases hnode

theorem relatedCondition_of_plain (hnode : IsPlainCondition node) (h : node.Related R other) :
    RelatedCondition R node other := by
  obtain ⟨parts, others, rfl, rfl, hparts⟩ := relatedNodes_of_plain hnode h
  cases hnode with
  | negated word left op right =>
    obtain _ | ⟨hnot, _ | ⟨hleft, _ | ⟨hop, _ | ⟨hright, _ | _⟩⟩⟩⟩ := hparts
    obtain ⟨_, rfl⟩ := exists_word .not hnot
    obtain ⟨_, rfl, hleft'⟩ := exists_term hleft
    obtain ⟨_, rfl, hop'⟩ := exists_operator hop
    obtain ⟨_, rfl, hright'⟩ := exists_term hright
    exact .negated hleft' hop' hright'
  | between left word low link high =>
    obtain _ | ⟨hleft, _ | ⟨hword, _ | ⟨hlow, _ | ⟨hlink, _ | ⟨hhigh, _ | _⟩⟩⟩⟩⟩ := hparts
    obtain ⟨_, rfl, hleft'⟩ := exists_term hleft
    obtain ⟨_, rfl⟩ := exists_word .between hword
    obtain ⟨_, rfl, hlow'⟩ := exists_term hlow
    obtain ⟨_, rfl⟩ := exists_word .link hlink
    obtain ⟨_, rfl, hhigh'⟩ := exists_term hhigh
    exact .between hleft' hlow' hhigh'
  | comparison left op right =>
    obtain _ | ⟨hleft, _ | ⟨hop, _ | ⟨hright, _ | _⟩⟩⟩ := hparts
    obtain ⟨_, rfl, hleft'⟩ := exists_term hleft
    obtain ⟨_, rfl, hop'⟩ := exists_operator hop
    obtain ⟨_, rfl, hright'⟩ := exists_term hright
    exact .comparison hleft' hop' hright'
  | isNull left word null =>
    obtain _ | ⟨hleft, _ | ⟨hword, _ | ⟨hnull, _ | _⟩⟩⟩ := hparts
    obtain ⟨_, rfl, hleft'⟩ := exists_term hleft
    obtain ⟨_, rfl⟩ := exists_word .is hword
    obtain ⟨_, rfl⟩ := exists_word .null hnull
    exact .isNull hleft'
  | isNotNull left word no null =>
    obtain _ | ⟨hleft, _ | ⟨hword, _ | ⟨hno, _ | ⟨hnull, _ | _⟩⟩⟩⟩ := hparts
    obtain ⟨_, rfl, hleft'⟩ := exists_term hleft
    obtain ⟨_, rfl⟩ := exists_word .is hword
    obtain ⟨_, rfl⟩ := exists_word .not hno
    obtain ⟨_, rfl⟩ := exists_word .null hnull
    exact .isNotNull hleft'

theorem relatedCondition_of_membership {left leftOther found : Node} {op opOther : String}
    {items : List Node} (hleft : IsValueOrNot left) (hitems : ∀ item ∈ items, item.isTerm = true)
    (hleftOther : left.Related R leftOther) (hfound : (Node.group items).Related R found) :
    RelatedCondition R (.condition [left, .operator op, .group items])
      (.condition [leftOther, .operator opOther, found]) := by
  cases hfound with
  | group hothers =>
    cases hleft with
    | term t =>
      obtain ⟨u, rfl, hterm⟩ := exists_term hleftOther
      exact .membership hterm hitems hothers
    | not word =>
      obtain ⟨_, rfl⟩ := exists_word .not hleftOther
      exact .bareMembership
  | abandoned habandoned _ => cases habandoned

theorem relatedCondition_of_isCondition (hnode : IsCondition node) (hbuilt : WellBuilt node)
    (hkept : node.isAbandoned = false) (h : node.Related R other) : RelatedCondition R node other := by
  cases hnode with
  | plain hplain => exact relatedCondition_of_plain hplain h
  | negatedCall word name args asWord aliasName op hright => cases hkept
  | membership op items hleft =>
    have hgroup := (wellBuilt_iff.mp hbuilt).2 (.group items) (by simp [Node.children])
    have hitems := (wellBuilt_iff.mp hgroup).1
    cases h with
    | condition hparts =>
      obtain _ | ⟨hleftOther, _ | ⟨hop, _ | ⟨hfound, _ | _⟩⟩⟩ := hparts
      obtain ⟨opOther, rfl, -⟩ := exists_operator hop
      exact relatedCondition_of_membership hleft hitems hleftOther hfound
    | membership hleftOther _ _ hfound =>
      exact relatedCondition_of_membership hleft hitems hleftOther hfound
    | abandoned habandoned _ => simp [hkept] at habandoned

theorem copied_comparison (hR : Carries R S) {left leftOther right rightOther : Term} {opOther : String}
    (hleft : left.Related R leftOther) (hop : R .compare op opOther) (hright : right.Related R rightOther) :
    Copied S [left.text, upper op, right.text] [leftOther.text, upper opOther, rightOther.text]
      (left.text ++ " " ++ upper op ++ " " ++ right.text)
      (leftOther.text ++ " " ++ upper opOther ++ " " ++ rightOther.text) :=
  .append (.append (.append (.append (.copied (hR.term hleft)) (.fixed rfl))
    (.copied (hR.upper (by decide) hop))) (.fixed rfl)) (.copied (hR.term hright))

theorem Term.Related.kind_eq (h : t.Related R u) : t.kind = u.kind := by
  obtain ⟨-, -, -, -⟩ := h
  rfl

theorem facing_havingCondition (hR : Carries R S) (h : RelatedCondition R node other) :
    FacingDrafts S fresh (havingTexts node) (havingTexts other) (havingCondition node)
      (havingCondition other) true := by
  cases h with
  | @comparison op opOther left leftOther right rightOther hleft hop hright =>
    have htext := copied_comparison hR hleft hop hright
    have hkinds : ((Node.term leftOther).isIdentifier && (Node.term rightOther).isNumber) =
        ((Node.term left).isIdentifier && (Node.term right).isNumber) := by
      simp only [Node.isIdentifier, Node.isNumber, Term.Related.kind_eq hleft,
        Term.Related.kind_eq hright]
    simp only [havingCondition_condition, havingValues, hkinds]
    split
    · exact facing_emit (facing_line hR.nonempty htext)
    · exact facing_fail _
  | membership | bareMembership =>
    simp only [havingCondition_condition, havingValues, Node.isNumber, Bool.and_false,
      Bool.false_eq_true, if_false]
    exact facing_fail _
  | _ => exact facing_fail _

theorem facing_plainConditionEdits (hR : Carries R S) (indent : Int)
    (h : RelatedCondition R (.condition nodes) (.condition others)) :
    FacingEdits S fresh (plainConditionTexts (detachNot nodes)) (plainConditionTexts (detachNot others))
      (notEdits nodes ++ plainConditionEdits indent (detachNot nodes) ++ [.endLine])
      (notEdits others ++ plainConditionEdits indent (detachNot others) ++ [.endLine]) true := by
  cases h with
  | negated hleft hop hright =>
    exact facing_fixed rfl (facing_line hR.nonempty (copied_comparison hR hleft hop hright))
  | comparison hleft hop hright =>
    exact facing_line hR.nonempty (copied_comparison hR hleft hop hright)
  | between hleft hlow hhigh =>
    exact facing_line hR.nonempty (.append (.append (.append (.append (.copied (hR.term hleft))
      (.fixed rfl)) (.copied (hR.term hlow))) (.fixed rfl)) (.copied (hR.term hhigh)))
  | isNull hleft | isNotNull hleft =>
    exact facing_line hR.nonempty (.append (.copied (hR.term hleft)) (.fixed rfl))
  | membership hleft hitems hothers =>
    have hgroup := facing_groupEdits hR indent hitems hothers
    have hname : Copied S [_] [_] (_ ++ " IN (") (_ ++ " IN (") :=
      .append (.copied (hR.term hleft)) (.fixed rfl)
    exact (facing_add hname (facing_endLine hR.nonempty hgroup)).append_fixed
      (facing_endLine hR.nonempty facing_nil)
  | bareMembership => exact facing_endLine hR.nonempty facing_nil

theorem RelatedCondition.exists_parts (h : RelatedCondition R node other) :
    ∃ parts, other = .condition parts := by
  cases h <;> exact ⟨_, rfl⟩

def IsKeptCondition (node : Node) : Prop :=
  IsCondition node ∧ WellBuilt node ∧ node.isAbandoned = false

theorem relatedCondition_of_isKept (hnode : IsKeptCondition node) (h : node.Related R other) :
    RelatedCondition R node other :=
  relatedCondition_of_isCondition hnode.1 hnode.2.1 hnode.2.2 h

theorem facing_linkWord (hR : Carries R S) (indent : Int) {wordOther : String} (h : R .link word wordOther) :
    FacingEdits S fresh [upper word] [upper wordOther]
      [.add (indentation (indent + 1)), .add (upper word ++ " ")]
      [.add (indentation (indent + 1)), .add (upper wordOther ++ " ")] false :=
  facing_fixed (quoteless_indentation _)
    (facing_add (.append (.copied (hR.upper (by decide) h)) (.fixed rfl)) facing_nil)

theorem exists_link (h : (Node.link word).Related R other) :
    ∃ wordOther, other = .link wordOther ∧ R .link word wordOther := by
  cases h with
  | @link _ wordOther hword => exact ⟨wordOther, rfl, hword⟩
  | abandoned habandoned _ => cases habandoned

theorem facing_havingConditions (hR : Carries R S) (indent : Int)
    (hnodes : Alternate IsKeptCondition nodes) (h : RelatedNodes R nodes others) :
    FacingDrafts S fresh (nodes.flatMap havingTexts) (others.flatMap havingTexts)
      (havingConditions indent nodes) (havingConditions indent others) true := by
  induction hnodes generalizing others fresh with
  | nil =>
    cases h
    exact facing_emit (facing_endLine hR.nonempty facing_nil)
  | last word =>
    obtain _ | ⟨hlink, _ | _⟩ := h
    obtain ⟨wordOther, rfl, -⟩ := exists_link hlink
    exact fun _ _ _ _ _ ↦ .error rfl
  | link word hnode _ ih =>
    obtain _ | ⟨hlink, _ | ⟨hnext, hmore⟩⟩ := h
    obtain ⟨wordOther, rfl, hword⟩ := exists_link hlink
    have hcondition := relatedCondition_of_isKept hnode hnext
    exact (facing_emit (facing_linkWord hR indent hword)).bind fun _ _ ↦
      (facing_havingCondition hR hcondition).bind fun _ _ ↦ ih hmore
  | node hnode _ ih =>
    obtain _ | ⟨hnext, hmore⟩ := h
    have hcondition := relatedCondition_of_isKept hnode hnext
    obtain ⟨parts, rfl⟩ := hcondition.exists_parts
    exact (facing_emit (facing_fixed (quoteless_indentation _) facing_nil)).bind fun _ _ ↦
      (facing_havingCondition hR hcondition).bind fun _ _ ↦ ih hmore

theorem facing_condition (hR : Carries R S) (indent : Int)
    (h : RelatedCondition R (.condition nodes) (.condition others)) :
    FacingDrafts S fresh (whereTexts (.condition nodes)) (whereTexts (.condition others))
      (condition indent (.condition nodes)) (condition indent (.condition others)) true := by
  have hquery : ∀ query, .subselect query ∉ nodes ∧ .subselect query ∉ others := fun query ↦ by
    cases h <;> simp
  rw [condition_of_no_query fun query ↦ (hquery query).1, condition_of_no_query fun query ↦ (hquery query).2]
  exact facing_done (facing_plainConditionEdits hR indent h) _ _

theorem facing_conditions (hR : Carries R S) (indent : Int)
    (hnodes : Alternate IsKeptCondition nodes) (h : RelatedNodes R nodes others) :
    FacingDrafts S true (nodes.flatMap whereTexts) (others.flatMap whereTexts)
      (conditions indent nodes) (conditions indent others) true := by
  induction hnodes generalizing others with
  | nil =>
    cases h
    simp only [conditions]
    exact facing_pure _ _
  | last word =>
    obtain _ | ⟨hlink, _ | _⟩ := h
    obtain ⟨wordOther, rfl, -⟩ := exists_link hlink
    simp only [conditions]
    exact fun _ _ _ _ _ ↦ .error rfl
  | @link word node rest hnode _ ih =>
    obtain _ | ⟨hlink, _ | ⟨hnext, hmore⟩⟩ := h
    obtain ⟨wordOther, rfl, hword⟩ := exists_link hlink
    have hcondition := relatedCondition_of_isKept hnode hnext
    obtain ⟨nodeParts, rfl⟩ := exists_parts_of_isCondition hnode.1
    obtain ⟨parts, rfl⟩ := hcondition.exists_parts
    simp only [conditions]
    exact (facing_emit (facing_linkWord hR indent hword)).bind fun _ _ ↦
      (facing_condition hR indent hcondition).bind fun _ _ ↦ (ih hmore).bind_pure
  | node hnode _ ih =>
    obtain _ | ⟨hnext, hmore⟩ := h
    have hcondition := relatedCondition_of_isKept hnode hnext
    obtain ⟨parts, rfl⟩ := hcondition.exists_parts
    simp only [conditions]
    exact (facing_emit (facing_fixed (quoteless_indentation _) facing_nil)).bind fun _ _ ↦
      (facing_condition hR indent hcondition).bind fun _ _ ↦ (ih hmore).bind_pure

end Clauses

/-! ### Statements -/

section Statements

open Read

variable {R : TextRelation} {S : String → String → Prop}

theorem copied_intercalate (hR : Carries R S) (hnodes : ∀ column ∈ nodes, column.isTerm = true)
    (h : RelatedNodes R nodes others) :
    Copied S (nodes.flatMap valueTexts) (others.flatMap valueTexts)
      (", ".intercalate (nodes.map Node.text)) (", ".intercalate (others.map Node.text)) := by
  induction h with
  | nil => exact .fixed rfl
  | cons hcolumn hrest ih =>
    obtain ⟨hfirst, hmore⟩ := List.forall_mem_cons.mp hnodes
    obtain ⟨t, u, rfl, rfl, hterm⟩ := exists_terms hfirst hcolumn
    have htext := Copied.copied (hR.term hterm)
    have hrest' := ih hmore
    cases hrest with
    | nil => simpa [Node.text, valueTexts] using htext
    | cons _ _ =>
      simp only [List.map_cons, String.intercalate_cons_cons]
      exact .append (.append htext (.fixed rfl)) hrest'

/-- The line with the keyword of a clause. -/
theorem facing_heading (hR : Carries R S) (indent : Int) (hword : word.toList.all (!Word.isQuote ·) = true)
    {fresh after : Bool} {xs ys : List String} {edits others : List Edit}
    (h : FacingEdits S true xs ys edits others after) :
    FacingEdits S fresh xs ys (.addLine (indentation indent ++ word) :: edits)
      (.addLine (indentation indent ++ word) :: others) after :=
  facing_addLine hR.nonempty (.append (copied_indentation indent) (.fixed hword)) h

theorem facing_tableEdits (hR : Carries R S) {table tableOther : String}
    (htable : R .identifier table tableOther) (hnodes : ∀ column ∈ nodes, column.isTerm = true)
    (h : RelatedNodes R nodes others) :
    FacingEdits S true (table :: nodes.flatMap valueTexts) (tableOther :: others.flatMap valueTexts)
      (tableEdits table nodes) (tableEdits tableOther others) true := by
  have hempty : nodes.isEmpty = others.isEmpty := by cases h <;> rfl
  have hcolumns : FacingEdits S true (nodes.flatMap valueTexts) (others.flatMap valueTexts)
      (if nodes.isEmpty then []
        else [.extendLast (" (" ++ ", ".intercalate (nodes.map Node.text) ++ ")")])
      (if others.isEmpty then []
        else [.extendLast (" (" ++ ", ".intercalate (others.map Node.text) ++ ")")]) true := by
    rw [← hempty]
    split
    · rename_i hnil
      obtain rfl : nodes = [] := List.isEmpty_iff.mp hnil
      cases h
      exact facing_nil
    · exact facing_extendLast hR.nonempty ((copied_intercalate hR hnodes h).enclosed rfl rfl)
  exact facing_addLine hR.nonempty (.fixed rfl)
    (facing_addLine hR.nonempty (.append (.fixed rfl) (.copied (hR.text htable))) hcolumns)

theorem facing_groupByEdits (hR : Carries R S) (indent : Int) {rollup rollupOther : Option String}
    (hnodes : ∀ item ∈ nodes, item.isTerm = true) (h : RelatedNodes R nodes others)
    (hrollup : Option.Rel (R .rollupWord) rollup rollupOther) :
    FacingEdits S true (nodes.flatMap valueTexts) (others.flatMap valueTexts)
      (groupByEdits indent nodes rollup) (groupByEdits indent others rollupOther) true := by
  unfold groupByEdits
  rw [← hR.isPresent_eq hrollup]
  apply FacingEdits.append_fixed (facing_heading hR indent rfl (facing_groupItemsEdits hR hnodes h))
  split
  · exact facing_heading hR _ rfl facing_nil
  · exact facing_nil

theorem isKeptCondition_of_areLinked {conditions : List Node} (h : AreLinked conditions)
    (hbuilt : ∀ node ∈ conditions, WellBuilt node) (hkept : ∀ node ∈ conditions, IsKept node) :
    Alternate IsKeptCondition conditions :=
  (alternate_of_areLinked h fun node hmem hnode ↦
    ⟨hnode, hbuilt node hmem, (Node.everywhere_iff.mp (hkept node hmem)).1⟩).1

theorem isSemicolon_related {node other : Node} (hkept : node.isAbandoned = false)
    (h : node.Related R other) : isSemicolon node = isSemicolon other := by
  cases h with
  | abandoned habandoned _ => simp [hkept] at habandoned
  | _ => rfl

mutual

theorem facing_statement (hR : Carries R S) (indent : Int) {node other : Node}
    (hnode : node.isStatement = true) (hbuilt : WellBuilt node) (hkept : IsKept node)
    (h : node.Related R other) :
    FacingDrafts S true (statementTexts node) (statementTexts other) (statement indent node)
      (statement indent other) true := by
  obtain ⟨hfits, hchildren⟩ := wellBuilt_iff.mp hbuilt
  obtain ⟨hself, hkeptChildren⟩ := Node.everywhere_iff.mp hkept
  cases h with
  | call _ _ _ _ => exact facing_fail _
  | selectClause hword hitems =>
    have hupper := Copied.append (copied_indentation indent) (.copied (hR.upper (by decide) hword))
    simp only [statement]
    exact (facing_emit (facing_addLine hR.nonempty hupper
      (facing_selectItemsEdits hR indent hfits hchildren hitems))).bind_pure
  | fromClause _ hparts =>
    simp only [statement, fromClause]
    exact ((facing_emit (facing_heading hR indent rfl facing_nil)).bind fun _ _ ↦
      facing_fromParts hR indent hfits hchildren hparts).bind_pure
  | whereClause _ hnodes =>
    have hlinked := isKeptCondition_of_areLinked hfits hchildren hkeptChildren
    simp only [statement]
    exact (facing_emit (facing_heading hR indent rfl facing_nil)).bind fun _ _ ↦
      (facing_conditions hR indent hlinked hnodes).bind_pure
  | groupByClause hitems hrollup =>
    simp only [statement]
    exact (facing_emit (facing_groupByEdits hR indent hfits hitems hrollup)).bind_pure
  | havingClause _ hnodes =>
    have hlinked := isKeptCondition_of_areLinked hfits hchildren hkeptChildren
    simp only [statement, having]
    exact ((facing_emit (facing_heading hR indent rfl facing_nil)).bind fun _ _ ↦
      facing_havingConditions hR indent hlinked hnodes).bind_pure
  | orderByClause hitems =>
    simp only [statement, orderBy]
    exact ((facing_emit (facing_heading hR indent rfl facing_nil)).bind fun _ _ ↦
      facing_orderItems hR indent hfits hitems).bind_pure
  | limitClause hcount hoffset hword =>
    have htext := copied_limitText hR hcount hoffset hword
    simp only [statement]
    exact (facing_emit (facing_addLine_nil hR.nonempty
      (.append (copied_indentation indent) htext))).bind_pure
  | @insertClause _ _ _ _ _ _ query queryOther _ htable hcolumns hquery =>
    have hstatements := facing_statements hR indent
      (fun child hchild ↦ ⟨hfits.2.2 child hchild, hchildren child (List.mem_append_right _ hchild),
        hkeptChildren child (List.mem_append_right _ hchild)⟩) hquery
    have htableEdits := facing_tableEdits hR htable hfits.2.1 hcolumns
    have hempty : query.isEmpty = queryOther.isEmpty := by cases hquery <;> rfl
    simp only [statement, ← hempty]
    refine (facing_emit htableEdits).bind fun _ _ ↦ ?_
    split
    · rename_i hnil
      obtain rfl : query = [] := List.isEmpty_iff.mp hnil
      cases hquery
      exact facing_pure _ _
    · exact hstatements.bind_pure
  | semicolon =>
    simp only [statement]
    exact (facing_emit (facing_extendLast hR.nonempty (.fixed rfl))).bind_pure
  | abandoned habandoned _ => simp [habandoned] at hself
  | _ => cases hnode

theorem facing_statements (hR : Carries R S) (indent : Int) {nodes others : List Node}
    (hnodes : ∀ node ∈ nodes, node.isStatement = true ∧ WellBuilt node ∧ IsKept node)
    (h : RelatedNodes R nodes others) :
    FacingDrafts S true (shownTexts nodes) (shownTexts others) (statements indent nodes)
      (statements indent others) true := by
  cases nodes with
  | nil =>
    cases h
    simp only [statements]
    exact (facing_emit (facing_endLine hR.nonempty facing_nil)).bind_pure
  | cons node rest =>
    obtain ⟨⟨hstatement, hbuilt, hkept⟩, hrest⟩ := List.forall_mem_cons.mp hnodes
    cases h with
    | @cons _ other _ more hfirst hmore =>
      have hnode := facing_statement hR indent hstatement hbuilt hkept hfirst
      have hothers := facing_statements hR indent hrest hmore
      have hgap : FacingEdits S true [] []
          (if isSemicolon node && !rest.isEmpty then [.blankLines 2] else [])
          (if isSemicolon other && !more.isEmpty then [.blankLines 2] else []) true := by
        rw [isSemicolon_related (Node.everywhere_iff.mp hkept).1 hfirst,
          show rest.isEmpty = more.isEmpty by cases hmore <;> rfl]
        split
        · exact facing_blankLines hR.nonempty 2
        · exact facing_nil
      simp only [statements]
      exact hnode.bind fun _ _ ↦ (facing_emit hgap).bind fun _ _ ↦ hothers.bind_pure

end

/-- The layouts of related trees have lines with the same frame around the shown texts, or fail in the same
way. -/
theorem copiedLines_style (hR : Carries R S) (indent : Int)
    (hnodes : ∀ node ∈ nodes, node.isStatement = true ∧ WellBuilt node ∧ IsKept node)
    (h : RelatedNodes R nodes others) :
    Agree (fun styled copy ↦ CopiedLines S (shownTexts nodes) (shownTexts others) styled.lines copy.lines)
      (style indent nodes) (style indent others) := by
  apply (facing_statements hR indent hnodes h [] [] {} {} LineBuffer.faces_empty).bind
  rintro ⟨tree, buffer⟩ ⟨treeOther, other⟩ ⟨ls, ms, ps, qs, hxs, hys, hlines, hline, hfresh⟩
  obtain ⟨rfl, rfl⟩ := hline.eq_nil hR.nonempty (hfresh rfl)
  rw [List.nil_append, List.append_nil] at hxs hys
  exact .ok (hxs ▸ hys ▸ hlines)

end Statements

end SqlLayout.Layout

namespace SqlLayout

open Read Layout

def copiedTexts (sql : String) : Except Fault (List String) :=
  (tokensOf sql >>= parse).map shownTexts

/-- Related tokens are formatted as lines with the same frame around the copied texts. -/
theorem exists_copiedLines {R : TextRelation} {S : String → String → Prop} (hoffset : KeepsOffset R)
    (hR : Carries R S) {sql other : String}
    (h : Agree (RelatedTokens R) (tokensOf sql) (tokensOf other)) {lines : List String}
    (hlines : format sql = .ok lines) :
    ∃ texts copy copies, copiedTexts sql = .ok texts ∧ format other = .ok copy ∧
      copiedTexts other = .ok copies ∧ CopiedLines S texts copies lines copy := by
  obtain ⟨tokens, htokens, hrest⟩ := bind_eq_ok.mp hlines
  obtain ⟨nodes, hnodes, hrest⟩ := bind_eq_ok.mp hrest
  obtain ⟨styled, hstyled, hpure⟩ := bind_eq_ok.mp hrest
  cases hpure
  have hgood : ∀ node ∈ nodes, node.isStatement = true ∧ WellBuilt node ∧ IsKept node := by
    intro node hmem
    obtain ⟨hstatement, hbuilt⟩ := wellBuilt_of_parse hnodes node hmem
    exact ⟨hstatement, hbuilt, isKept_of_parse hnodes node hmem⟩
  -- Each stage of the second run succeeds because the stage of the first does.
  obtain ⟨others, hothers, hrelated⟩ := h.exists_ok htokens
  obtain ⟨trees, htrees, hrelated⟩ := (parse_related hoffset hrelated).exists_ok hnodes
  obtain ⟨copy, hcopy, hcopied⟩ := (copiedLines_style hR 0 hgood hrelated).exists_ok hstyled
  refine ⟨shownTexts nodes, copy.lines, shownTexts trees, ?_, ?_, ?_, hcopied⟩
  · rw [copiedTexts, htokens]
    exact map_eq_ok.mpr ⟨nodes, hnodes, rfl⟩
  · exact bind_eq_ok.mpr ⟨others, hothers, bind_eq_ok.mpr ⟨trees, htrees,
      bind_eq_ok.mpr ⟨copy, hcopy, rfl⟩⟩⟩
  · rw [copiedTexts, hothers]
    exact map_eq_ok.mpr ⟨trees, htrees, rfl⟩

end SqlLayout
