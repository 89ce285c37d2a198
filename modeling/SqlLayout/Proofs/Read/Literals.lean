import Mathlib.Data.List.Flatten
import SqlLayout.Proofs.Layout.Copied
import SqlLayout.Proofs.Read.Completed
import SqlLayout.Proofs.Words.Literals

/-!
# The literals of a tree

The literals that a layout copies from a tree are literals of the tokens that the tree was read from, in the
same order.  None is made up, changed or moved, though some are left out: the alias of a call without its AS,
a table behind an ON, the token behind a comparison of two calls.
-/

namespace SqlLayout.Read

open Text Word Layout

def AreTyped (tokens : List Token) : Prop :=
  ∀ token ∈ tokens, token.IsTyped

/-- The literals among some texts stand in front of those of `rest` in the tokens. -/
def Yields (texts : List String) (tokens rest : List Token) : Prop :=
  (texts.filter isQuoted ++ Token.literals rest).Sublist (Token.literals tokens)

section Yields

variable {texts others : List String} {tokens rest more : List Token} {token : Token} {count taken : Nat}

theorem AreTyped.head (h : AreTyped (token :: rest)) : token.IsTyped :=
  h token List.mem_cons_self

theorem AreTyped.tail (h : AreTyped (token :: rest)) : AreTyped rest :=
  fun other hother ↦ h other (List.mem_cons_of_mem _ hother)

theorem AreTyped.drop (h : AreTyped tokens) (count : Nat) : AreTyped (tokens.drop count) :=
  fun token htoken ↦ h token (List.mem_of_mem_drop htoken)

theorem AreTyped.quoteless (h : AreTyped (token :: rest)) (hkind : token.kind ≠ .str) :
    Quoteless token.text.toList := by
  rcases h.head with ⟨hstr, -⟩ | ⟨-, hquoteless⟩
  · exact absurd hstr hkind
  · exact hquoteless

theorem yields_drop (count : Nat) : Yields [] tokens (tokens.drop count) := by
  apply List.Sublist.map
  apply List.Sublist.filter
  exact List.drop_sublist count tokens

theorem yields_nil : Yields [] tokens tokens :=
  yields_drop 0

theorem yields_cons : Yields [] (token :: rest) rest :=
  yields_drop 1

theorem Yields.trans (h : Yields texts tokens rest) (hmore : Yields others rest more) :
    Yields (texts ++ others) tokens more := by
  rw [Yields, List.filter_append, List.append_assoc]
  exact (List.Sublist.append_left hmore _).trans h

theorem Yields.sublist (h : Yields texts tokens rest) (hsub : others.Sublist texts) :
    Yields others tokens rest :=
  ((hsub.filter isQuoted).append_right _).trans h

theorem Yields.drop (h : Yields texts tokens (tokens.drop count))
    (hmore : Yields others (tokens.drop count) ((tokens.drop count).drop taken)) :
    Yields (texts ++ others) tokens (tokens.drop (count + taken)) := by
  rw [← List.drop_drop]
  exact h.trans hmore

/-- A text without a quote is not looked for among the tokens. -/
theorem Yields.cons_quoteless {text : String} (htext : Quoteless text.toList)
    (h : Yields texts tokens rest) : Yields (text :: texts) tokens rest := by
  rw [Yields, List.filter_cons_of_neg (by simp [isQuoted_of_quoteless htext])]
  exact h

theorem yields_text {kind : Kind} {text : String} (h : AreTyped (⟨kind, text⟩ :: rest)) :
    Yields [text] (⟨kind, text⟩ :: rest) rest := by
  have hquoted := Token.isQuoted_of_isTyped h.head
  by_cases hkind : kind = .str
  · simp [Yields, Token.literals, hquoted, hkind]
  · simp [Yields, Token.literals, hquoted, hkind]

theorem Yields.upper_cons {kind : Kind} {word : String} (h : AreTyped (⟨kind, word⟩ :: rest))
    (hkind : kind ≠ .str) (htexts : Yields texts rest more) :
    Yields (upper word :: texts) (⟨kind, word⟩ :: rest) more := by
  apply Yields.cons_quoteless (quoteless_upper (h.quoteless hkind))
  exact yields_cons.trans htexts

end Yields

/-! ### Values and calls -/

section Values

variable {tokens rest : List Token} {token : Token} {node : Node} {nodes : List Node}
  {count bound : Nat}

theorem valueTexts_of_value? (h : value? token = some node) : valueTexts node = [token.text] := by
  obtain ⟨kind, -, rfl⟩ := Option.map_eq_some_iff.mp h
  rfl

theorem callTexts_of_value? (h : value? token = some node) : callTexts node = [token.text] := by
  obtain ⟨kind, -, rfl⟩ := Option.map_eq_some_iff.mp h
  simp [Node.plain, callTexts]

theorem aliasName?_yields (h : AreTyped tokens) {name : String} (hname : aliasName? tokens = some name) :
    Yields [name] tokens (tokens.drop 1) := by
  unfold aliasName? at hname
  split at hname
  · split at hname
    · cases hname
      exact yields_text h
    · cases hname
  · cases hname

theorem readAlias_yields (h : AreTyped tokens) :
    Yields (readAlias tokens).1.name.toList tokens (tokens.drop (readAlias tokens).2) := by
  unfold readAlias
  split
  · split
    · rename_i name hname
      exact yields_cons.trans (aliasName?_yields h.tail hname)
    · exact yields_cons
  · split
    · rename_i name hname
      exact aliasName?_yields h hname
    · exact yields_nil

theorem argTexts_append (args others : List Node) :
    argTexts (args ++ others) = argTexts args ++ argTexts others := by
  induction args with
  | nil => rfl
  | cons arg args ih => simp [argTexts, ih]

/-- A call shows its name, its arguments and at most its alias. -/
theorem call_yields {name : String} {paren : Token} {inner : List Token} {args : List Node} {taken : Nat}
    (h : AreTyped (⟨.func, name⟩ :: paren :: inner))
    (hargs : Yields (argTexts args) inner (inner.drop taken)) :
    Yields (callTexts (.call name args (readAlias (inner.drop taken)).1.asWord
        (readAlias (inner.drop taken)).1.name)) (⟨.func, name⟩ :: paren :: inner)
      ((⟨.func, name⟩ :: paren :: inner : List Token).drop
        (2 + taken + (readAlias (inner.drop taken)).2)) := by
  have hinner := h.tail.tail
  have halias := hargs.drop (readAlias_yields (hinner.drop taken))
  have hdrop : (⟨.func, name⟩ :: paren :: inner : List Token).drop
      (2 + taken + (readAlias (inner.drop taken)).2) =
        inner.drop (taken + (readAlias (inner.drop taken)).2) := by
    rw [Nat.add_assoc, ← List.drop_drop]
    rfl
  rw [callTexts, hdrop]
  apply Yields.upper_cons h (by simp)
  apply yields_cons.trans
  apply halias.sublist
  apply List.Sublist.append_left
  split
  · exact List.Sublist.refl _
  · exact List.nil_sublist _

theorem readArgs_yields {first : Bool} {args : List Node} (h : AreTyped tokens)
    (hargs : readArgs bound first tokens = .ok (args, count)) :
    Yields (argTexts args) tokens (tokens.drop count) := by
  induction bound generalizing first tokens args count with
  | zero => cases hargs
  | succ bound ih =>
    cases tokens with
    | nil => cases hargs
    | cons token rest =>
      rw [readArgs_succ] at hargs
      obtain ⟨⟨arg, taken⟩, harg, hafter⟩ := bind_eq_ok.mp hargs
      have hfirst : Yields (argTexts arg) (token :: rest) ((token :: rest).drop taken) := by
        rcases readArg_cases harg with ⟨node, hvalue, rfl, rfl⟩ |
          ⟨paren, inner, args, taken, hfunc, rfl, -, hinner, rfl, rfl⟩ | ⟨-, -, -, rfl, rfl⟩
        · rw [argTexts, argTexts, List.append_nil, callTexts_of_value? hvalue]
          exact yields_text h
        · obtain ⟨kind, name⟩ := token
          cases hfunc
          rw [argTexts, argTexts, List.append_nil]
          exact call_yields h (ih h.tail.tail hinner)
        · exact yields_nil
      rcases readAfterArg_cases hafter with
        ⟨word, more, others, counted, hdrop, hothers, rfl, rfl⟩ | ⟨word, more, hdrop, rfl, rfl⟩
      · have htyped := h.drop taken
        rw [hdrop] at htyped
        rw [argTexts_append, Nat.add_assoc]
        apply hfirst.drop
        rw [hdrop, Nat.add_comm]
        exact yields_cons.trans (ih htyped.tail hothers)
      · rw [← List.append_nil (argTexts args)]
        exact hfirst.drop (yields_drop 1)

theorem readCall_yields (h : AreTyped tokens) (hcall : readCall tokens = .ok (node, count)) :
    Yields (callTexts node) tokens (tokens.drop count) := by
  obtain ⟨name, paren, inner, args, taken, rfl, -, hargs, rfl, rfl⟩ := readCall_eq_ok.mp hcall
  exact call_yields h (readArgs_yields h.tail.tail hargs)

theorem readNamed_yields (h : AreTyped tokens) (hnamed : readNamed tokens = .ok (node, count)) :
    Yields (namedTexts node) tokens (tokens.drop count) := by
  unfold readNamed at hnamed
  split at hnamed
  · cases hnamed
    exact (yields_text h).trans (readAlias_yields h.tail)
  · cases hnamed
    exact (yields_text h).trans (readAlias_yields h.tail)
  · cases hnamed
  · cases hnamed

theorem readBranches_yields (h : AreTyped tokens) :
    Yields ((readBranches tokens).1.flatMap branchTexts) tokens
      (tokens.drop (readBranches tokens).2) := by
  fun_induction readBranches tokens with
  | case1 whenWord condition thenWord result rest hkinds branches count hmore ih =>
    have hrest := h.tail
    have hothers := ih hrest.tail.tail.tail
    rw [hmore] at hothers
    have hresult := (yields_text hrest.tail.tail).trans hothers
    exact yields_cons.trans ((yields_text hrest).trans (yields_cons.trans hresult))
  | case3 elseWord result rest hkinds branches count hmore ih =>
    have hothers := ih h.tail.tail
    rw [hmore] at hothers
    exact yields_cons.trans ((yields_text h.tail).trans hothers)
  | _ => exact yields_nil

theorem selectItemTexts_of_isTerm (h : node.isTerm = true) : selectItemTexts node = namedTexts node := by
  cases node <;> first | rfl | cases h

theorem readSelectItem_yields (h : AreTyped tokens)
    (hitem : readSelectItem tokens = .ok (node, count)) :
    Yields (selectItemTexts node) tokens (tokens.drop count) := by
  unfold readSelectItem at hitem
  split at hitem
  · rw [selectItemTexts_of_isTerm (readNamed_isTerm hitem)]
    exact readNamed_yields h hitem
  · rw [selectItemTexts_of_isTerm (readNamed_isTerm hitem)]
    exact readNamed_yields h hitem
  · have hcall := readCall_yields h hitem
    obtain ⟨_, _, _, _, _, -, -, -, rfl, -⟩ := readCall_eq_ok.mp hitem
    exact hcall
  · cases hitem
    exact Yields.upper_cons h (by simp) (readBranches_yields h.tail)
  · cases hitem

end Values

/-! ### Lists of items -/

section Items

variable {tokens : List Token} {node : Node} {nodes : List Node} {count bound : Nat}

/-- What all items yield, a list of them yields: a separator is one token, and its node has no literal. -/
theorem readList_yields {item : List Token → Except Fault (List Node × Nat)}
    {separator : List Token → Option (List Node × List Token)} {textsOf : Node → List String}
    (hitem : ∀ {tokens nodes count}, AreTyped tokens → item tokens = .ok (nodes, count) →
      Yields (nodes.flatMap textsOf) tokens (tokens.drop count))
    (hseparator : ∀ {tokens between more}, AreTyped tokens → separator tokens = some (between, more) →
      tokens.drop 1 = more ∧ Yields (between.flatMap textsOf) tokens more)
    (h : AreTyped tokens) (hread : readList item separator bound tokens = .ok (nodes, count)) :
    Yields (nodes.flatMap textsOf) tokens (tokens.drop count) := by
  induction bound generalizing tokens nodes count with
  | zero =>
    cases hread
    exact yields_nil
  | succ bound ih =>
    cases tokens with
    | nil =>
      cases hread
      exact yields_nil
    | cons token rest =>
      obtain ⟨found, hfound, hmore⟩ := bind_eq_ok.mp hread
      have hfirst := hitem h hfound
      split at hmore
      · cases hmore
        exact hfirst
      · rename_i between more hseparated
        obtain ⟨others, hothers, hall⟩ := map_eq_ok.mp hmore
        cases hall
        obtain ⟨rfl, hbetween⟩ := hseparator (h.drop _) hseparated
        rw [List.flatMap_append, List.flatMap_append]
        rw [← List.drop_drop, ← List.drop_drop]
        exact (hfirst.trans hbetween).trans (ih ((h.drop _).drop _) hothers)

theorem comma?_yields {between : List Node} {more : List Token} {textsOf : Node → List String}
    (h : comma? tokens = some (between, more)) :
    tokens.drop 1 = more ∧ Yields (between.flatMap textsOf) tokens more := by
  obtain ⟨found, hfound, hpair⟩ := Option.map_eq_some_iff.mp h
  cases hpair
  obtain ⟨word, rfl⟩ := behindComma?_eq_some.mp hfound
  exact ⟨rfl, yields_cons⟩

theorem link?_yields {between : List Node} {more : List Token} {textsOf : Node → List String}
    (htexts : ∀ word, (textsOf (.link word)).Sublist [upper word]) (h : AreTyped tokens)
    (hlink : link? tokens = some (between, more)) :
    tokens.drop 1 = more ∧ Yields (between.flatMap textsOf) tokens more := by
  obtain ⟨found, hfound, hpair⟩ := Option.map_eq_some_iff.mp hlink
  cases hpair
  unfold behindLink? at hfound
  split at hfound
  · rename_i word more
    cases hfound
    refine ⟨rfl, ?_⟩
    rw [List.flatMap_cons, List.flatMap_nil, List.append_nil]
    have hword : Yields [upper word] (⟨.link, word⟩ :: more) more :=
      Yields.upper_cons h (by simp) yields_nil
    exact hword.sublist (htexts word)
  · cases hfound

/-- What a reader of single nodes yields, it yields as a reader of items. -/
theorem single_yields {read : List Token → Except Fault (Node × Nat)} {textsOf : Node → List String}
    (hread : ∀ {tokens node count}, AreTyped tokens → read tokens = .ok (node, count) →
      Yields (textsOf node) tokens (tokens.drop count))
    (h : AreTyped tokens) (hitem : (read tokens).map single = .ok (nodes, count)) :
    Yields (nodes.flatMap textsOf) tokens (tokens.drop count) := by
  obtain ⟨⟨node, taken⟩, hnode, hpair⟩ := map_eq_ok.mp hitem
  cases hpair
  simpa [single] using hread h hnode

theorem selectItem_yields (h : AreTyped tokens) (hitem : selectItem tokens = .ok (nodes, count)) :
    Yields (nodes.flatMap selectItemTexts) tokens (tokens.drop count) :=
  single_yields readSelectItem_yields h hitem

theorem readSelect_yields (h : AreTyped tokens) (hselect : readSelect tokens = .ok (node, count))
    (hkind : ∀ token ∈ tokens.head?, token.kind ≠ .str) :
    Yields (statementTexts node) tokens (tokens.drop count) := by
  cases tokens with
  | nil => cases hselect
  | cons token rest =>
    obtain ⟨⟨items, taken⟩, hitems, hfound⟩ := bind_eq_ok.mp hselect
    cases hfound
    rw [readSelectItems_eq_readList] at hitems
    rw [statementTexts]
    apply Yields.upper_cons h (hkind token rfl)
    exact readList_yields selectItem_yields (fun _ ↦ comma?_yields) h.tail hitems

theorem groupItem_yields (h : AreTyped tokens) (hitem : groupItem tokens = .ok (nodes, count)) :
    Yields (nodes.flatMap valueTexts) tokens (tokens.drop count) := by
  unfold groupItem at hitem
  split at hitem
  · cases hitem
  · split at hitem
    · cases hitem
    · cases hitem
      exact yields_text h

theorem readGroupBy_yields (h : AreTyped tokens) (hgroup : readGroupBy tokens = .ok (node, count)) :
    Yields (statementTexts node) tokens (tokens.drop count) := by
  obtain ⟨⟨items, taken⟩, hitems, hfound⟩ := bind_eq_ok.mp hgroup
  rw [readGroupItems_eq_readList (Nat.le_refl _)] at hitems
  have hyields : Yields (items.flatMap valueTexts) tokens (tokens.drop (taken + 1)) := by
    rw [Nat.add_comm]
    exact (yields_drop 1).drop
      (readList_yields groupItem_yields (fun _ ↦ comma?_yields) (h.drop 1) hitems)
  dsimp only at hfound
  split at hfound
  · cases hfound
    rw [statementTexts, ← List.append_nil (items.flatMap valueTexts)]
    exact hyields.drop (yields_drop 1)
  · cases hfound
    rw [statementTexts]
    exact hyields

theorem orderItem_yields (h : AreTyped tokens) (hitem : orderItem tokens = .ok (nodes, count)) :
    Yields (nodes.flatMap sortTexts) tokens (tokens.drop count) := by
  unfold orderItem at hitem
  split at hitem
  · cases hitem
  · rename_i token rest
    split at hitem
    · cases hitem
    · cases hitem
      rw [List.flatMap_cons, List.flatMap_nil, List.append_nil, sortTexts]
      have hsort : Yields ((sortWord? rest).map upper).toList rest
          (rest.drop (if (sortWord? rest).isSome then 1 else 0)) := by
        unfold sortWord?
        split
        · exact Yields.upper_cons h.tail (by simp) yields_nil
        · exact Yields.upper_cons h.tail (by simp) yields_nil
        · exact yields_nil
      have hall := (yields_text h).trans hsort
      cases hword : sortWord? rest with
      | none => simpa [hword] using hall
      | some word => simpa [hword] using hall

theorem readOrderBy_yields (h : AreTyped tokens) (horder : readOrderBy tokens = .ok (node, count)) :
    Yields (statementTexts node) tokens (tokens.drop count) := by
  obtain ⟨⟨items, taken⟩, hitems, hfound⟩ := bind_eq_ok.mp horder
  cases hfound
  rw [readOrderItems_eq_readList] at hitems
  rw [statementTexts, Nat.add_comm]
  exact (yields_drop 1).drop
    (readList_yields orderItem_yields (fun _ ↦ comma?_yields) (h.drop 1) hitems)

theorem yields_of_quoteless {texts : List String} (h : ∀ text ∈ texts, Quoteless text.toList) (count : Nat) :
    Yields texts tokens (tokens.drop count) := by
  induction texts with
  | nil => exact yields_drop count
  | cons text texts ih =>
    obtain ⟨htext, htexts⟩ := List.forall_mem_cons.mp h
    exact (ih htexts).cons_quoteless htext

theorem readPlainLimit_yields (h : AreTyped tokens)
    (hlimit : readPlainLimit tokens = .ok (node, count)) :
    Yields (statementTexts node) tokens (tokens.drop count) := by
  unfold readPlainLimit at hlimit
  split at hlimit
  · cases hlimit
    rw [statementTexts, limitTexts]
    exact yields_cons.trans (yields_text h.tail)
  · cases hlimit

theorem readLimit_yields (h : AreTyped tokens) (hlimit : readLimit tokens = .ok (node, count)) :
    Yields (statementTexts node) tokens (tokens.drop count) := by
  unfold readLimit at hlimit
  split at hlimit
  · cases hlimit
    have hoffset := h.tail.quoteless (by simp)
    have hnumber := h.tail.tail.tail.quoteless (by simp)
    apply yields_of_quoteless
    simpa [statementTexts, limitTexts, isPresent] using ⟨hoffset, hnumber⟩
  · split at hlimit
    · cases hlimit
      have hnumber := h.tail.quoteless (by simp)
      have hoffset := h.tail.tail.tail.quoteless (by simp)
      apply yields_of_quoteless
      rw [statementTexts, limitTexts]
      dsimp only
      split
      · simpa using ⟨hnumber, hoffset⟩
      · simpa using ⟨hoffset, hnumber⟩
    · exact readPlainLimit_yields h hlimit
  · exact readPlainLimit_yields h hlimit

end Items

/-! ### Conditions -/

section Conditions

variable {tokens rest : List Token} {token : Token} {node : Node} {nodes parts : List Node}
  {count bound : Nat} {statements : List Token → Statements}

def partTexts : Node → List String
  | .group items => items.flatMap valueTexts
  | node => operandTexts node

theorem part_yields (h : AreTyped (token :: rest)) :
    Yields (partTexts (part token)) (token :: rest) rest := by
  obtain ⟨kind, text⟩ := token
  have htext : Yields [text] (⟨kind, text⟩ :: rest) rest := yields_text h
  cases kind with
  | compare =>
    simp only [part_compare, partTexts, operandTexts]
    exact Yields.upper_cons h (by simp) yields_nil
  | identifier | number | str =>
    simpa [part, value?, termKind?, Node.plain, partTexts, operandTexts, callTexts] using htext
  | _ =>
    simp only [part, value?, termKind?, Option.map_none, Option.getD_none, partTexts, operandTexts,
      callTexts]
    exact yields_cons

/-- The tokens in front that stand for one part each. -/
theorem parts_yields (h : AreTyped tokens) (count : Nat) :
    Yields (((tokens.take count).map part).flatMap partTexts) tokens (tokens.drop count) := by
  induction count generalizing tokens with
  | zero => exact yields_nil
  | succ count ih =>
    cases tokens with
    | nil => exact yields_nil
    | cons token rest => exact (part_yields h).trans (ih h.tail)

theorem operandTexts_sublist (node : Node) : (operandTexts node).Sublist (partTexts node) := by
  cases node with
  | group items => exact List.nil_sublist _
  | _ => exact List.Sublist.refl _

theorem plainConditionTexts_sublist (parts : List Node) :
    (plainConditionTexts parts).Sublist (parts.flatMap partTexts) := by
  unfold plainConditionTexts
  split
  all_goals simp [partTexts, operandTexts, callTexts]

theorem detachNot_sublist (parts : List Node) : (detachNot parts).Sublist parts := by
  unfold detachNot
  split
  · exact List.sublist_cons_self _ _
  · exact List.Sublist.refl _

theorem whereTexts_sublist (parts : List Node) :
    (whereTexts (.condition parts)).Sublist (parts.flatMap partTexts) :=
  (plainConditionTexts_sublist _).trans ((detachNot_sublist parts).flatMap _)

theorem havingTexts_sublist (node : Node) : (havingTexts node).Sublist (whereTexts node) := by
  unfold havingTexts
  split
  · exact List.Sublist.refl _
  · exact List.Sublist.refl _
  · exact List.nil_sublist _

theorem simpleCondition?_yields (h : AreTyped tokens)
    (hsimple : simpleCondition? tokens = some (node, count)) :
    Yields (whereTexts node) tokens (tokens.drop count) := by
  rw [simpleCondition?_eq] at hsimple
  obtain ⟨places, -, hplaces⟩ := List.exists_of_findSome?_eq_some hsimple
  unfold plainCondition? at hplaces
  split at hplaces
  · cases hplaces
    exact (parts_yields h _).sublist (whereTexts_sublist _)
  · cases hplaces

theorem listed_yields {inner : List Token} {closing : Token} (h : AreTyped (inner ++ closing :: rest)) :
    Yields ((inner.filterMap value?).flatMap valueTexts) (inner ++ closing :: rest) rest := by
  induction inner with
  | nil => exact yields_cons
  | cons token inner ih =>
    have hinner := ih h.tail
    cases hvalue : value? token with
    | none =>
      rw [List.filterMap_cons_none hvalue]
      exact yields_cons.trans hinner
    | some item =>
      rw [List.filterMap_cons_some hvalue, List.flatMap_cons, valueTexts_of_value? hvalue]
      exact (yields_text h).trans hinner

theorem readOperand_yields (h : AreTyped (token :: rest)) (hoperand : readOperand token = .ok node) :
    Yields (valueTexts node) (token :: rest) rest := by
  unfold readOperand at hoperand
  split at hoperand
  · rename_i hvalue
    cases hoperand
    rw [valueTexts_of_value? hvalue]
    exact yields_text h
  · split at hoperand
    · cases hoperand
      exact yields_cons
    · cases hoperand

theorem readMembership_yields (h : AreTyped tokens)
    (hmembership : readMembership statements tokens = .ok (node, count)) :
    Yields (whereTexts node) tokens (tokens.drop count) := by
  obtain ⟨left, op, inner, operand, found, taken, rfl, hoperand, hgroup, rfl, rfl⟩ :=
    readMembership_eq_ok.mp hmembership
  rcases readGroup_cases hgroup with ⟨listed, closing, more, hinner, -, -, rfl, rfl⟩ |
    ⟨-, query, less, counted, -, -, hquery⟩
  · have hlisted : Yields ((listed.filterMap value?).flatMap valueTexts) (inner.drop 1)
        ((left :: op :: inner).drop (listed.length + 1 + 3)) := by
      have hdrop : (left :: op :: inner).drop (listed.length + 1 + 3) = more := by
        rw [show listed.length + 1 + 3 = 1 + (listed.length + 1) + 2 by omega, List.drop_succ_cons,
          List.drop_succ_cons, ← List.drop_drop, hinner]
        simp
      rw [hdrop, hinner]
      exact listed_yields (hinner ▸ h.tail.tail.drop 1)
    have hleft := readOperand_yields h hoperand
    apply (hleft.trans (yields_cons.trans ((yields_drop 1).trans hlisted))).sublist
    cases operand with
    | term t => exact List.Sublist.refl _
    | _ => exact List.nil_sublist _
  · obtain ⟨all, rfl⟩ := readGroup_of_subselect hquery
    have hnone : whereTexts (.condition [operand, .operator op.text, .subselect all]) = [] := by
      cases operand <;> rfl
    rw [hnone]
    exact yields_drop _

theorem readCondition_yields {membership : Bool} (h : AreTyped tokens)
    (hcondition : readCondition statements membership tokens = .ok (node, count)) :
    Yields (whereTexts node) tokens (tokens.drop count) := by
  rcases readCondition_cases hcondition with hsimple | ⟨-, ⟨word, rest, -, -, hnegated⟩ | ⟨-, -, hmember⟩⟩
  · exact simpleCondition?_yields h hsimple
  · obtain ⟨call, op, right, more, operand, hcall, -, -, rfl⟩ := readNegatedCall_eq_ok.mp hnegated
    obtain ⟨_, _, _, _, _, -, -, -, rfl, -⟩ := readCall_eq_ok.mp hcall
    exact yields_drop _
  · exact readMembership_yields h hmember

theorem readConditions_yields (h : AreTyped tokens)
    (hconditions : readConditions statements tokens = .ok (nodes, count)) :
    Yields (nodes.flatMap whereTexts) tokens (tokens.drop count) := by
  rw [readConditions, readLinked_eq_readList] at hconditions
  have hlink : ∀ word, (whereTexts (.link word)).Sublist [upper word] := by
    intro word
    rw [whereTexts]
  exact readList_yields (single_yields readCondition_yields) (link?_yields hlink) h hconditions

end Conditions

/-! ### Tables and joins -/

section Joins

variable {tokens : List Token} {node : Node} {nodes parts : List Node} {count bound : Nat}

theorem joinPartTexts_sublist (parts : List Node) :
    (joinPartTexts (.condition parts)).Sublist (parts.flatMap partTexts) :=
  List.Sublist.flatMap_right _ fun node _ ↦ operandTexts_sublist node

/-- A list of one condition, whose parts are yielded. -/
theorem condition_yields (h : Yields (parts.flatMap partTexts) tokens (tokens.drop count)) :
    Yields ([Node.condition parts].flatMap joinPartTexts) tokens (tokens.drop count) := by
  rw [List.flatMap_cons, List.flatMap_nil, List.append_nil]
  exact h.sublist (joinPartTexts_sublist parts)

theorem partTexts_of_readCall (h : readCall tokens = .ok (node, count)) :
    partTexts node = callTexts node := by
  obtain ⟨_, _, _, _, _, -, -, -, rfl, -⟩ := readCall_eq_ok.mp h
  rfl

theorem readNameComparison_yields (h : AreTyped tokens) :
    Yields ((readNameComparison tokens).1.flatMap joinPartTexts) tokens
      (tokens.drop (readNameComparison tokens).2) := by
  rw [readNameComparison_eq]
  split
  · exact condition_yields (parts_yields h 3)
  · exact yields_nil

theorem readCallOnRight_yields (h : AreTyped tokens)
    (hright : readCallOnRight tokens = .ok (nodes, count)) :
    Yields (nodes.flatMap joinPartTexts) tokens (tokens.drop count) := by
  rw [readCallOnRight_eq] at hright
  split at hright
  · obtain ⟨⟨call, taken⟩, hcall, hpair⟩ := map_eq_ok.mp hright
    cases hpair
    apply condition_yields
    rw [List.flatMap_append, List.flatMap_cons, List.flatMap_nil, List.append_nil,
      partTexts_of_readCall hcall, Nat.add_comm]
    exact (parts_yields h 2).drop (readCall_yields (h.drop 2) hcall)
  · cases hright
    exact yields_nil

theorem readCallOnLeft_yields (h : AreTyped tokens)
    (hleft : readCallOnLeft tokens = .ok (nodes, count)) :
    Yields (nodes.flatMap joinPartTexts) tokens (tokens.drop count) := by
  rw [readCallOnLeft_eq] at hleft
  split at hleft
  · obtain ⟨⟨call, taken⟩, hcall, hcompared⟩ := bind_eq_ok.mp hleft
    have hfirst := readCall_yields h hcall
    rw [← partTexts_of_readCall hcall] at hfirst
    have hrest := h.drop taken
    dsimp only [readCompared] at hcompared
    split at hcompared
    · cases hcompared
      apply condition_yields
      rw [List.flatMap_cons]
      exact hfirst.drop (parts_yields hrest 2)
    · split at hcompared
      · -- The token behind the second call is taken too.
        obtain ⟨⟨other, counted⟩, hother, hpair⟩ := map_eq_ok.mp hcompared
        cases hpair
        apply condition_yields
        have hsecond := readCall_yields (hrest.drop 1) hother
        rw [← partTexts_of_readCall hother] at hsecond
        have hall := hfirst.drop ((parts_yields hrest 1).drop hsecond)
        have hnext := hall.drop (yields_drop 1)
        rw [List.append_nil] at hnext
        have hcount : taken + 2 + counted = taken + (1 + counted) + 1 := by omega
        rw [hcount]
        simpa using hnext
      · cases hcompared
        exact yields_nil
  · cases hleft
    exact yields_nil

theorem readComparisons_yields (h : AreTyped tokens)
    (hcomparisons : readComparisons tokens = .ok (nodes, count)) :
    Yields (nodes.flatMap joinPartTexts) tokens (tokens.drop count) := by
  obtain ⟨⟨right, m⟩, hright, hrest⟩ := bind_eq_ok.mp hcomparisons
  obtain ⟨⟨left, k⟩, hleft, hpair⟩ := bind_eq_ok.mp hrest
  cases hpair
  rw [List.flatMap_append, List.flatMap_append]
  have hnames := readNameComparison_yields h
  have hfront := hnames.drop (readCallOnRight_yields (h.drop _) hright)
  exact hfront.drop (readCallOnLeft_yields (h.drop _) hleft)

def fromPartTexts : Node → List String
  | .join word => [upper word]
  | .onClause _ parts => parts.flatMap joinPartTexts
  | node => namedTexts node

theorem namedTexts_sublist (node : Node) : (namedTexts node).Sublist (fromPartTexts node) := by
  cases node with
  | join word => exact List.nil_sublist _
  | onClause word parts => exact List.nil_sublist _
  | _ => exact List.Sublist.refl _

theorem fromTexts_sublist (parts : List Node) :
    (fromTexts parts).Sublist (parts.flatMap fromPartTexts) := by
  fun_induction fromTexts parts with
  | case1 => exact List.Sublist.refl _
  | case2 word table rest ih =>
    rw [List.flatMap_cons, List.flatMap_cons]
    exact ((namedTexts_sublist table).append ih).cons_cons (upper word)
  | case3 word parts table rest ih =>
    rw [List.flatMap_cons, List.flatMap_cons]
    exact (ih.trans (List.sublist_append_right _ _)).append_left _
  | case4 word parts => simp [fromPartTexts]
  | case5 part rest _ _ _ ih =>
    rw [List.flatMap_cons]
    refine List.Sublist.append ?_ ih
    split
    · exact namedTexts_sublist part
    · exact List.nil_sublist _

theorem readJoinConditions_yields (h : AreTyped tokens)
    (hconditions : readJoinConditions bound tokens = .ok (nodes, count)) :
    Yields (nodes.flatMap joinPartTexts) tokens (tokens.drop count) := by
  rw [readJoinConditions_eq_readList] at hconditions
  have hlink : ∀ word, (joinPartTexts (.link word)).Sublist [upper word] := by
    intro word
    rw [joinPartTexts]
    · exact List.nil_sublist _
    · simp
  exact readList_yields readComparisons_yields (link?_yields hlink) h hconditions

theorem readFromPart_yields (h : AreTyped tokens)
    (hpart : readFromPart tokens = .ok (some (nodes, count))) :
    Yields (nodes.flatMap fromPartTexts) tokens (tokens.drop count) := by
  have hnamed : ∀ {node : Node} {count : Nat}, readNamed tokens = .ok (node, count) →
      Yields ([node].flatMap fromPartTexts) tokens (tokens.drop count) := by
    intro node count hnamed
    have hterm := readNamed_isTerm hnamed
    have htexts : fromPartTexts node = namedTexts node := by
      cases node <;> first | rfl | cases hterm
    rw [List.flatMap_cons, List.flatMap_nil, List.append_nil, htexts]
    exact readNamed_yields h hnamed
  unfold readFromPart at hpart
  split at hpart
  · obtain ⟨⟨node, taken⟩, hnode, hpair⟩ := bind_eq_ok.mp hpart
    cases hpair
    exact hnamed hnode
  · obtain ⟨⟨node, taken⟩, hnode, hpair⟩ := bind_eq_ok.mp hpart
    cases hpair
    exact hnamed hnode
  · cases hpart
    exact Yields.upper_cons h (by simp) yields_nil
  · obtain ⟨⟨conditions, taken⟩, hconditions, hpair⟩ := bind_eq_ok.mp hpart
    cases hpair
    rw [List.flatMap_cons, List.flatMap_nil, List.append_nil]
    exact yields_cons.trans (readJoinConditions_yields h.tail hconditions)
  · cases hpart
    exact yields_cons
  · cases hpart

theorem readFromParts_yields (h : AreTyped tokens)
    (hparts : readFromParts bound tokens = .ok (nodes, count)) :
    Yields (nodes.flatMap fromPartTexts) tokens (tokens.drop count) := by
  induction bound generalizing tokens nodes count with
  | zero =>
    cases hparts
    exact yields_nil
  | succ bound ih =>
    obtain ⟨found, hfound, hrest⟩ := bind_eq_ok.mp hparts
    cases found with
    | none =>
      cases hrest
      exact yields_nil
    | some part =>
      obtain ⟨⟨others, taken⟩, hothers, hpair⟩ := bind_eq_ok.mp hrest
      cases hpair
      rw [List.flatMap_append]
      exact (readFromPart_yields h hfound).drop (ih (h.drop _) hothers)

theorem readFrom_yields (h : AreTyped tokens) (hfrom : readFrom tokens = .ok (node, count)) :
    Yields (statementTexts node) tokens (tokens.drop count) := by
  cases tokens with
  | nil => cases hfrom
  | cons token rest =>
    obtain ⟨⟨parts, taken⟩, hparts, hpair⟩ := bind_eq_ok.mp hfrom
    cases hpair
    rw [statementTexts]
    exact (yields_cons.trans (readFromParts_yields h.tail hparts)).sublist (fromTexts_sublist parts)

end Joins

/-! ### Statements -/

section Statements

variable {tokens : List Token} {node : Node} {count bound : Nat} {statements : List Token → Statements}

def YieldsAll (statements : List Token → Statements) : Prop :=
  ∀ tokens, AreTyped tokens →
    Yields (shownTexts ((statements tokens).read.map Prod.fst)) tokens
      (tokens.drop (totalCount (statements tokens).read))

theorem readColumnList_yields {columns : List Node} (h : AreTyped tokens)
    (hcolumns : readColumnList tokens = .ok (columns, count)) :
    Yields (columns.flatMap valueTexts) tokens (tokens.drop count) := by
  rcases readColumnList_cases hcolumns with ⟨rfl, rfl⟩ | ⟨word, inner, taken, rfl, hfound, rfl⟩
  · exact yields_nil
  · obtain ⟨listed, closing, more, rfl, -, -, rfl, rfl⟩ := readColumns_cases hfound
    rw [List.drop_succ_cons, ← List.drop_drop, List.drop_left]
    exact yields_cons.trans (listed_yields h.tail)

theorem readSource_yields (hstatements : YieldsAll statements) {word table : String}
    {columns : List Node} (h : AreTyped tokens)
    (hsource : readSource statements word table columns tokens = .ok (node, count)) :
    ∃ texts, (statementTexts node).Sublist (table :: (columns.flatMap valueTexts ++ texts)) ∧
      Yields texts tokens (tokens.drop count) := by
  rcases readSource_cases hsource with ⟨values, -, rest, rows, taken, -, -, rfl, -⟩ |
    ⟨-, -, -, -, rfl, rfl⟩ | ⟨-, rfl, rfl⟩
  · exact ⟨[], by simp [statementTexts], yields_drop _⟩
  · refine ⟨_, ?_, hstatements _ h⟩
    rw [statementTexts]
  · refine ⟨[], ?_, yields_nil⟩
    rw [statementTexts, shownTexts]

theorem readInsert_yields (hstatements : YieldsAll statements) (h : AreTyped tokens)
    (hinsert : readInsert statements tokens = .ok (node, count)) :
    Yields (statementTexts node) tokens (tokens.drop count) := by
  obtain ⟨insert, table, rest, columns, taken, counted, rfl, -, hcolumns, hsource, rfl⟩ :=
    readInsert_eq_ok.mp hinsert
  have hrest := h.tail.tail
  obtain ⟨texts, hsub, htexts⟩ := readSource_yields hstatements (hrest.drop taken) hsource
  have hall := (readColumnList_yields hrest hcolumns).drop htexts
  have htable := (yields_text h.tail).trans hall
  have hdrop : (insert :: table :: rest).drop (2 + taken + counted) =
      rest.drop (taken + counted) := by
    rw [Nat.add_assoc, ← List.drop_drop]
    rfl
  rw [hdrop]
  exact yields_cons.trans (htable.sublist hsub)

theorem readStatement_yields (hstatements : YieldsAll statements) (h : AreTyped tokens)
    (hstatement : readStatement statements tokens = .ok (node, count)) :
    Yields (statementTexts node) tokens (tokens.drop count) := by
  unfold readStatement at hstatement
  split at hstatement
  · cases hstatement
  · rename_i token rest
    split at hstatement
    · exact readGroupBy_yields h hstatement
    · exact readFrom_yields h hstatement
    · obtain ⟨_, _, _, _, _, -, -, -, rfl, -⟩ := readCall_eq_ok.mp hstatement
      exact yields_drop _
    · obtain ⟨⟨conditions, taken⟩, hconditions, hpair⟩ := bind_eq_ok.mp hstatement
      cases hpair
      rw [statementTexts]
      apply (yields_cons.trans (readConditions_yields h.tail hconditions)).sublist
      exact List.Sublist.flatMap_right _ fun node _ ↦ havingTexts_sublist node
    · exact readInsert_yields hstatements h hstatement
    · exact readLimit_yields h hstatement
    · exact readOrderBy_yields h hstatement
    · rename_i hkind
      exact readSelect_yields h hstatement (by simp [hkind])
    · cases hstatement
      exact yields_drop _
    · obtain ⟨⟨conditions, taken⟩, hconditions, hpair⟩ := bind_eq_ok.mp hstatement
      cases hpair
      rw [statementTexts]
      exact yields_cons.trans (readConditions_yields h.tail hconditions)
    · cases hstatement
    · cases hstatement

theorem readStatements_yields (bound : Nat) : YieldsAll (readStatements bound) := by
  induction bound with
  | zero =>
    intro tokens _
    exact yields_nil
  | succ bound ih =>
    intro tokens h
    cases tokens with
    | nil => exact yields_nil
    | cons token rest =>
      rw [readStatements]
      cases hread : readStatement (readStatements bound) (token :: rest) with
      | error fault => exact yields_nil
      | ok found => exact (readStatement_yields ih h hread).drop (ih _ (h.drop _))

/-- The literals that a layout copies are literals of the tokens, in the same order. -/
theorem sublist_of_parse {nodes : List Node} (h : AreTyped tokens) (hparse : parse tokens = .ok nodes) :
    ((shownTexts nodes).filter isQuoted).Sublist (Token.literals tokens) := by
  have hyields := readStatements_yields tokens.length tokens h
  unfold parse at hparse
  split at hparse
  · cases hparse
  · cases hparse
    exact (List.sublist_append_left _ _).trans hyields

end Statements

end SqlLayout.Read
