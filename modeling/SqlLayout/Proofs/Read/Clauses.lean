import SqlLayout.Proofs.Read.Values
import SqlLayout.Read.Conditions

/-!
# Reading clauses back

The readers of GROUP BY, ORDER BY, LIMIT, WHERE and HAVING give back what the tokens of a regular clause
spell, whatever clause follows.
-/

namespace SqlLayout.Read

open Text Token Spelling Regular

variable {kind : TermKind} {rest : List Token} {items nodes : List Node} {bound : Nat}
  {membership flag : Bool} {node : Node}

/-! ### GROUP BY, ORDER BY and LIMIT -/

theorem columnKind?_tokenKind (h : kind ≠ .str) : columnKind? kind.tokenKind = some kind := by
  cases kind <;> first | rfl | exact absurd rfl h

theorem readGroupItems_succ {token : Token} (h : columnKind? token.kind = some kind) :
    readGroupItems (token :: rest) =
      match behindComma? rest with
      | some more => do
        let (items, count) ← readGroupItems more
        .ok (.plain kind token.text :: items, count + 2)
      | none => .ok ([.plain kind token.text], 1) := by
  cases rest with
  | nil => simp [readGroupItems, h, behindComma?]
  | cons next more =>
    obtain ⟨nextKind, text⟩ := next
    cases nextKind <;> simp [readGroupItems, h, behindComma?]

theorem readGroupItems_separated (hne : items ≠ []) (hitems : items.all isPlainColumn = true)
    (hrest : opens (· ≠ .comma) rest = true) :
    readGroupItems (separated plainTokens items ++ rest) =
      .ok (Node.upperCasedEach items, (separated plainTokens items).length) := by
  induction items with
  | nil => exact absurd rfl hne
  | cons item more ih =>
    simp only [List.all_cons, Bool.and_eq_true] at hitems
    obtain ⟨t, rfl, hkind, hplain⟩ := exists_of_isPlainColumn hitems.1
    have hcolumn : columnKind? (termToken t).kind = some t.kind := columnKind?_tokenKind hkind
    simp only [separated, plainTokens, List.append_assoc, List.cons_append, List.nil_append]
    rw [readGroupItems_succ hcolumn]
    have hplain' : Node.plain t.kind (termToken t).text = (Node.term t).upperCased :=
      (plain_of_isPlain hplain).trans (upperCased_of_isPlain hplain).symm
    cases more with
    | nil => simp [separated, commaBefore, behindComma?_of_opens hrest, hplain', Node.upperCasedEach]
    | cons next more =>
      have hmore := ih (List.cons_ne_nil next more) hitems.2
      simp only [commaBefore, comma, List.isEmpty_cons, Bool.false_eq_true, if_false,
        List.cons_append, List.nil_append, behindComma?, hmore, hplain']
      rfl

theorem readGroupBy_statementTokens {rollup : Option String}
    (hclause : isStatement (.groupByClause items rollup) = true)
    (hrest : opens Kind.startsClause rest = true) :
    readGroupBy (statementTokens (.groupByClause items rollup) ++ rest) =
      .ok ((Node.groupByClause items rollup).upperCased,
        (statementTokens (.groupByClause items rollup)).length) := by
  simp only [isStatement, Bool.and_eq_true, Bool.not_eq_true', List.isEmpty_eq_false_iff] at hclause
  cases rollup with
  | none =>
    have hitems := readGroupItems_separated hclause.1.1 hclause.1.2 (opens_ne_comma hrest)
    simp only [statementTokens, Option.map_none, Option.toList_none, List.append_nil,
      List.cons_append, readGroupBy, List.drop_succ_cons, List.drop_zero, hitems, bind, Except.bind,
      List.drop_left]
    cases rest with
    | nil => rfl
    | cons token rest =>
      obtain ⟨kind, text⟩ := token
      cases kind <;> first | rfl | cases hrest
  | some word =>
    have hitems := readGroupItems_separated hclause.1.1 hclause.1.2
      (show opens (· ≠ .comma) (⟨.rollupWord, upper word⟩ :: rest) = true from rfl)
    simp [statementTokens, readGroupBy, hitems, bind, Except.bind, Node.upperCased]

theorem readOrderItems_succ {count : Nat} {token : Token} (h : columnKind? token.kind = some kind)
    (hcount : (if (sortWord? rest).isSome then 2 else 1) = count) :
    readOrderItems (bound + 1) (token :: rest) =
      match behindComma? ((token :: rest).drop count) with
      | some more => do
        let (items, taken) ← readOrderItems bound more
        .ok (.term ⟨kind, token.text, none, none, sortWord? rest⟩ :: items, count + 1 + taken)
      | none => .ok ([.term ⟨kind, token.text, none, none, sortWord? rest⟩], count) := by
  simp only [readOrderItems, h, hcount]
  cases (token :: rest).drop count with
  | nil => rfl
  | cons next more =>
    obtain ⟨nextKind, text⟩ := next
    cases nextKind <;> rfl

theorem sortWord?_of_opens (h : opens Kind.endsItem rest = true) : sortWord? rest = none := by
  cases rest with
  | nil => rfl
  | cons token rest =>
    obtain ⟨kind, text⟩ := token
    cases kind <;> first | rfl | simp [Kind.endsItem, Kind.startsClause] at h

theorem sortWord?_sortTokens (sort : Option String) (h : opens Kind.endsItem rest = true) :
    sortWord? ((sort.map sortToken).toList ++ rest) = sort.map upper := by
  cases sort with
  | none => exact sortWord?_of_opens h
  | some word =>
    unfold sortToken
    by_cases hasc : upper word = "ASC" <;> simp [hasc, sortWord?]

theorem readOrderItems_separated (hne : items ≠ []) (hitems : items.all isOrderItem = true)
    (hrest : opens Kind.startsClause rest = true) (hbound : (separated orderTokens items).length ≤ bound) :
    readOrderItems bound (separated orderTokens items ++ rest) =
      .ok (Node.upperCasedEach items, (separated orderTokens items).length) := by
  induction items generalizing bound with
  | nil => exact absurd rfl hne
  | cons item more ih =>
    simp only [List.all_cons, Bool.and_eq_true] at hitems
    obtain ⟨t, rfl, hkind, halias, has, -⟩ := exists_of_isOrderItem hitems.1
    have hcolumn : columnKind? (termToken t).kind = some t.kind := columnKind?_tokenKind hkind
    simp only [separated, orderTokens, List.length_append, List.length_cons] at hbound
    obtain ⟨bound, rfl⟩ : ∃ n, bound = n + 1 := ⟨bound - 1, by omega⟩
    have hopens : opens Kind.endsItem
        (commaBefore more ++ (separated orderTokens more ++ rest)) = true :=
      opens_commaBefore (by rintro rfl; rfl) hrest
    have hsort := sortWord?_sortTokens t.sort hopens
    have hcount : (if (sortWord? ((t.sort.map sortToken).toList ++
        (commaBefore more ++ (separated orderTokens more ++ rest)))).isSome then 2 else 1) =
        (t.sort.map sortToken).toList.length + 1 := by
      rw [hsort]
      cases t.sort <;> rfl
    simp only [separated, orderTokens, List.append_assoc, List.cons_append]
    rw [readOrderItems_succ hcolumn hcount, List.drop_succ_cons, List.drop_left, hsort]
    have hterm : Node.term ⟨t.kind, (termToken t).text, none, none, t.sort.map upper⟩ =
        (Node.term t).upperCased := by
      simp [Node.upperCased, halias, has, termToken]
    rw [hterm]
    cases more with
    | nil =>
      simp [separated, commaBefore, behindComma?_of_opens (opens_ne_comma hrest),
        Node.upperCasedEach]
    | cons next more =>
      have hmore : readOrderItems bound (separated orderTokens (next :: more) ++ rest) = _ :=
        ih (List.cons_ne_nil next more) hitems.2 (by simp [commaBefore] at hbound; omega)
      simp only [commaBefore, comma, List.isEmpty_cons, Bool.false_eq_true, if_false,
        List.cons_append, List.nil_append, behindComma?, hmore]
      simp [bind, Except.bind, Node.upperCasedEach]
      omega

theorem readOrderBy_statementTokens (hclause : isStatement (.orderByClause items) = true)
    (hrest : opens Kind.startsClause rest = true) :
    readOrderBy (statementTokens (.orderByClause items) ++ rest) =
      .ok ((Node.orderByClause items).upperCased,
        (statementTokens (.orderByClause items)).length) := by
  simp only [isStatement, Bool.and_eq_true, Bool.not_eq_true', List.isEmpty_eq_false_iff] at hclause
  have hitems : readOrderItems
      (⟨.orderWord, "ORDER BY"⟩ :: (separated orderTokens items ++ rest)).length
      (separated orderTokens items ++ rest) = _ :=
    readOrderItems_separated hclause.1 hclause.2 hrest (by simp; omega)
  simp only [statementTokens, List.cons_append, readOrderBy, List.drop_succ_cons, List.drop_zero,
    hitems]
  rfl

theorem exists_number {t : Term} (h : isPlainNumber (.term t) = true) :
    ∃ text, t = ⟨.number, text, none, none, none⟩ := by
  obtain ⟨kind, text, aliasName, asWord, sort⟩ := t
  simp only [isPlainNumber, Term.isPlain, Bool.and_eq_true, decide_eq_true_eq,
    Option.isNone_iff_eq_none] at h
  obtain ⟨rfl, ⟨rfl, rfl⟩, rfl⟩ := h
  exact ⟨text, rfl⟩

theorem readLimit_statementTokens {count : Term} {offset : Option Term} {offsetWord : Option String}
    (hclause : isStatement (.limitClause count offset offsetWord) = true)
    (hrest : opens Kind.startsClause rest = true) :
    readLimit (statementTokens (.limitClause count offset offsetWord) ++ rest) =
      .ok ((Node.limitClause count offset offsetWord).upperCased,
        (statementTokens (.limitClause count offset offsetWord)).length) := by
  simp only [isStatement, Bool.and_eq_true] at hclause
  obtain ⟨⟨⟨hcount, hoffset⟩, hword⟩, hboth⟩ := hclause
  obtain ⟨count, rfl⟩ := exists_number hcount
  cases offset with
  | none =>
    obtain rfl : offsetWord = none := by simpa using hboth
    cases rest with
    | nil => rfl
    | cons token rest =>
      obtain ⟨kind, text⟩ := token
      cases kind <;> first | rfl | cases hrest
  | some offset =>
    obtain ⟨offset, rfl⟩ := exists_number (by simpa using hoffset)
    cases offsetWord with
    | none => rfl
    | some word =>
      have hupper : upper word = "OFFSET" := by simpa using hword
      have hoffset : upper "OFFSET" = "OFFSET" := by decide +kernel
      simp [statementTokens, limitTokens, termToken, TermKind.tokenKind, readLimit, hupper,
        hoffset, Node.upperCased]

/-! ### Conditions -/

theorem negated?_termToken (t : Term) (rest : List Token) :
    negated? (termToken t :: rest) = none := by
  obtain ⟨kind, text, aliasName, asWord, sort⟩ := t
  cases kind <;> rfl

theorem readGroup_separated (statements : List Token → Statements) (found : List Node) (rest : List Token)
    (hitems : items.all isPlainTerm = true) (hbound : (separated plainTokens items).length < bound) :
    readGroup statements bound (.group found) (separated plainTokens items ++ closeParen :: rest) =
      .ok (.group (found ++ Node.upperCasedEach items), (separated plainTokens items).length + 1) := by
  induction items generalizing found bound with
  | nil =>
    obtain ⟨bound, rfl⟩ : ∃ n, bound = n + 1 := ⟨bound - 1, by omega⟩
    simp [separated, readGroup, closeParen, value?, termKind?, Node.upperCasedEach]
  | cons item more ih =>
    simp only [List.all_cons, Bool.and_eq_true] at hitems
    obtain ⟨t, rfl, hplain⟩ := exists_of_isPlainTerm hitems.1
    have hmore := fun {bound : Nat} ↦ @ih bound (found ++ [(Node.term t).upperCased]) hitems.2
    simp only [separated, plainTokens, List.length_append, List.length_cons, List.length_nil]
      at hbound
    obtain ⟨bound, rfl⟩ : ∃ n, bound = n + 1 := ⟨bound - 1, by omega⟩
    simp only [separated, plainTokens, List.append_assoc, List.cons_append, List.nil_append,
      readGroup, value?_termToken hplain]
    cases more with
    | nil =>
      simp only [commaBefore, List.isEmpty_nil, if_true, List.nil_append] at hbound ⊢
      rw [hmore (by omega)]
      simp [bind, Except.bind, separated, Node.upperCasedEach]
    | cons next more =>
      have hcomma : value? comma = none := rfl
      simp only [commaBefore, List.isEmpty_cons, Bool.false_eq_true, if_false, List.length_cons,
        List.length_nil] at hbound
      obtain ⟨bound, rfl⟩ : ∃ n, bound = n + 1 := ⟨bound - 1, by omega⟩
      simp only [commaBefore, List.isEmpty_cons, Bool.false_eq_true, if_false, List.cons_append,
        List.nil_append, readGroup, hcomma]
      rw [hmore (by omega)]
      simp [bind, Except.bind, comma, Node.upperCasedEach]

/-- What starts with a term and is no condition on plain values is read as a membership test. -/
theorem readCondition_of_simpleCondition? (statements : List Token → Statements) (t : Term)
    (h : simpleCondition? (termToken t :: rest) = none) :
    readCondition statements true (termToken t :: rest) =
      readMembership statements (termToken t :: rest) := by
  simp only [readCondition, h]
  obtain ⟨kind, text, aliasName, asWord, sort⟩ := t
  cases kind <;> rfl

/-- A condition is read back; a membership test is if the list of conditions may hold one. -/
theorem readCondition_conditionTokens (statements : List Token → Statements) (h : Condition membership node)
    (hflag : membership = true → flag = true) (rest : List Token) :
    readCondition statements flag (conditionTokens node ++ rest) =
      .ok (node.upperCased, (conditionTokens node).length) := by
  cases h with
  | @comparison left right op hop hleft hright =>
    simp [conditionTokens, partTokens, hop, readCondition, simpleCondition?, negated?_termToken,
      between?, comparison?, value?_termToken hleft, value?_termToken hright, Node.upperCased,
      Node.upperCasedEach]
  | @negated left right word op hword hop hleft hright =>
    simp [conditionTokens, partTokens, hop, readCondition, simpleCondition?, negated?,
      value?_termToken hleft, value?_termToken hright, Node.upperCased, Node.upperCasedEach]
  | @between left low high word link hword hlink hleft hlow hhigh =>
    simp [conditionTokens, partTokens, readCondition, simpleCondition?, negated?_termToken,
      between?, value?_termToken hleft, value?_termToken hlow, value?_termToken hhigh,
      Node.upperCased, Node.upperCasedEach]
  | @isNull left word null hword hnull hleft =>
    simp [conditionTokens, partTokens, readCondition, simpleCondition?, negated?_termToken,
      between?, comparison?, isNull?, value?_termToken hleft, Node.upperCased,
      Node.upperCasedEach]
  | @isNotNull left word no null hword hno hnull hleft =>
    simp [conditionTokens, partTokens, readCondition, simpleCondition?, negated?_termToken,
      between?, comparison?, isNull?, isNotNull?, value?_termToken hleft, Node.upperCased,
      Node.upperCasedEach]
  | @member left op items hmember hop hleft hne hitems =>
    obtain rfl := hflag hmember
    have hgroup : readGroup statements ((separated plainTokens items).length + (rest.length + 1) + 1)
        (.group []) (separated plainTokens items ++ closeParen :: rest) = _ :=
      readGroup_separated statements [] rest hitems (by omega)
    have htokens : conditionTokens (.condition [.term left, .operator op, .group items]) ++ rest =
        termToken left :: ⟨.inWord, upper op⟩ :: openParen ::
          (separated plainTokens items ++ closeParen :: rest) := by
      simp [conditionTokens, partTokens, hop]
    have hsimple : simpleCondition? (termToken left :: ⟨.inWord, upper op⟩ :: openParen ::
        (separated plainTokens items ++ closeParen :: rest)) = none := by
      simp [simpleCondition?, negated?_termToken, between?, comparison?, isNull?, isNotNull?]
    rw [htokens, readCondition_of_simpleCondition? statements left hsimple]
    simp [readMembership, readOperand, value?_termToken hleft, hgroup, bind, Except.bind,
      conditionTokens, partTokens, Node.upperCased, Node.upperCasedEach]

def behindLink? : List Token → Option (String × List Token)
  | ⟨.link, word⟩ :: more => some (word, more)
  | _ => none

theorem behindLink?_of_opens (h : opens Kind.startsClause rest = true) : behindLink? rest = none := by
  cases rest with
  | nil => rfl
  | cons token rest =>
    obtain ⟨kind, text⟩ := token
    cases kind <;> first | rfl | cases h

theorem readLinked_succ {statements : List Token → Statements} {count : Nat} {tokens : List Token}
    (hne : tokens ≠ []) (hread : readCondition statements flag tokens = .ok (node, count)) :
    readLinked statements flag (bound + 1) tokens =
      match behindLink? (tokens.drop count) with
      | some (word, more) => do
        let (others, taken) ← readLinked statements flag bound more
        .ok (node :: .link word :: others, count + 1 + taken)
      | none => .ok ([node], count) := by
  cases tokens with
  | nil => exact absurd rfl hne
  | cons token rest =>
    simp only [readLinked, hread, bind, Except.bind]
    cases hdrop : (token :: rest).drop count with
    | nil => rfl
    | cons next more =>
      obtain ⟨kind, text⟩ := next
      cases kind <;> rfl

theorem readLinked_conditionTokens {statements : List Token → Statements} {isCondition : Node → Bool}
    (hread : ∀ node, isCondition node = true → conditionTokens node ≠ [] ∧
      ∀ rest, readCondition statements flag (conditionTokens node ++ rest) =
        .ok (node.upperCased, (conditionTokens node).length)) (hnodes : areLinked isCondition nodes = true)
    (hrest : opens Kind.startsClause rest = true) (hbound : (nodes.flatMap conditionTokens).length ≤ bound) :
    readLinked statements flag bound (nodes.flatMap conditionTokens ++ rest) =
      .ok (Node.upperCasedEach nodes, (nodes.flatMap conditionTokens).length) := by
  fun_induction areLinked isCondition nodes generalizing bound with
  | case1 node =>
    obtain ⟨hne, hnode⟩ := hread node hnodes
    have hlength := List.length_pos_iff.mpr hne
    simp only [List.flatMap_cons, List.flatMap_nil, List.append_nil] at hbound ⊢
    obtain ⟨bound, rfl⟩ : ∃ n, bound = n + 1 := ⟨bound - 1, by omega⟩
    rw [readLinked_succ (List.append_ne_nil_of_left_ne_nil hne rest) (hnode rest), List.drop_left,
      behindLink?_of_opens hrest]
    rfl
  | case2 node word more ih =>
    simp only [Bool.and_eq_true] at hnodes
    obtain ⟨hne, hnode⟩ := hread node hnodes.1
    have hlength := List.length_pos_iff.mpr hne
    simp only [List.flatMap_cons, List.length_append, conditionTokens, List.length_cons,
      List.length_nil] at hbound
    obtain ⟨bound, rfl⟩ : ∃ n, bound = n + 1 := ⟨bound - 1, by omega⟩
    have hmore : readLinked statements flag bound (more.flatMap conditionTokens ++ rest) = _ :=
      ih hnodes.2 (by omega)
    simp only [List.flatMap_cons, List.append_assoc]
    rw [readLinked_succ (List.append_ne_nil_of_left_ne_nil hne _) (hnode _), List.drop_left]
    simp only [conditionTokens, List.cons_append, List.nil_append, behindLink?, hmore, bind,
      Except.bind, Node.upperCasedEach, Node.upperCased, List.length_append, List.length_cons]
    congr 2
    omega
  | case3 => simp at hnodes

/-- Conditions that start with a membership test are told by their first tokens. -/
theorem opensMembership_conditionTokens (hnodes : areLinked (isCondition membership) nodes = true)
    (h : Regular.opensMembership nodes = true) (rest : List Token) :
    opensMembership (nodes.flatMap conditionTokens ++ rest) = true := by
  unfold Regular.opensMembership at h
  split at h
  · rename_i left op items more
    have hkind : left.kind ≠ .str := by simpa using h
    cases condition_of_isCondition (head_of_areLinked hnodes) with
    | member _ hop _ hne hitems =>
      obtain ⟨item, others, rfl⟩ := List.exists_cons_of_ne_nil hne
      simp only [List.all_cons, Bool.and_eq_true] at hitems
      obtain ⟨t, rfl, -⟩ := exists_of_isPlainTerm hitems.1
      have hcolumn : (termToken left).kind.isColumn = true := by
        cases hleft : left.kind <;> simp_all [termToken, TermKind.tokenKind, Kind.isColumn]
      cases others <;>
        simp [conditionTokens, partTokens, separated, plainTokens, commaBefore, opensMembership,
          hop, openParen, hcolumn]
  · cases h

theorem conditionTokens_ne_nil (h : Condition membership node) : conditionTokens node ≠ [] := by
  cases h <;> simp [conditionTokens, partTokens]

theorem readWhere_statementTokens (statements : List Token → Statements) {word : String}
    (hclause : isStatement (.whereClause word nodes) = true) (hrest : opens Kind.startsClause rest = true) :
    readWhere statements (statementTokens (.whereClause word nodes) ++ rest) =
      .ok ((Node.whereClause word nodes).upperCased,
        (statementTokens (.whereClause word nodes)).length) := by
  simp only [isStatement, Bool.and_eq_true] at hclause
  have hread : readConditions statements (nodes.flatMap conditionTokens ++ rest) = _ :=
    readLinked_conditionTokens
      (fun node hnode ↦ ⟨conditionTokens_ne_nil (condition_of_isCondition hnode),
        readCondition_conditionTokens statements (condition_of_isCondition hnode) fun h ↦
          opensMembership_conditionTokens hclause.2 h rest⟩)
      hclause.2 hrest (by simp)
  simp only [statementTokens, List.cons_append, readWhere, hread]
  rfl

theorem readHaving_statementTokens (statements : List Token → Statements) {word : String}
    (hclause : isStatement (.havingClause word nodes) = true) (hrest : opens Kind.startsClause rest = true) :
    readHaving statements (statementTokens (.havingClause word nodes) ++ rest) =
      .ok ((Node.havingClause word nodes).upperCased,
        (statementTokens (.havingClause word nodes)).length) := by
  simp only [isStatement, Bool.and_eq_true] at hclause
  have hcondition : ∀ node, isHavingCondition node = true → Condition false node := fun node h ↦ by
    obtain ⟨left, op, right, rfl, hop, -, hleft, -, hright⟩ := exists_of_isHavingCondition h
    exact .comparison hop hleft hright
  have hread : readConditions statements (nodes.flatMap conditionTokens ++ rest) = _ :=
    readLinked_conditionTokens
      (fun node hnode ↦ ⟨conditionTokens_ne_nil (hcondition node hnode),
        readCondition_conditionTokens statements (hcondition node hnode) nofun⟩)
      hclause.2 hrest (by simp)
  simp only [statementTokens, List.cons_append, readHaving, hread]
  rfl

end SqlLayout.Read
