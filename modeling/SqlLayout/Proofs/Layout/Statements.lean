import SqlLayout.Proofs.Layout.Clauses
import SqlLayout.Proofs.Layout.Conditions

/-!
# Statements spell their tokens

The layout of a regular tree never fails, and its lines joined by line feeds are a text that is written
with the tokens of the tree.
-/

namespace SqlLayout.Layout

open Text Word Token Spelling Regular

variable {edits : List Edit} {tokens : List Token} (indent : Int)
variable {membership : Bool} {node : Node} {nodes left : List Node} {word line : String} {kind : Kind}

/-! ### Conditions -/

theorem atLine_group {items : List Node} (hne : items ≠ []) (hitems : items.all isPlainTerm = true)
    (hsound : ∀ token ∈ separated plainTokens items, token.isSound = true)
    (h : AtLine false edits tokens) :
    AtLine false (groupEdits indent items ++ edits)
      (separated plainTokens items ++ closeParen :: tokens) := by
  induction items with
  | nil => exact absurd rfl hne
  | cons item rest ih =>
    simp only [List.all_cons, Bool.and_eq_true] at hitems
    obtain ⟨t, rfl, -⟩ := exists_of_isPlainTerm hitems.1
    have hterm : (termToken t).isSound = true := hsound _ (by simp [separated, plainTokens])
    have hparen : ∀ more, (termToken t :: more).head? ≠ some openParen := fun more ↦ by
      simpa using ne_openParen (tokenKind_ne t.kind).2.2
    cases rest with
    | nil =>
      have hitem := Inside.term hterm (Behind.endLine h).closeParen
      have hline := AtLine.of_inside (hitem.blank (isBlank_indentation (indent + 2))) (hparen _)
      simpa [groupEdits, separated, plainTokens, Spelling.commaBefore, Node.text] using hline
    | cons next rest =>
      have hrest := ih (by simp) hitems.2 fun token htoken ↦ hsound token (by
        rw [separated]
        exact List.mem_append_right _ htoken)
      have hitem := Inside.term hterm (Behind.endLine hrest).comma
      have hline := AtLine.of_inside (hitem.blank (isBlank_indentation (indent + 2))) (hparen _)
      rw [separated, groupEdits]
      simpa [plainTokens, Spelling.commaBefore, Node.text] using hline

theorem Inside.inParen (h : Inside edits tokens) :
    Inside (.add "IN (" :: edits) (⟨.inWord, "IN"⟩ :: openParen :: tokens) := by
  refine ⟨?_, by simpa using h.sound⟩
  rw [Edit.text_add]
  exact .inParen h.written

theorem Behind.spaceTerm {t : Term} (hsound : (termToken t).isSound = true)
    (h : Behind edits tokens) : Behind (.add " " :: .add t.text :: edits) (termToken t :: tokens) :=
  .space (.term hsound h) (by simpa using ne_openParen (tokenKind_ne t.kind).2.2)

theorem condition_eq {parts : List Node} (h : Condition membership (.condition parts)) :
    condition indent (.condition parts) =
      ⟨notEdits parts ++ plainConditionEdits indent (detachNot parts) ++ [.endLine],
        .ok (.condition (detachNot parts))⟩ :=
  condition_of_no_query fun query hquery ↦ by cases h <;> simp at hquery

theorem inside_conditionEdits {parts : List Node} (hparts : Condition membership (.condition parts))
    (hsound : ∀ token ∈ conditionTokens (.condition parts), token.isSound = true)
    (h : AtLine false edits tokens) :
    Inside (notEdits parts ++ plainConditionEdits indent (detachNot parts) ++ .endLine :: edits)
      (conditionTokens (.condition parts) ++ tokens) := by
  have hend := Behind.endLine h
  cases hparts with
  | comparison hop hleft hright =>
    simpa [notEdits, plainConditionEdits, detachNot] using inside_termComparison hop hsound hend
  | @negated left right word op hword hop hleft hright =>
    have hcompare := inside_termComparison hop
      (fun token htoken ↦ hsound token (List.mem_append_right _ htoken)) hend
    have hnot := Inside.word ⟨.notWord, "NOT"⟩ (isWhole_of_mem_ownWords (by decide)) (by decide)
      (.space hcompare (by
        simpa [conditionTokens, partTokens] using ne_openParen (tokenKind_ne left.kind).2.2))
    have hall : Inside (notEdits [.not word, .term left, .operator op, .term right] ++
        plainConditionEdits indent (detachNot [.not word, .term left, .operator op, .term right]) ++
          .endLine :: edits) _ :=
      hnot.of_text (by simp [notEdits, plainConditionEdits, detachNot])
        (by simp [notEdits, plainConditionEdits, detachNot])
    simpa [conditionTokens, partTokens, hword] using hall
  | @between left low high word link hword hlink hleft hlow hhigh =>
    simp only [conditionTokens, partTokens, hword, hlink, List.flatMap_cons, List.flatMap_nil,
      List.cons_append, List.nil_append, List.forall_mem_cons] at hsound ⊢
    obtain ⟨hleft, -, hlow, -, hhigh, -⟩ := hsound
    have hand := Behind.keyword ⟨.link, "AND"⟩
      (isWhole_of_mem_ownWords (by decide)) (by decide) (by decide) (.spaceTerm hhigh hend)
    have hbetween := Behind.keyword ⟨.betweenWord, "BETWEEN"⟩
      (isWhole_of_mem_ownWords (by decide)) (by decide) (by decide) (.spaceTerm hlow hand)
    exact (Inside.term hleft hbetween).of_text
      (by simp [notEdits, plainConditionEdits, detachNot])
      (by simp [notEdits, plainConditionEdits, detachNot])
  | @isNull left word null hword hnull hleft =>
    simp only [conditionTokens, partTokens, hword, hnull, List.flatMap_cons, List.flatMap_nil,
      List.cons_append, List.nil_append, List.forall_mem_cons] at hsound ⊢
    obtain ⟨hleft, -⟩ := hsound
    have hnull' := Behind.keyword ⟨.nullWord, "NULL"⟩
      (isWhole_of_mem_ownWords (by decide)) (by decide) (by decide) hend
    have his := Behind.keyword ⟨.isWord, "IS"⟩
      (isWhole_of_mem_ownWords (by decide)) (by decide) (by decide) hnull'
    exact (Inside.term hleft his).of_text (by simp [notEdits, plainConditionEdits, detachNot])
      (by simp [notEdits, plainConditionEdits, detachNot])
  | @isNotNull left word no null hword hno hnull hleft =>
    simp only [conditionTokens, partTokens, hword, hno, hnull, List.flatMap_cons,
      List.flatMap_nil, List.cons_append, List.nil_append, List.forall_mem_cons] at hsound ⊢
    obtain ⟨hleft, -⟩ := hsound
    have hnull' := Behind.keyword ⟨.nullWord, "NULL"⟩
      (isWhole_of_mem_ownWords (by decide)) (by decide) (by decide) hend
    have hno' := Behind.keyword ⟨.notWord, "NOT"⟩
      (isWhole_of_mem_ownWords (by decide)) (by decide) (by decide) hnull'
    have his := Behind.keyword ⟨.isWord, "IS"⟩
      (isWhole_of_mem_ownWords (by decide)) (by decide) (by decide) hno'
    exact (Inside.term hleft his).of_text (by simp [notEdits, plainConditionEdits, detachNot])
      (by simp [notEdits, plainConditionEdits, detachNot])
  | @member left op items hmember hop hleft hne hitems =>
    simp only [conditionTokens, partTokens, hop, if_true, List.flatMap_cons, List.flatMap_nil,
      List.append_nil, List.cons_append, List.nil_append, List.forall_mem_cons] at hsound ⊢
    obtain ⟨hleft, -, -, hgroup⟩ := hsound
    have hlines := atLine_group indent hne hitems
      (fun token htoken ↦ hgroup token (List.mem_append_left _ htoken))
      (.of_inside hend.toInside hend.noParen)
    have hin := Inside.inParen (Behind.endLine hlines).toInside
    have hterm := Inside.term hleft (.space hin (by simp [openParen]))
    have hall : Inside (notEdits [.term left, .operator op, .group items] ++
        plainConditionEdits indent (detachNot [.term left, .operator op, .group items]) ++
          .endLine :: edits) _ :=
      hterm.of_text (by simp [notEdits, plainConditionEdits, detachNot])
        (by simp [notEdits, plainConditionEdits, detachNot])
    simpa using hall

theorem noParen_condition (hnode : Condition membership node) :
    (conditionTokens node ++ tokens).head? ≠ some openParen := by
  have hterm : ∀ (t : Term) (more : List Token), (termToken t :: more).head? ≠ some openParen :=
    fun t more ↦ by simpa using ne_openParen (tokenKind_ne t.kind).2.2
  cases hnode with
  | negated => simp [conditionTokens, partTokens, openParen]
  | _ => exact hterm _ _

theorem inside_condition (hnode : Condition membership node)
    (hsound : ∀ token ∈ conditionTokens node, token.isSound = true) (h : AtLine false edits tokens) :
    (∃ left, (condition indent node).outcome = .ok left) ∧
      Inside ((condition indent node).edits ++ edits) (conditionTokens node ++ tokens) := by
  have hshape : ∃ parts, node = .condition parts := by cases hnode <;> exact ⟨_, rfl⟩
  obtain ⟨parts, rfl⟩ := hshape
  rw [condition_eq indent hnode]
  exact ⟨⟨_, rfl⟩, by simpa using inside_conditionEdits indent hnode hsound h⟩

/-- Linked conditions of a WHERE clause behind the indentation of the first. -/
theorem inside_conditions {membership : Bool} {node : Node} {rest : List Node}
    (hnodes : areLinked (isCondition membership) (node :: rest) = true)
    (hsound : ∀ token ∈ (node :: rest).flatMap conditionTokens, token.isSound = true)
    (h : AtLine false edits tokens) :
    (∃ left, (condition indent node).outcome = .ok left) ∧
      (∃ left, (conditions indent rest).outcome = .ok left) ∧
      Inside ((condition indent node).edits ++ ((conditions indent rest).edits ++ edits))
        ((node :: rest).flatMap conditionTokens ++ tokens) := by
  obtain ⟨node', rest', heq, hnode, hrest⟩ := areLinked_cases hnodes
  obtain ⟨rfl, rfl⟩ := List.cons.inj heq
  have hshape := condition_of_isCondition hnode
  have hfirst : ∀ token ∈ conditionTokens node, token.isSound = true :=
    fun token htoken ↦ hsound token (List.mem_append_left _ htoken)
  rcases hrest with rfl | ⟨word, next, more, rfl, hmore⟩
  · obtain ⟨hok, hinside⟩ := inside_condition indent hshape hfirst h
    exact ⟨hok, ⟨[], by simp [conditions]⟩, by simpa [conditions] using hinside⟩
  · obtain ⟨⟨left, hleft⟩, ⟨others, hothers⟩, hinside⟩ := inside_conditions hmore
      (fun token htoken ↦ hsound token
        (List.mem_append_right _ (List.mem_append_right _ htoken))) h
    have hline := atLine_link (indent + 1) word (hsound _ (by simp [conditionTokens])) hinside (by
      rw [List.flatMap_cons, List.append_assoc]
      exact noParen_condition (condition_of_isCondition (head_of_areLinked hmore)))
    obtain ⟨hok, hinside'⟩ := inside_condition indent hshape hfirst hline
    have hdraft : conditions indent (.link word :: next :: more) =
        ⟨.add (indentation (indent + 1)) :: .add (upper word ++ " ") ::
            ((condition indent next).edits ++ (conditions indent more).edits),
          .ok (.link word :: left :: others)⟩ := by
      simp [conditions, emit_bind, Draft.bind_of_ok hleft, Draft.bind_of_ok hothers]
    rw [hdraft]
    exact ⟨hok, ⟨_, rfl⟩, by simpa [conditionTokens] using hinside'⟩
  termination_by rest.length

theorem atLine_conditions (hnodes : areLinked (isCondition membership) nodes = true)
    (hsound : ∀ token ∈ nodes.flatMap conditionTokens, token.isSound = true) (h : AtLine false edits tokens) :
    (∃ left, (conditions indent nodes).outcome = .ok left) ∧
      AtLine false ((conditions indent nodes).edits ++ edits)
        (nodes.flatMap conditionTokens ++ tokens) := by
  obtain ⟨node, rest, rfl, hnode, -⟩ := areLinked_cases hnodes
  have hshape := condition_of_isCondition hnode
  obtain ⟨⟨left, hleft⟩, ⟨others, hothers⟩, hinside⟩ := inside_conditions indent hnodes hsound h
  have hline := AtLine.of_inside (hinside.blank (isBlank_indentation (indent + 1))) (by
    rw [List.flatMap_cons, List.append_assoc]
    exact noParen_condition hshape)
  have hdraft : conditions indent (node :: rest) =
      ⟨.add (indentation (indent + 1)) ::
          ((condition indent node).edits ++ (conditions indent rest).edits),
        .ok (left :: others)⟩ := by
    cases hshape <;>
      simp [conditions, emit_bind, Draft.bind_of_ok hleft, Draft.bind_of_ok hothers]
  rw [hdraft]
  exact ⟨⟨_, rfl⟩, by simpa using hline⟩

/-! ### Statements -/

/-- A word that is no keyword and no call gives the token of its value. -/
theorem eq_ofValue {token : Token} (hkind : Kind.ofWord? word = none) (h : ofWord none word = [token]) :
    token = ofValue word := by
  rw [ofWord, hkind] at h
  dsimp only at h
  unfold ofValue
  split at h
  · rename_i hnumber
    simpa [hnumber] using h.symm
  · rename_i hnumber
    split at h
    · simp at h
    · simpa [hnumber] using h.symm

theorem startsClause_ofValue (text : String) : (ofValue text).kind.startsClause = false := by
  unfold ofValue plainKind
  dsimp only
  split
  · rfl
  · split
    · rfl
    · split
      · rfl
      · split <;> rfl

theorem isReserved_of_startsClause {token : Token} (hwhole : token.isWhole = true)
    (hclause : token.kind.startsClause = true) : token.isReserved = true := by
  obtain ⟨-, -, -, -, -, htoken⟩ := exists_of_isWhole hwhole
  unfold isReserved
  cases hkind : Kind.ofWord? token.text with
  | some kind => rfl
  | none =>
    have hvalue := eq_ofValue hkind htoken
    rw [hvalue, startsClause_ofValue] at hclause
    simp at hclause

/-- A keyword on the line that it starts, with the rest of the line. -/
theorem atLine_reserved (table : Bool) {tail : String} (hwhole : isWhole ⟨kind, word⟩ = true)
    (hreserved : isReserved ⟨kind, word⟩ = true) (hinsert : kind ≠ .insertWord) (hparen : kind ≠ .openParen)
    (h : Behind (.add tail :: .endLine :: edits) tokens) :
    AtLine table (.addLine (indentation indent ++ (word ++ tail)) :: edits)
      (⟨kind, word⟩ :: tokens) := by
  have hne : indentation indent ++ (word ++ tail) ≠ "" := by
    obtain ⟨c, more, htext, -⟩ := exists_of_isWhole hwhole
    change word = String.ofList (c :: more) at htext
    simp [htext]
  refine ⟨?_, by simpa using h.sound, by simpa using ne_openParen hparen⟩
  have htext : Edit.text true (.addLine (indentation indent ++ (word ++ tail)) :: edits) =
      '\n' :: ((indentation indent).toList ++
        (word.toList ++ Edit.text false (.add tail :: .endLine :: edits))) := by
    simp [Edit.text, hne, Edit.opening]
  rw [htext]
  refine .blank (by decide) (written_append_of_blank (isBlank_indentation indent) ?_)
  have hrest : Written (table && !isReserved ⟨kind, word⟩)
      (Edit.text false (.add tail :: .endLine :: edits)) tokens := by
    simpa [hreserved] using h.written
  exact .word hwhole hinsert h.ends h.noParen hrest

theorem atLine_clause (table : Bool) {tail : String} (hwhole : isWhole ⟨kind, word⟩ = true)
    (hclause : kind.startsClause = true) (hinsert : kind ≠ .insertWord)
    (h : Behind (.add tail :: .endLine :: edits) tokens) :
    AtLine table (.addLine (indentation indent ++ (word ++ tail)) :: edits)
      (⟨kind, word⟩ :: tokens) := by
  refine atLine_reserved indent table hwhole (isReserved_of_startsClause hwhole hclause) hinsert ?_ h
  rintro rfl
  cases hclause

theorem atLine_keyword (table : Bool) (hwhole : isWhole ⟨kind, word⟩ = true)
    (hclause : kind.startsClause = true) (hinsert : kind ≠ .insertWord) (h : AtLine false edits tokens) :
    AtLine table (.addLine (indentation indent ++ word) :: edits) (⟨kind, word⟩ :: tokens) := by
  have hend : Behind (.add "" :: .endLine :: edits) tokens :=
    (Behind.endLine h).of_text (by simp) (by simp)
  simpa using atLine_clause indent table hwhole hclause hinsert hend

/-- A semicolon goes to the end of the last line. -/
theorem atLine_semicolon (h : AtLine false edits tokens) (table : Bool) :
    AtLine table (.extendLast ";" :: edits) (⟨.semicolon, ";"⟩ :: tokens) := by
  have hwhole : isWhole ⟨.semicolon, ";"⟩ = true := isWhole_of_mem_ownWords (by decide)
  have hreserved := isReserved_of_startsClause hwhole rfl
  refine ⟨?_, ?_, by simp [openParen]⟩
  · rw [Edit.text_extendLast]
    have hrest : Written (table && !isReserved ⟨.semicolon, ";"⟩) (Edit.text true edits) tokens := by
      simpa [hreserved] using h.written
    exact .word hwhole (by decide) (Edit.ends_text_of_sound h.sound) h.noParen hrest
  · have hsound : Edit.sound true (.extendLast ";" :: edits) =
        (isStop ';' && Edit.sound true edits) := by simp [Edit.sound]
    rw [hsound, h.sound]
    decide

theorem AtLine.endLine {table : Bool} (h : AtLine table edits tokens) :
    AtLine table (.endLine :: edits) tokens :=
  ⟨by simpa using h.written, by simpa using h.sound, h.noParen⟩

theorem AtLine.blankLines {table : Bool} (count : Int) (h : AtLine table edits tokens) :
    AtLine table (.blankLines count :: edits) tokens := by
  refine ⟨?_, h.sound, h.noParen⟩
  refine written_append_of_blank ?_ h.written
  simp [show isBlank '\n' = true by decide]

theorem written_columns {columns : List Node} {text : List Char} (hne : columns ≠ [])
    (hcolumns : columns.all isPlainTerm = true)
    (hsound : ∀ token ∈ separated plainTokens columns, token.isSound = true)
    (hends : Ends text) (hparen : tokens.head? ≠ some openParen)
    (h : ∀ table, Written table text tokens) (table : Bool) :
    Written table ((", ".intercalate (columns.map Node.text)).toList ++ ')' :: text)
      (separated plainTokens columns ++ closeParen :: tokens) := by
  have hclose : ∀ table, Written table (')' :: text) (closeParen :: tokens) := fun table ↦
    .word (show isWhole closeParen = true from isWhole_of_mem_ownWords (by decide)) (by decide) hends
      hparen (h _)
  induction columns generalizing table with
  | nil => exact absurd rfl hne
  | cons column rest ih =>
    simp only [List.all_cons, Bool.and_eq_true] at hcolumns
    obtain ⟨t, rfl, -⟩ := exists_of_isPlainTerm hcolumns.1
    have hterm : (termToken t).isWhole = true :=
      isWhole_of_isSound (hsound _ (by simp [separated, plainTokens])) (tokenKind_ne t.kind).1
    cases rest with
    | nil =>
      have hword : Written table ((termToken t).text.toList ++ ')' :: text)
          (termToken t :: closeParen :: tokens) :=
        .word hterm (tokenKind_ne t.kind).2.1 (by simp [isStop]) (by simp [closeParen]) (hclose _)
      simpa [separated, plainTokens, Spelling.commaBefore, Node.text, termToken] using hword
    | cons next rest =>
      have hrest := ih (by simp) hcolumns.2 fun token htoken ↦ hsound token (by
        rw [separated]
        exact List.mem_append_right _ htoken)
      have hnext : (separated plainTokens (next :: rest) ++ closeParen :: tokens).head? ≠
          some openParen := by
        simp only [List.all_cons, Bool.and_eq_true] at hcolumns
        obtain ⟨u, rfl, -⟩ := exists_of_isPlainTerm hcolumns.2.1
        simpa [separated, plainTokens] using ne_openParen (tokenKind_ne u.kind).2.2
      have hcomma : ∀ table, Written table
          (',' :: ' ' :: ((", ".intercalate ((next :: rest).map Node.text)).toList ++ ')' :: text))
          (comma :: (separated plainTokens (next :: rest) ++ closeParen :: tokens)) := fun table ↦
        .word (show isWhole comma = true from isWhole_of_mem_ownWords (by decide)) (by decide)
          (by simp [show isStop ' ' = true by decide]) hnext (.blank (by decide) (hrest _))
      have hword : Written table ((termToken t).text.toList ++ _) (termToken t :: _) :=
        .word hterm (tokenKind_ne t.kind).2.1 (by simp [isStop]) (by simp [comma]) (hcomma _)
      rw [separated]
      simpa [plainTokens, Spelling.commaBefore, Node.text, termToken] using hword

/-- The keyword of an INSERT in front of the line of its table. -/
theorem written_insert {text : List Char} (h : Written true text tokens)
    (hparen : tokens.head? ≠ some openParen) (table : Bool) :
    Written table ('\n' :: ("INSERT INTO".toList ++ '\n' :: ("    ".toList ++ text)))
      (⟨.insertWord, "INSERT INTO"⟩ :: tokens) := by
  have hline : Written true ('\n' :: ("    ".toList ++ text)) tokens :=
    .blank (by decide) (written_append_of_blank (by decide) h)
  have hfeed : Ends ('\n' :: ("    ".toList ++ text)) := ends_cons.mpr (by decide)
  exact .blank (by decide) (.insert hfeed hparen hline)

theorem atLine_insert {name : String} {columns : List Node}
    (hname : isWhole ⟨.identifier, name⟩ = true)
    (htable : columns ≠ [] → isTableName name = true)
    (hcolumns : columns.all isPlainTerm = true)
    (hsound : ∀ token ∈ columnTokens columns, token.isSound = true)
    (h : ∀ table, AtLine table edits tokens) (table : Bool) :
    AtLine table (tableEdits name columns ++ edits)
      (⟨.insertWord, "INSERT INTO"⟩ :: ⟨.identifier, name⟩ :: (columnTokens columns ++ tokens)) := by
  have hends := Edit.ends_text_of_sound (h true).sound
  cases columns with
  | nil =>
    have htext : Edit.text true (tableEdits name [] ++ edits) =
        '\n' :: ("INSERT INTO".toList ++
          '\n' :: ("    ".toList ++ (name.toList ++ Edit.text true edits))) := by
      simp [tableEdits, Edit.text, Edit.opening]
    have hrest : Written true (name.toList ++ Edit.text true edits)
        (⟨.identifier, name⟩ :: tokens) :=
      .word hname (by simp) hends (h true).noParen (h _).written
    exact ⟨htext ▸ written_insert hrest (by simp [openParen]) table,
      by simpa [tableEdits] using (h true).sound, by simp [openParen]⟩
  | cons column rest =>
    have htext : Edit.text true (tableEdits name (column :: rest) ++ edits) =
        '\n' :: ("INSERT INTO".toList ++ '\n' :: ("    ".toList ++ (name.toList ++
          ' ' :: '(' :: ((", ".intercalate ((column :: rest).map Node.text)).toList ++
            ')' :: Edit.text true edits)))) := by
      simp [tableEdits, Edit.text, Edit.opening]
    have hcolumns' := written_columns (List.cons_ne_nil column rest) hcolumns
      (fun token htoken ↦ hsound token (by simp [columnTokens, htoken])) hends (h true).noParen
      fun table ↦ (h table).written
    have hrest := Written.tableParen (htable (List.cons_ne_nil column rest)) hcolumns'
    refine ⟨?_, ?_, by simp [openParen]⟩
    · have htokens : columnTokens (column :: rest) ++ tokens =
          openParen :: (separated plainTokens (column :: rest) ++ closeParen :: tokens) := by
        simp [columnTokens]
      rw [htext, htokens]
      exact written_insert hrest (by simp [openParen]) table
    · have hstop : isStop ' ' = true := by decide
      simpa [tableEdits, Edit.sound, hstop] using (h true).sound

theorem atLine_limit {count : Term} {offset : Option Term} {offsetWord : Option String}
    (hword : offsetWord.all (upper · = "OFFSET") = true)
    (hsound : ∀ token ∈ limitTokens count offset offsetWord, token.isSound = true)
    (h : AtLine false edits tokens) (table : Bool) :
    AtLine table (.addLine (indentation indent ++ limitText count offset offsetWord) :: edits)
      (⟨.limitWord, "LIMIT"⟩ :: (limitTokens count offset offsetWord ++ tokens)) := by
  have hwhole : isWhole ⟨.limitWord, "LIMIT"⟩ = true := isWhole_of_mem_ownWords (by decide)
  have hend := Behind.endLine h
  -- What stands behind the keyword decides the whole line.
  have hline : ∀ {tail : String} {more : List Token},
      limitText count offset offsetWord = "LIMIT" ++ tail →
      Behind (.add tail :: .endLine :: edits) more →
      AtLine table (.addLine (indentation indent ++ limitText count offset offsetWord) :: edits)
        (⟨.limitWord, "LIMIT"⟩ :: more) := fun htext hmore ↦
    htext ▸ atLine_clause indent table hwhole rfl (by decide) hmore
  cases offset with
  | none =>
    have hcount := Behind.spaceTerm (hsound (termToken count) (by simp [limitTokens])) hend
    have htext : limitText count none offsetWord = "LIMIT" ++ (" " ++ count.text) :=
      String.toList_inj.mp (by simp [limitText])
    exact hline htext (hcount.of_text (by simp) (by simp))
  | some offset =>
    cases offsetWord with
    | none =>
      have hcount := Behind.spaceTerm (hsound (termToken count) (by simp [limitTokens])) hend
      have hoffset := Behind.spaceTerm (hsound (termToken offset) (by simp [limitTokens]))
        hcount.comma
      have htext : limitText count (some offset) none =
          "LIMIT" ++ (" " ++ offset.text ++ ", " ++ count.text) :=
        String.toList_inj.mp (by simp [limitText, isPresent])
      exact hline htext (hoffset.of_text (by simp) (by simp))
    | some word =>
      have hupper : upper word = "OFFSET" := by simpa using hword
      simp only [limitTokens, hupper] at hsound hline ⊢
      have hoffset := Behind.spaceTerm (hsound (termToken offset) (by simp)) hend
      have hkeyword := Behind.keyword ⟨.identifier, "OFFSET"⟩
        (isWhole_of_mem_ownWords (by decide)) (by decide) (by decide) hoffset
      have hcount := Behind.spaceTerm (hsound (termToken count) (by simp)) hkeyword
      have htext : limitText count (some offset) (some word) =
          "LIMIT" ++ (" " ++ count.text ++ " OFFSET " ++ offset.text) :=
        String.toList_inj.mp (by
          simp [limitText, isPresent, ne_empty_of_upper hupper (by decide)])
      exact hline htext (hcount.of_text (by simp) (by simp))

theorem atLine_rollup {rollup : Option String}
    (hrollup : rollup.all (upper · = "WITH ROLLUP") = true) (h : AtLine false edits tokens) :
    AtLine false
      ((if isPresent rollup then [.addLine (indentation (indent + 1) ++ "WITH ROLLUP")] else []) ++
        edits)
      ((rollup.map fun word ↦ ⟨.rollupWord, upper word⟩).toList ++ tokens) := by
  cases rollup with
  | none => simpa [isPresent] using h
  | some word =>
    have hword : upper word = "WITH ROLLUP" := by simpa using hrollup
    have hline : AtLine false
        (.addLine (indentation (indent + 1) ++ ("WITH ROLLUP" ++ "")) :: edits)
        (⟨.rollupWord, "WITH ROLLUP"⟩ :: tokens) :=
      atLine_reserved (indent + 1) false (isWhole_of_mem_ownWords (by decide)) (by decide) (by decide)
        (by decide) ((Behind.endLine h).of_text (by simp) (by simp))
    simpa [isPresent, ne_empty_of_upper hword (by decide), hword] using hline

theorem atLine_fromClause {last : Bool} {word : String} {parts : List Node} (hword : upper word = "FROM")
    (hparts : areFromParts last parts = true)
    (hsound : ∀ token ∈ statementTokens (.fromClause word parts), token.isSound = true)
    (h : AtLine false edits tokens) :
    (∃ left, (statement indent (.fromClause word parts)).outcome = .ok left) ∧
      ∀ table, AtLine table ((statement indent (.fromClause word parts)).edits ++ edits)
        (statementTokens (.fromClause word parts) ++ tokens) := by
  obtain ⟨hok, hparts⟩ := atLine_fromParts indent (fromParts_of_areFromParts hparts)
    (fun token htoken ↦ hsound token (by simp [statementTokens, htoken])) h
  have hdraft : statement indent (.fromClause word parts) =
      ⟨.addLine (indentation indent ++ "FROM") :: (fromParts indent parts).edits,
        .ok (.fromClause word parts)⟩ := by
    simp [statement, fromClause, emit_bind, map_eq, hok, Except.map]
  rw [hdraft, statementTokens, hword]
  exact ⟨⟨_, rfl⟩, fun table ↦
    atLine_keyword indent table (isWhole_of_mem_ownWords (by decide)) rfl (by decide) hparts⟩

theorem atLine_of_endsText (hnode : endsText node = true)
    (hsound : ∀ token ∈ statementTokens node, token.isSound = true) (h : AtLine false edits tokens) :
    (∃ left, (statement indent node).outcome = .ok left) ∧
      ∀ table, AtLine table ((statement indent node).edits ++ edits) (statementTokens node ++ tokens) := by
  rcases cases_of_endsText hnode with ⟨word, rfl⟩ | ⟨word, parts, rfl, hword, hparts⟩ |
    ⟨word, rfl, hword⟩ | rfl | ⟨word, rfl, hword⟩ | rfl
  · have hword := isWhole_of_isSound
      (hsound ⟨.selectWord, upper word⟩ (by simp [statementTokens])) (by simp)
    exact ⟨⟨_, rfl⟩, fun table ↦ atLine_keyword indent table hword rfl (by decide) h⟩
  · exact atLine_fromClause indent hword hparts hsound h
  · rw [statementTokens, hword]
    exact ⟨⟨_, rfl⟩, fun table ↦
      atLine_keyword indent table (isWhole_of_mem_ownWords (by decide)) rfl (by decide) h⟩
  · exact ⟨⟨_, rfl⟩, fun table ↦
      atLine_keyword indent table (isWhole_of_mem_ownWords (by decide)) rfl (by decide) h⟩
  · rw [statementTokens, hword]
    exact ⟨⟨_, rfl⟩, fun table ↦
      atLine_keyword indent table (isWhole_of_mem_ownWords (by decide)) rfl (by decide) h.endLine⟩
  · exact ⟨⟨_, rfl⟩, fun table ↦
      atLine_keyword indent table (isWhole_of_mem_ownWords (by decide)) rfl (by decide) h⟩

mutual

/-- A statement is laid out and written with its tokens. -/
theorem atLine_statement {node : Node} {edits : List Edit} {rest : List Token}
    (hnode : isStatement node = true)
    (hsound : ∀ token ∈ statementTokens node, token.isSound = true)
    (h : ∀ table, AtLine table edits rest) :
    (∃ left, (statement indent node).outcome = .ok left) ∧
      ∀ table, AtLine table ((statement indent node).edits ++ edits)
        (statementTokens node ++ rest) := by
  cases node with
  | selectClause word items =>
    simp only [isStatement, Bool.and_eq_true] at hnode
    have hitems := atLine_items indent hnode.2
      (fun token htoken ↦ hsound token (by simp [statementTokens, htoken])) (h false)
    have hword := isWhole_of_isSound
      (hsound ⟨.selectWord, upper word⟩ (by simp [statementTokens])) (by simp)
    exact ⟨⟨_, rfl⟩, fun table ↦ by
      simpa [statement, map_eq, Draft.emit, selectEdits, statementTokens] using
        atLine_keyword indent table hword rfl (by decide) hitems⟩
  | fromClause word parts =>
    simp only [isStatement, Bool.and_eq_true, decide_eq_true_eq] at hnode
    exact atLine_fromClause indent hnode.1 hnode.2 hsound (h false)
  | whereClause word nodes =>
    simp only [isStatement, Bool.and_eq_true, decide_eq_true_eq] at hnode
    obtain ⟨⟨left, hok⟩, hnodes⟩ := atLine_conditions indent hnode.2
      (fun token htoken ↦ hsound token (by simp [statementTokens, htoken])) (h false)
    have hdraft : statement indent (.whereClause word nodes) =
        ⟨.addLine (indentation indent ++ "WHERE") :: (conditions indent nodes).edits,
          .ok (.whereClause word left)⟩ := by
      simp [statement, emit_bind, Draft.bind_of_ok hok]
    rw [hdraft, statementTokens, hnode.1]
    exact ⟨⟨_, rfl⟩, fun table ↦
      atLine_keyword indent table (isWhole_of_mem_ownWords (by decide)) rfl (by decide) hnodes⟩
  | groupByClause items rollup =>
    simp only [isStatement, Bool.and_eq_true] at hnode
    have hrollup := atLine_rollup indent hnode.2 (h false)
    have hitems := atLine_groupItems hnode.1.2
      (fun token htoken ↦ hsound token (by simp [statementTokens, htoken])) hrollup
    exact ⟨⟨_, rfl⟩, fun table ↦ by
      simpa [statement, map_eq, Draft.emit, groupByEdits, statementTokens] using
        atLine_keyword indent table (isWhole_of_mem_ownWords (by decide)) rfl (by decide) hitems⟩
  | havingClause word nodes =>
    simp only [isStatement, Bool.and_eq_true, decide_eq_true_eq] at hnode
    obtain ⟨hok, hnodes⟩ := atLine_havingConditions indent hnode.2
      (fun token htoken ↦ hsound token (by simp [statementTokens, htoken])) (h false)
    have hdraft : statement indent (.havingClause word nodes) =
        ⟨.addLine (indentation indent ++ "HAVING") :: (havingConditions indent nodes).edits,
          .ok (.havingClause word nodes)⟩ := by
      simp [statement, having, emit_bind, map_eq, hok, Except.map]
    rw [hdraft, statementTokens, hnode.1]
    exact ⟨⟨_, rfl⟩, fun table ↦
      atLine_keyword indent table (isWhole_of_mem_ownWords (by decide)) rfl (by decide) hnodes⟩
  | orderByClause items =>
    simp only [isStatement, Bool.and_eq_true] at hnode
    obtain ⟨hok, hitems⟩ := atLine_orderItems indent hnode.2
      (fun token htoken ↦ hsound token (by simp [statementTokens, htoken])) (h false)
    have hdraft : statement indent (.orderByClause items) =
        ⟨.addLine (indentation indent ++ "ORDER BY") :: (orderItems indent items).edits,
          .ok (.orderByClause items)⟩ := by
      simp [statement, orderBy, emit_bind, map_eq, hok, Except.map]
    rw [hdraft, statementTokens]
    exact ⟨⟨_, rfl⟩, fun table ↦
      atLine_keyword indent table (isWhole_of_mem_ownWords (by decide)) rfl (by decide) hitems⟩
  | limitClause count offset offsetWord =>
    simp only [isStatement, Bool.and_eq_true] at hnode
    exact ⟨⟨_, rfl⟩, atLine_limit indent hnode.1.2
      (fun token htoken ↦ hsound token (by simp [statementTokens, htoken])) (h false)⟩
  | insertClause word name rows columns query =>
    cases rows with
    | some rows => simp [isStatement] at hnode
    | none =>
      simp only [isStatement, Bool.and_eq_true, Bool.or_eq_true, List.isEmpty_iff,
        decide_eq_true_eq] at hnode
      obtain ⟨⟨⟨hword, hcolumns⟩, htable⟩, hquery⟩ := hnode
      rw [statementTokens, hword] at hsound ⊢
      have hname := isWhole_of_isSound (hsound ⟨.identifier, name⟩ (by simp)) (by simp)
      have hstart : ∀ {edits : List Edit} {tokens : List Token},
          (∀ table, AtLine table edits tokens) → ∀ table,
          AtLine table (tableEdits name columns ++ edits)
            (⟨.insertWord, "INSERT INTO"⟩ :: ⟨.identifier, name⟩ ::
              (columnTokens columns ++ tokens)) :=
        atLine_insert hname htable.resolve_left hcolumns
          fun token htoken ↦ hsound token (by simp [htoken])
      cases query with
      | nil => exact ⟨⟨_, rfl⟩, fun table ↦ by
          simpa [statement, map_eq, Draft.emit, Spelling.tokens] using hstart h table⟩
      | cons node nodes =>
        -- The query is laid out like a list of statements.
        obtain ⟨⟨left, hleft⟩, hlines⟩ := atLine_statements hquery
          (fun token htoken ↦ hsound token (by simp [htoken])) h
        have hdraft : statement indent (.insertClause word name none columns (node :: nodes)) =
            ⟨tableEdits name columns ++ (statements indent (node :: nodes)).edits,
              .ok (.insertClause word name none columns left)⟩ := by
          simp [statement, emit_bind, map_eq, hleft, Except.map]
        rw [hdraft]
        exact ⟨⟨_, rfl⟩, fun table ↦ by simpa using hstart hlines table⟩
  | semicolon text =>
    simp only [isStatement, decide_eq_true_eq] at hnode
    subst hnode
    exact ⟨⟨_, rfl⟩, atLine_semicolon (h false)⟩
  | _ => simp [isStatement] at hnode

theorem atLine_statements {nodes : List Node} {edits : List Edit} {rest : List Token}
    (hnodes : areStatements nodes = true)
    (hsound : ∀ token ∈ Spelling.tokens nodes, token.isSound = true)
    (h : ∀ table, AtLine table edits rest) :
    (∃ left, (statements indent nodes).outcome = .ok left) ∧
      ∀ table, AtLine table ((statements indent nodes).edits ++ edits)
        (Spelling.tokens nodes ++ rest) := by
  cases nodes with
  | nil => exact ⟨⟨_, rfl⟩, fun table ↦ (h table).endLine⟩
  | cons node nodes =>
    obtain ⟨hnode, hrest⟩ := areStatements_cons hnodes
    obtain ⟨⟨left, hleft⟩, hlines⟩ := atLine_statements hrest
      (fun token htoken ↦ hsound token (by simp [Spelling.tokens, htoken])) h
    have hgap : ∀ table, AtLine table
        ((if isSemicolon node && !nodes.isEmpty then [.blankLines 2] else []) ++
          ((statements indent nodes).edits ++ edits)) (Spelling.tokens nodes ++ rest) := by
      intro table
      split
      · exact (hlines table).blankLines 2
      · exact hlines table
    have hsound' : ∀ token ∈ statementTokens node, token.isSound = true := fun token htoken ↦
      hsound token (by simp [Spelling.tokens, htoken])
    obtain ⟨⟨first, hfirst⟩, hline⟩ := hnode.elim (fun hnode ↦ atLine_statement hnode hsound' hgap)
      fun hlast ↦ atLine_of_endsText indent hlast hsound' (hgap false)
    have hdraft : statements indent (node :: nodes) =
        ⟨(statement indent node).edits ++
            ((if isSemicolon node && !nodes.isEmpty then [.blankLines 2] else []) ++
              (statements indent nodes).edits), .ok (first :: left)⟩ := by
      simp [statements, emit_bind, Draft.bind_of_ok hfirst, Draft.bind_of_ok hleft]
    rw [hdraft, Spelling.tokens]
    exact ⟨⟨_, rfl⟩, fun table ↦ by simpa using hline table⟩

end

/-! ### The lines of a layout -/

/-- Whether the layout of a statement starts with a line of text, whatever the level of indentation. -/
def opensLine : Node → Bool
  | .selectClause word _ => upper word != ""
  | .fromClause .. | .whereClause .. | .groupByClause .. | .havingClause .. | .orderByClause _
  | .limitClause .. | .insertClause .. => true
  | _ => false

theorem exists_addLine (h : opensLine node = true) :
    ∃ first more, first ≠ "" ∧ (statement indent node).edits = .addLine first :: more := by
  cases node with
  | selectClause word items =>
    have hword : upper word ≠ "" := bne_iff_ne.mp h
    exact ⟨_, _, by simp [hword], rfl⟩
  | limitClause count offset offsetWord =>
    refine ⟨indentation indent ++ limitText count offset offsetWord, [], ?_, rfl⟩
    unfold limitText
    split
    · simp
    · split <;> simp
  | insertClause word table rows columns query =>
    obtain ⟨more, hmore⟩ : ∃ more, tableEdits table columns = .addLine "INSERT INTO" :: more :=
      ⟨_, rfl⟩
    cases rows <;> rw [statement, emit_bind, hmore] <;> exact ⟨"INSERT INTO", _, by decide, rfl⟩
  | fromClause word parts =>
    refine ⟨indentation indent ++ "FROM", (fromParts indent parts).edits, by simp, ?_⟩
    simp [statement, fromClause, emit_bind, map_eq]
  | whereClause word nodes =>
    rw [statement, emit_bind]
    exact ⟨_, _, by simp, rfl⟩
  | groupByClause items rollup => exact ⟨_, _, by simp, rfl⟩
  | havingClause word nodes =>
    refine ⟨indentation indent ++ "HAVING", (havingConditions indent nodes).edits, by simp, ?_⟩
    simp [statement, having, emit_bind, map_eq]
  | orderByClause items =>
    refine ⟨indentation indent ++ "ORDER BY", (orderItems indent items).edits, by simp, ?_⟩
    simp [statement, orderBy, emit_bind, map_eq]
  | _ => cases h

/-- A regular statement starts with a line, but for a semicolon. -/
theorem opensLine_of_isStatement (hnode : isStatement node = true ∨ endsText node = true)
    (hsound : ∀ token ∈ statementTokens node, token.isSound = true) (hsemicolon : isSemicolon node = false) :
    opensLine node = true := by
  cases node with
  | selectClause word items =>
    have hword := isWhole_of_isSound
      (hsound ⟨.selectWord, upper word⟩ (by simp [statementTokens])) (by simp)
    obtain ⟨c, tail, htext, -⟩ := exists_of_isWhole hword
    change upper word = String.ofList (c :: tail) at htext
    simp [opensLine, htext]
  | semicolon text => cases hsemicolon
  | _ => first | rfl | simp [isStatement, endsText] at hnode

theorem endLine_suffix (h : (statements indent nodes).outcome = .ok left) :
    [.endLine] <:+ (statements indent nodes).edits := by
  induction nodes generalizing left with
  | nil => exact List.suffix_refl _
  | cons node nodes ih =>
    rw [statements] at h ⊢
    cases hnode : (statement indent node).outcome with
    | error fault => simp [Draft.bind_of_error hnode] at h
    | ok first =>
      rw [Draft.bind_of_ok hnode, emit_bind] at h ⊢
      cases hrest : (statements indent nodes).outcome with
      | error fault => simp [map_eq, hrest, Except.map] at h
      | ok others =>
        rw [Draft.bind_of_ok hrest, Draft.edits_pure, List.append_nil]
        exact ((ih hrest).trans (List.suffix_append _ _)).trans (List.suffix_append _ _)

theorem exists_edits_bind {α β : Type} (first : Draft α) (next : α → Draft β) :
    ∃ more, (first >>= next).edits = first.edits ++ more := by
  cases h : first.outcome with
  | error fault => exact ⟨[], by simp [Draft.bind_of_error h]⟩
  | ok result => exact ⟨_, by rw [Draft.bind_of_ok h]⟩

/-- Edits that start with a line and end with one are laid out as their text. -/
theorem exists_style_of_sound {middle : List Edit}
    (hdraft : statements indent nodes = ⟨.addLine line :: (middle ++ [.endLine]), .ok left⟩)
    (hline : line ≠ "") (hsound : Edit.sound true (middle ++ [.endLine]) = true) :
    ∃ styled, style indent nodes = .ok styled ∧
      '\n' :: ("\n".intercalate styled.lines).toList =
        Edit.text true (.addLine line :: (middle ++ [.endLine])) := by
  obtain ⟨lines, hsteps, htext⟩ := LineBuffer.exists_lines_of_sound hline hsound
  refine ⟨⟨lines, left⟩, ?_, htext⟩
  simp [style, Draft.write, hdraft, hsteps, Except.map, bind, Except.bind, pure, Except.pure]

/-- Edits that spell tokens are laid out as a text that is cut into them. -/
theorem exists_style_of_atLine {middle : List Edit}
    (hdraft : statements indent nodes = ⟨.addLine line :: (middle ++ [.endLine]), .ok left⟩)
    (hline : line ≠ "") (h : AtLine false (.addLine line :: (middle ++ [.endLine])) tokens)
    (hglue : unglued tokens = true) :
    ∃ styled, style indent nodes = .ok styled ∧
      tokenize ("\n".intercalate styled.lines) = ⟨tokens, none⟩ := by
  obtain ⟨styled, hstyled, htext⟩ := exists_style_of_sound indent hdraft hline (by simpa using h.sound)
  refine ⟨styled, hstyled, ?_⟩
  rw [tokenize_eq_scan, ← scan_cons_of_isBlank (show isBlank '\n' = true by decide), htext]
  exact h.written.scan_eq hglue (by simp)

theorem statements_singleton {left : Node} {more : List Edit}
    (hdraft : statement indent node = ⟨.addLine line :: more, .ok left⟩) :
    statements indent [node] = ⟨.addLine line :: (more ++ [.endLine]), .ok [left]⟩ := by
  have hdone : (statement indent node).outcome = .ok left := by rw [hdraft]
  simp only [statements, Draft.bind_of_ok hdone, emit_bind]
  simp [hdraft, map_eq, Except.map]

/-- The layout of a readable tree succeeds, and its lines are written with the tokens of the tree. -/
theorem exists_style_tokenize (h : isReadable nodes = true) :
    ∃ styled, style indent nodes = .ok styled ∧
      tokenize ("\n".intercalate styled.lines) = ⟨Spelling.tokens nodes, none⟩ := by
  simp only [isReadable, Bool.and_eq_true, List.all_eq_true] at h
  obtain ⟨⟨⟨hnodes, hfirst⟩, hsound⟩, hglue⟩ := h
  have hend : ∀ table, AtLine table [] [] := fun table ↦ ⟨.nil, rfl, by simp⟩
  obtain ⟨⟨left, hleft⟩, hlines⟩ := atLine_statements indent hnodes hsound hend
  have hlast := endLine_suffix indent hleft
  cases nodes with
  | nil => exact ⟨⟨[], []⟩, rfl, rfl⟩
  | cons node nodes =>
    have hopens : opensLine node = true := opensLine_of_isStatement (areStatements_cons hnodes).1
      (fun token htoken ↦ hsound token (by simp [Spelling.tokens, htoken])) (by
        cases node <;> first | rfl | simp [startsWithSemicolon] at hfirst)
    obtain ⟨line, more, hline, hedits⟩ := exists_addLine indent hopens
    obtain ⟨rest, hrest⟩ : ∃ rest, (statements indent (node :: nodes)).edits =
        (statement indent node).edits ++ rest := by
      rw [statements]
      exact exists_edits_bind _ _
    obtain ⟨front, hfront⟩ := hlast
    -- All edits stand between the first line and the end of the last.
    obtain ⟨middle, hmiddle⟩ : ∃ middle, (statements indent (node :: nodes)).edits =
        .addLine line :: (middle ++ [.endLine]) := by
      cases front with
      | nil => simp [← hfront, hedits] at hrest
      | cons edit front =>
        rw [← hfront, hedits] at hrest
        obtain rfl : edit = .addLine line := (List.cons.inj hrest).1
        exact ⟨front, hfront.symm⟩
    rw [List.append_nil, hmiddle, List.append_nil] at hlines
    exact exists_style_of_atLine indent (by rw [← hmiddle, ← hleft]) hline (hlines false) hglue

end SqlLayout.Layout
