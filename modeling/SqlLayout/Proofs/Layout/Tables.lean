import SqlLayout.Proofs.Layout.Marks
import SqlLayout.Proofs.Read.Tables

/-!
# The layout of tables and joins

Behind an ON the layout passes over the next part, behind the table of a join it writes no comma, and each
link it writes is an AND.  What is lost that way can be counted: an O stands in every JOIN, in every ON and
in every OR, and a comma is one.  The layout of a clause never has more of these marks than its tokens, and
as many only if nothing is lost.
-/

namespace SqlLayout

open Text Token Spelling Regular Read

/-- The characters that tell what a FROM clause has lost. -/
def isMark (c : Char) : Bool :=
  c == 'O' || c == ','

theorem skipsBlanks_isMark : SkipsBlanks isMark := by
  intro c hc
  rw [← Bool.not_eq_true, isMark, Bool.or_eq_true, beq_iff_eq, beq_iff_eq]
  rintro (rfl | rfl)
  all_goals exact absurd hc (by decide)

namespace Layout

variable (indent : Int)
variable {parts : List FromPart} {conditions : List Node} {word : String} {token : Token}

/-! ### Calls -/

theorem marks_callAlias {asWord aliasName : Option String} (hboth : asWord.isSome = aliasName.isSome)
    (h : isAlias asWord aliasName = true) :
    SameMarks isMark (callAliasEdits asWord aliasName) (aliasTokens asWord aliasName) := by
  cases aliasName with
  | none =>
    cases asWord with
    | none => exact marks_nil
    | some word => cases hboth
  | some name =>
    cases asWord with
    | none => cases hboth
    | some word =>
      have hword : upper word = "AS" := by
        simp only [isAlias, Bool.and_eq_true, Option.all_some, decide_eq_true_eq] at h
        exact h.1
      by_cases hname : name = ""
      · subst hname
        exact ⟨by simp [callAliasEdits], by simp [callAliasEdits, aliasTokens, hword]; decide⟩
      · have hedits : callAliasEdits (some word) (some name) = [.add " AS ", .add name] := by
          simp [callAliasEdits, isPresent, ne_empty_of_upper hword, hname]
        rw [hedits]
        exact .add (by simp only [hword]; decide) (.add rfl marks_nil)

mutual

theorem marks_call {node : Node} (h : isArg node = true) :
    SameMarks isMark (callEdits node) (callTokens node) := by
  cases node with
  | term t => exact .add rfl marks_nil
  | call name args asWord aliasName =>
    simp only [isArg, Bool.and_eq_true, decide_eq_true_eq] at h
    have hback : SameMarks isMark (.add ")" :: callAliasEdits asWord aliasName)
        (closeParen :: aliasTokens asWord aliasName) := .add rfl (marks_callAlias h.1.2 h.2)
    have hargs : SameMarks isMark _ _ := (marks_args h.1.1).append hback
    exact .add rfl (.add rfl hargs)
  | _ => cases h

theorem marks_args {args : List Node} (h : areArgs args = true) :
    SameMarks isMark (argEdits args) (argTokens args) := by
  cases args with
  | nil => exact marks_nil
  | cons arg rest =>
    simp only [areArgs, Bool.and_eq_true] at h
    have hcomma : SameMarks isMark (Layout.commaBefore rest ", ") (Spelling.commaBefore rest) :=
      marks_commaBefore (by decide) rest
    exact ((marks_call h.1).append hcomma).append (marks_args h.2)

end

/-! ### Comparisons -/

theorem marks_operand {node : Node} (h : isOperand node = true) :
    SameMarks isMark (operandEdits node) (partTokens node) := by
  cases node with
  | term t =>
    have hname : t.kind = .identifier := by
      simp only [isOperand, isPlainName, isCall, Bool.or_false, Bool.and_eq_true,
        decide_eq_true_eq] at h
      exact h.1
    simp only [operandEdits, Node.isIdentifier, hname, decide_true, if_true]
    exact .add rfl marks_nil
  | call name args asWord aliasName =>
    exact marks_call (by simpa [isOperand, isPlainName, isCall] using h)
  | _ => simp [isOperand, isPlainName, isCall] at h

theorem marks_comparison {left right : Node} {op : String} {next : Nat} (hop : upper op ≠ "IN")
    (h : Comparison 0 next left right) :
    SameMarks isMark ([left, .operator op, right].flatMap operandEdits)
      (conditionTokens (.condition [left, .operator op, right])) := by
  obtain ⟨hleft, hright⟩ := isOperand_of_comparison h
  have hspace : Text.marks isMark " " = 0 := by decide
  have hmiddle : SameMarks isMark (operandEdits (.operator op)) (partTokens (.operator op)) := by
    simp only [operandEdits, Node.isIdentifier, Node.text, partTokens, hop, if_false]
    exact .add (by simp [hspace]) marks_nil
  simpa [conditionTokens] using (marks_operand hleft).append (hmiddle.append (marks_operand hright))

/-! ### Links -/

def AreAnds (conditions : List Node) : Prop :=
  ∀ word, .link word ∈ conditions → upper word = "AND"

theorem areAnds_cons_iff {parts : List Node} :
    AreAnds (.condition parts :: .link word :: conditions) ↔
      upper word = "AND" ∧ AreAnds conditions := by
  simp [AreAnds, or_imp, forall_and]

/-- A link that is written AND loses its mark if it is an OR. -/
theorem loses_link (h : upper word ∈ ["AND", "OR"]) :
    Loses isMark (upper word = "AND") [.add "AND "] [⟨.link, upper word⟩] := by
  have hand : Text.marks isMark "AND" = 0 ∧ Text.marks isMark "AND " = 0 := by decide
  have hor : Text.marks isMark "OR" = 1 := by decide
  refine ⟨rfl, by simp [hand.2], ?_⟩
  rcases List.mem_cons.mp h with hword | hword
  · exact fun _ ↦ hword
  · rw [List.mem_singleton.mp hword]
    simp [hand.2, hor]

theorem marks_start (newLine : Bool) :
    SameMarks isMark (if newLine then [.add (indentation (indent + 2))] else []) [] := by
  cases newLine with
  | false => exact marks_nil
  | true => exact ⟨rfl, by simp [marks_indentation skipsBlanks_isMark]⟩

/-- Linked comparisons lose a mark with every link that is no AND. -/
theorem loses_linked (h : LinkedComparisons conditions) (newLine : Bool) :
    Loses isMark (AreAnds conditions) (joinConditionEdits indent newLine conditions)
      (conditions.flatMap conditionTokens) := by
  induction h generalizing newLine with
  | @one left right op next hop hform =>
    have hline := (loses_endLine.behind (marks_comparison hop hform)).behind (marks_start indent newLine)
    simp only [joinConditionEdits, List.flatMap_singleton, List.append_nil, List.nil_append] at hline ⊢
    rw [List.append_assoc]
    exact hline.imp fun _ ↦ by simp [AreAnds]
  | @more left right op word next conditions hop hform hword _ ih =>
    have hlink := ((loses_link hword).append (ih false)).behind (marks_start indent true)
    have hline := (hlink.endLine.behind (marks_comparison hop hform)).behind (marks_start indent newLine)
    simpa [joinConditionEdits, conditionTokens_link] using hline.imp areAnds_cons_iff.mpr

/-! ### Parts -/

def startsWithTable : List FromPart → Bool
  | .table _ :: _ => true
  | _ => false

/-- Whether the layout writes all the tokens of parts: no comma stands behind the table of a join, nothing
behind conditions, and all links are ANDs. -/
def AreKept : List FromPart → Prop
  | [] => True
  | .table _ :: rest => AreKept rest
  | .join _ _ :: rest => startsWithTable rest = false ∧ AreKept rest
  | .joinOn _ _ _ conditions :: rest => AreAnds conditions ∧ rest = []

theorem marks_pos_of_isJoin (h : FromPart.IsJoin word) : 0 < Token.marks isMark [⟨.join, upper word⟩] := by
  rw [Token.marks, List.countP_pos_iff]
  refine ⟨'O', ?_, rfl⟩
  simpa using h.subset (show 'O' ∈ "JOIN".toList by decide)

/-- Behind conditions the next node is passed over. -/
theorem fromParts_on_cons (word : String) (conditions : List Node) (passed : Node) (rest : List Node) :
    fromParts indent (.onClause word conditions :: passed :: rest) =
      ⟨joinConditionEdits indent true conditions ++ .endLine :: (fromParts indent rest).edits,
        (fromParts indent rest).outcome⟩ := by
  simp [fromParts, emit_bind]

/-- The layout of nodes succeeds and writes at most the marks of tokens, and as many only if `kept` holds. -/
def LosesNodes (kept : Prop) (nodes : List Node) (tokens : List Token) : Prop :=
  (fromParts indent nodes).outcome = .ok () ∧ Loses isMark kept (fromParts indent nodes).edits tokens

section Steps

variable {kept : Prop} {t : Term} {rest : List Node} {tokens : List Token}

theorem losesNodes_nil (hkept : kept) : LosesNodes indent kept [] [] :=
  ⟨rfl, rfl, Nat.le_refl _, fun _ ↦ hkept⟩

theorem LosesNodes.lost {other : Prop} (h : LosesNodes indent kept rest tokens) (passed : List Token)
    (hpassed : 0 < Token.marks isMark passed) : LosesNodes indent other rest (passed ++ tokens) :=
  ⟨h.1, h.2.lost hpassed⟩

theorem LosesNodes.imp {other : Prop} (h : LosesNodes indent kept rest tokens) (himp : kept → other) :
    LosesNodes indent other rest tokens :=
  ⟨h.1, h.2.imp himp⟩

/-- A table in front of a join or at the end. -/
theorem LosesNodes.table (h : LosesNodes indent kept rest tokens) (ht : FromPart.IsTable t)
    (hrest : rest = [] ∨ startsWithJoin rest = true) :
    LosesNodes indent kept (.term t :: rest) (namedTokens t ++ tokens) := by
  have hcomma : (if startsWithJoin rest then [] else Layout.commaBefore rest ",") = ([] : List Edit) := by
    rcases hrest with rfl | hjoin
    · rfl
    · rw [if_pos hjoin]
  have hnamed := h.2.endLine.behind (marks_named skipsBlanks_isMark ht.2)
  have hline := hnamed.blank (marks_indentation skipsBlanks_isMark (indent + 1))
  rw [LosesNodes, fromParts_term indent ht.1, hcomma]
  exact ⟨h.1, by simpa using hline⟩

/-- A table in front of anything else gets a comma. -/
theorem LosesNodes.tableComma (h : LosesNodes indent kept rest tokens) (ht : FromPart.IsTable t)
    (hne : rest ≠ []) (hrest : startsWithJoin rest = false) (htoken : Text.marks isMark token.text = 1) :
    LosesNodes indent kept (.term t :: rest) (namedTokens t ++ token :: tokens) := by
  have hcomma : (if startsWithJoin rest then [] else Layout.commaBefore rest ",") = [.add ","] := by
    simp [hrest, Layout.commaBefore, hne]
  have hmarks : Text.marks isMark "," = Text.marks isMark token.text := by rw [htoken]; decide
  have hnamed := (h.2.endLine.add token hmarks).behind (marks_named skipsBlanks_isMark ht.2)
  have hline := hnamed.blank (marks_indentation skipsBlanks_isMark (indent + 1))
  rw [LosesNodes, fromParts_term indent ht.1, hcomma]
  exact ⟨h.1, by simpa using hline⟩

theorem LosesNodes.join (h : LosesNodes indent kept rest tokens) (word : String)
    (ht : FromPart.IsTable t) (hrest : startsWithOn rest = false) :
    LosesNodes indent kept (.join word :: .term t :: rest)
      (⟨.join, upper word⟩ :: (namedTokens t ++ tokens)) := by
  have hspace : Text.marks isMark " " = 0 := by decide
  have hnamed := (h.2.endLine.behind (marks_named skipsBlanks_isMark ht.2)).blank hspace
  have hline := (hnamed.add ⟨.join, upper word⟩ rfl).blank (marks_indentation skipsBlanks_isMark (indent + 1))
  rw [LosesNodes, fromParts_join, hrest]
  exact ⟨h.1, by simpa using hline⟩

theorem LosesNodes.joinOn (h : LosesNodes indent kept rest tokens) (word : String) {onWord : String}
    (ht : FromPart.IsTable t) (hrest : startsWithOn rest = true) (hon : upper onWord = "ON") :
    LosesNodes indent kept (.join word :: .term t :: rest)
      (⟨.join, upper word⟩ :: (namedTokens t ++ ⟨.onWord, upper onWord⟩ :: tokens)) := by
  have hspace : Text.marks isMark " " = 0 := by decide
  have hmarks : Text.marks isMark " ON" = Text.marks isMark (upper onWord) := by rw [hon]; decide
  have hnamed := ((h.2.endLine.add ⟨.onWord, upper onWord⟩ hmarks).behind
    (marks_named skipsBlanks_isMark ht.2)).blank hspace
  have hline := (hnamed.add ⟨.join, upper word⟩ rfl).blank (marks_indentation skipsBlanks_isMark (indent + 1))
  rw [LosesNodes, fromParts_join, hrest]
  exact ⟨h.1, by simpa using hline⟩

theorem loses_on (word : String) (hconditions : LinkedComparisons conditions) :
    LosesNodes indent (AreAnds conditions) [.onClause word conditions]
      (conditions.flatMap conditionTokens) := by
  have hline := ((loses_linked indent hconditions true).append loses_endLine).imp And.left
  rw [List.append_nil] at hline
  exact ⟨rfl, hline⟩

/-- Conditions in front of a node that is passed over. -/
theorem LosesNodes.on (h : LosesNodes indent kept rest tokens) (word : String)
    (hconditions : LinkedComparisons conditions) (passed : Node) :
    LosesNodes indent (AreAnds conditions ∧ kept) (.onClause word conditions :: passed :: rest)
      (conditions.flatMap conditionTokens ++ tokens) := by
  rw [LosesNodes, fromParts_on_cons]
  exact ⟨h.1, (loses_linked indent hconditions true).append h.2.endLine⟩

end Steps

/-- What the parts of a FROM clause lose behind a table, behind the table of a join and behind
conditions. -/
theorem loses_parts (hparts : ∀ part ∈ parts, part.IsRegular) :
    (∀ t, FromPart.IsTable t → LosesNodes indent (AreKept parts)
      (.term t :: parts.flatMap FromPart.nodes) (namedTokens t ++ parts.flatMap FromPart.tokens)) ∧
    LosesNodes indent (startsWithTable parts = false ∧ AreKept parts)
      (parts.flatMap FromPart.nodes) (parts.flatMap FromPart.tokens) ∧
    ∀ word conditions, LinkedComparisons conditions → LosesNodes indent (AreAnds conditions ∧ parts = [])
      (.onClause word conditions :: parts.flatMap FromPart.nodes)
      (conditions.flatMap conditionTokens ++ parts.flatMap FromPart.tokens) := by
  have hcomma : Text.marks isMark "," = 1 := by decide
  have hon_marks : Text.marks isMark "ON" = 1 := by decide
  induction parts with
  | nil =>
    refine ⟨fun t ht ↦ (losesNodes_nil indent trivial).table indent ht (.inl rfl),
      losesNodes_nil indent ⟨rfl, trivial⟩, fun word conditions hconditions ↦ ?_⟩
    rw [List.flatMap_nil, List.flatMap_nil, List.append_nil]
    exact (loses_on indent word hconditions).imp indent fun hands ↦ ⟨hands, rfl⟩
  | cons part parts ih =>
    obtain ⟨hpart, hmore⟩ := List.forall_mem_cons.mp hparts
    obtain ⟨htable, hjoin, hon⟩ := ih hmore
    have hstart : startsWithOn (parts.flatMap FromPart.nodes) = false := by
      cases parts with
      | nil => rfl
      | cons next parts => cases next <;> rfl
    cases part with
    | table t =>
      have hpassed : 0 < Token.marks isMark (comma :: namedTokens t) := by
        rw [Token.marks_cons, comma, hcomma]
        omega
      refine ⟨fun other hother ↦ ?_, ?_, fun word conditions hconditions ↦ ?_⟩
      · exact (htable t hpart).tableComma indent hother (List.cons_ne_nil _ _) rfl hcomma
      · exact (htable t hpart).lost indent [comma] (by simp [comma, hcomma])
      · exact (hjoin.lost indent _ hpassed).on indent word hconditions (.term t)
    | join word t =>
      have hkept : startsWithTable parts = false ∧ AreKept parts →
          startsWithTable (.join word t :: parts) = false ∧ AreKept (.join word t :: parts) :=
        fun hkept ↦ ⟨rfl, hkept⟩
      have hlaid := (hjoin.join indent word hpart.2 hstart).imp indent hkept
      refine ⟨fun other hother ↦ ?_, hlaid, fun onWord conditions hconditions ↦ ?_⟩
      · exact (hlaid.table indent hother (.inr rfl)).imp indent And.right
      · exact ((htable t hpart.2).lost indent [⟨.join, upper word⟩] (marks_pos_of_isJoin hpart.1)).on
          indent onWord hconditions (.join word)
    | joinOn word t onWord conditions =>
      obtain ⟨hword, ht, honWord, hlinked⟩ := hpart
      have hkept : AreAnds conditions ∧ parts = [] →
          startsWithTable (.joinOn word t onWord conditions :: parts) = false ∧
            AreKept (.joinOn word t onWord conditions :: parts) := fun hkept ↦ ⟨rfl, hkept⟩
      have hbehind := hon onWord conditions hlinked
      have hlaid := (hbehind.joinOn indent word ht rfl honWord).imp indent hkept
      -- The ON behind a join that is passed over is written as a comma.
      have hcommas : Text.marks isMark (⟨.onWord, upper onWord⟩ : Token).text = 1 := by
        simp only [honWord, hon_marks]
      have hrow := hbehind.tableComma indent ht (List.cons_ne_nil _ _) rfl hcommas
      have htokens : (FromPart.joinOn word t onWord conditions :: parts).flatMap FromPart.tokens =
          ⟨.join, upper word⟩ :: (namedTokens t ++ ⟨.onWord, upper onWord⟩ ::
            (conditions.flatMap conditionTokens ++ parts.flatMap FromPart.tokens)) := by
        simp [FromPart.tokens]
      rw [htokens]
      refine ⟨fun other hother ↦ ?_, hlaid, fun before others hothers ↦ ?_⟩
      · exact (hlaid.table indent hother (.inr rfl)).imp indent And.right
      · exact (hrow.lost indent [⟨.join, upper word⟩] (marks_pos_of_isJoin hword)).on indent before
          hothers (.join word)

/-! ### What is kept -/

theorem areJoinParts_of_linked (h : LinkedComparisons conditions) (hands : AreAnds conditions) :
    areJoinParts false 0 conditions = true := by
  have hname : ∀ {node : Node}, isCall node = true → isPlainName node = false := by
    intro node hnode
    obtain ⟨name, args, asWord, aliasName, rfl, -⟩ := exists_of_isCall hnode
    rfl
  have hstep : ∀ {left right : Node} {op : String} {next : Nat} {rest : List Node}, upper op ≠ "IN" →
      Comparison 0 next left right → areJoinParts false next rest = true →
      areJoinParts false 0 (.condition [left, .operator op, right] :: rest) = true := by
    intro left right op next rest hop hform hrest
    cases hform with
    | names hleft hright => simp [areJoinParts, hop, hleft, hright, hrest]
    | callOnRight _ hleft hright => simp [areJoinParts, hop, hleft, hright, hrest, hname hright]
    | callOnLeft _ hleft hright => simp [areJoinParts, hop, hleft, hright, hrest, hname hleft]
  induction h with
  | one hop hform => exact hstep hop hform rfl
  | @more left right op word next rest hop hform _ _ ih =>
    have hword : upper word = "AND" := hands word (by simp)
    refine hstep hop hform ?_
    simp [areJoinParts, hword, ih fun other hother ↦ hands other (by simp [hother])]

theorem startsWithTerm_nodes (parts : List FromPart) :
    startsWithTerm (parts.flatMap FromPart.nodes) = startsWithTable parts := by
  cases parts with
  | nil => rfl
  | cons part parts => cases part <;> rfl

/-- Parts that the layout keeps are regular, and their tokens are those that it writes. -/
theorem fromParts_of_areKept (hparts : ∀ part ∈ parts, part.IsRegular) (hkept : AreKept parts) :
    FromParts false (parts.flatMap FromPart.nodes) ∧
      parts.flatMap FromPart.tokens = (if startsWithTable parts then [comma] else []) ++
        fromTokens (parts.flatMap FromPart.nodes) := by
  induction parts with
  | nil => exact ⟨.nil, rfl⟩
  | cons part parts ih =>
    obtain ⟨hpart, hmore⟩ := List.forall_mem_cons.mp hparts
    cases part with
    | table t =>
      obtain ⟨hnodes, htokens⟩ := ih hmore hkept
      have hstarts : startsWithTable (.table t :: parts) = true := rfl
      refine ⟨.table hpart.1 hpart.2 hnodes, ?_⟩
      rw [List.flatMap_cons, htokens]
      simp [FromPart.tokens, FromPart.nodes, fromTokens, startsWithTerm_nodes, hstarts]
    | join word t =>
      obtain ⟨hnodes, htokens⟩ := ih hmore hkept.2
      have hterm := startsWithTerm_nodes parts
      rw [hkept.1] at hterm htokens
      refine ⟨.join hpart.2.2 (fun _ ↦ hterm) hnodes, ?_⟩
      rw [List.flatMap_cons, htokens]
      simp [FromPart.tokens, FromPart.nodes, fromTokens, startsWithTable]
    | joinOn word t onWord conditions =>
      obtain ⟨hands, rfl⟩ := hkept
      refine ⟨.on hpart.2.1.2 hpart.2.2.1 (areJoinParts_of_linked hpart.2.2.2 hands), ?_⟩
      simp [FromPart.tokens, FromPart.nodes, fromTokens, startsWithTable]

/-! ### The clause -/

theorem kind_ne_of_mem_aliasTokens {asWord aliasName : Option String}
    (h : token ∈ aliasTokens asWord aliasName) : token.kind ≠ .insertWord := by
  rcases List.mem_append.mp h with h | h
  · obtain ⟨word, -, rfl⟩ := Option.map_eq_some_iff.mp (Option.mem_toList.mp h)
    simp
  · obtain ⟨name, -, rfl⟩ := Option.map_eq_some_iff.mp (Option.mem_toList.mp h)
    exact (ofValue_kind_ne name).2.1

theorem kind_ne_of_mem_namedTokens {t : Term} (h : token ∈ namedTokens t) : token.kind ≠ .insertWord := by
  rcases List.mem_cons.mp h with rfl | h
  · exact (tokenKind_ne t.kind).2.1
  · exact kind_ne_of_mem_aliasTokens h

theorem kind_ne_of_mem_commaBefore {rest : List Node} (h : token ∈ Spelling.commaBefore rest) :
    token.kind ≠ .insertWord := by
  unfold Spelling.commaBefore at h
  split at h
  · cases h
  · rw [List.mem_singleton.mp h]
    decide

mutual

theorem kind_ne_of_mem_callTokens {node : Node} {token : Token} (h : token ∈ callTokens node) :
    token.kind ≠ .insertWord := by
  cases node with
  | term t =>
    rw [callTokens, List.mem_singleton] at h
    rw [h]
    exact (tokenKind_ne t.kind).2.1
  | call name args asWord aliasName =>
    simp only [callTokens, List.cons_append, List.mem_cons, List.mem_append] at h
    rcases h with rfl | rfl | h | rfl | h
    · simp
    · decide
    · exact kind_ne_of_mem_argTokens h
    · decide
    · exact kind_ne_of_mem_aliasTokens h
  | _ => simp [callTokens] at h

theorem kind_ne_of_mem_argTokens {args : List Node} {token : Token} (h : token ∈ argTokens args) :
    token.kind ≠ .insertWord := by
  cases args with
  | nil => simp [argTokens] at h
  | cons arg rest =>
    simp only [argTokens, List.mem_append] at h
    rcases h with (h | h) | h
    · exact kind_ne_of_mem_callTokens h
    · exact kind_ne_of_mem_commaBefore h
    · exact kind_ne_of_mem_argTokens h

end

theorem kind_ne_of_mem_comparison {left right : Node} {op : String} {next : Nat}
    (hform : Comparison 0 next left right)
    (h : token ∈ conditionTokens (.condition [left, .operator op, right])) : token.kind ≠ .insertWord := by
  have hoperand : ∀ {node : Node}, isOperand node = true → token ∈ partTokens node →
      token.kind ≠ .insertWord := by
    intro node hnode htoken
    cases node with
    | term t =>
      rw [partTokens, ← callTokens] at htoken
      exact kind_ne_of_mem_callTokens htoken
    | call name args asWord aliasName => exact kind_ne_of_mem_callTokens htoken
    | _ => simp [isOperand, isPlainName, isCall] at hnode
  obtain ⟨hleft, hright⟩ := isOperand_of_comparison hform
  simp only [conditionTokens, List.flatMap_cons, List.flatMap_nil, List.append_nil,
    List.mem_append] at h
  rcases h with h | h | h
  · exact hoperand hleft h
  · rw [partTokens, List.mem_singleton] at h
    rw [h]
    dsimp only
    split <;> decide
  · exact hoperand hright h

theorem kind_ne_of_mem_linked (h : LinkedComparisons conditions)
    (htoken : token ∈ conditions.flatMap conditionTokens) : token.kind ≠ .insertWord := by
  induction h with
  | one _ hform =>
    rw [List.flatMap_singleton] at htoken
    exact kind_ne_of_mem_comparison hform htoken
  | more _ hform _ _ ih =>
    rw [List.flatMap_cons, List.flatMap_cons, conditionTokens_link, List.mem_append,
      List.mem_append, List.mem_singleton] at htoken
    rcases htoken with htoken | rfl | htoken
    · exact kind_ne_of_mem_comparison hform htoken
    · simp
    · exact ih htoken

theorem kind_ne_of_mem_clauseTokens {first : Term} (hparts : ∀ part ∈ parts, part.IsRegular)
    (h : token ∈ clauseTokens first parts) : token.kind ≠ .insertWord := by
  simp only [clauseTokens, List.mem_cons, List.mem_append, List.mem_flatMap] at h
  rcases h with rfl | h | ⟨part, hpart, h⟩
  · decide
  · exact kind_ne_of_mem_namedTokens h
  · have hregular := hparts part hpart
    cases part with
    | table t =>
      rcases List.mem_cons.mp h with rfl | h
      · decide
      · exact kind_ne_of_mem_namedTokens h
    | join word t =>
      rcases List.mem_cons.mp h with rfl | h
      · simp
      · exact kind_ne_of_mem_namedTokens h
    | joinOn word t onWord conditions =>
      simp only [FromPart.tokens, List.mem_cons, List.mem_append] at h
      rcases h with rfl | h | rfl | h
      · simp
      · exact kind_ne_of_mem_namedTokens h
      · simp
      · exact kind_ne_of_mem_linked hregular.2.2.2 h

/-- The layout of a FROM clause succeeds.  It has the marks of the tokens only if it keeps all parts, and
then it is written with the tokens if they can be written at all. -/
theorem exists_style_from {first : Term} (hfirst : FromPart.IsTable first)
    (hparts : ∀ part ∈ parts, part.IsRegular) (word : String) :
    ∃ styled, style indent [.fromClause word (.term first :: parts.flatMap FromPart.nodes)] =
        .ok styled ∧
      (Token.marks isMark (clauseTokens first parts) ≤
        ("\n".intercalate styled.lines).toList.countP isMark → AreKept parts) ∧
      (AreKept parts → (∀ token ∈ clauseTokens first parts, token.isSound = true) →
        Written false ('\n' :: ("\n".intercalate styled.lines).toList) (clauseTokens first parts)) := by
  obtain ⟨hok, hloses⟩ := (loses_parts indent hparts).1 first hfirst
  have hdraft : statement indent (.fromClause word (.term first :: parts.flatMap FromPart.nodes)) =
      ⟨.addLine (indentation indent ++ "FROM") ::
          (fromParts indent (.term first :: parts.flatMap FromPart.nodes)).edits,
        .ok (.fromClause word (.term first :: parts.flatMap FromPart.nodes))⟩ := by
    simp [statement, fromClause, emit_bind, map_eq, hok, Except.map]
  obtain ⟨styled, hstyled, htext, hcount⟩ :=
    exists_style_of_isPlain skipsBlanks_isMark indent hdraft (by simp) hloses.plain
  refine ⟨styled, hstyled, fun hmarks ↦ hloses.all ?_, fun hkept hwords ↦ ?_⟩
  · rw [hcount] at hmarks
    simpa [clauseTokens, marks_indentation skipsBlanks_isMark] using hmarks
  · have hend : AtLine false [.endLine] [] := AtLine.endLine ⟨.nil, rfl, by simp⟩
    obtain ⟨hnodes, htokens⟩ := fromParts_of_areKept hparts hkept
    have hspelled : clauseTokens first parts =
        ⟨.fromWord, "FROM"⟩ :: fromTokens (.term first :: parts.flatMap FromPart.nodes) := by
      rw [clauseTokens, htokens, fromTokens, startsWithTerm_nodes]
      simp
    rw [hspelled] at hwords ⊢
    have hline := (atLine_fromParts indent (.table hfirst.1 hfirst.2 hnodes)
      (fun token htoken ↦ hwords token (List.mem_cons_of_mem _ htoken)) hend).2
    have hclause : AtLine false _ (⟨.fromWord, "FROM"⟩ :: _) :=
      atLine_keyword indent false (isWhole_of_mem_ownWords (by decide)) rfl (by decide) hline
    rw [List.append_nil] at hclause
    rw [htext]
    exact hclause.written

end Layout

end SqlLayout
