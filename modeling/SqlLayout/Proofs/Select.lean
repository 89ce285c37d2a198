import SqlLayout.Proofs.SelectItems

/-!
# The items of a select list

The layout of a SELECT clause is read back as the clause exactly if the calls of its items, however deep they
stand in one another, have an alias with an AS or none at all, and no keyword of a case expression has a
parenthesis in its text.  As for a FROM clause, that is on condition that the tokens can be told apart where
blanks stand between them.
-/

namespace SqlLayout

open Text Token Spelling Regular Read

/-! ### What is kept -/

namespace Node

mutual

/-- Whether the layout writes all of an item: the alias of a call is written with its AS only, and the
keywords of a case expression are written without what follows them in their text. -/
def isKept : Node → Bool
  | .call _ args asWord aliasName => asWord.isSome = aliasName.isSome && areKept args
  | .caseOf _ branches => areKept branches
  | .whenThen whenWord _ thenWord _ => upper whenWord = "WHEN" && upper thenWord = "THEN"
  | .otherwise elseWord _ => upper elseWord = "ELSE"
  | _ => true

def areKept : List Node → Bool
  | [] => true
  | node :: rest => isKept node && areKept rest

end

end Node

open Node

namespace Select

mutual

theorem isArg_of_isKept {node : Node} (h : IsArg node) (hkept : node.isKept = true) :
    Regular.isArg node = true := by
  cases node with
  | term t => exact h
  | call name args asWord aliasName =>
    simp only [isKept, Bool.and_eq_true, decide_eq_true_eq] at hkept
    simp [Regular.isArg, areArgs_of_areKept h.1 hkept.2, hkept.1, h.2.1]
  | _ => cases h

theorem areArgs_of_areKept {args : List Node} (h : AreArgs args) (hkept : areKept args = true) :
    Regular.areArgs args = true := by
  cases args with
  | nil => rfl
  | cons arg rest =>
    simp only [areKept, Bool.and_eq_true] at hkept
    simp [Regular.areArgs, isArg_of_isKept h.1 hkept.1, areArgs_of_areKept h.2 hkept.2]

end

theorem isBranch_of_isKept {branch : Node} (h : IsBranch branch) (hkept : branch.isKept = true) :
    Regular.isBranch branch = true := by
  cases branch with
  | whenThen whenWord tested thenWord result =>
    simp only [isKept, Bool.and_eq_true, decide_eq_true_eq] at hkept
    simp [Regular.isBranch, hkept, h.2.1, h.2.2.2]
  | otherwise elseWord result =>
    simp only [isKept, decide_eq_true_eq] at hkept
    simp [Regular.isBranch, hkept, h.2]
  | _ => cases h

theorem all_of_areKept {motive : Node → Prop} {regular : Node → Bool} {nodes : List Node}
    (hregular : ∀ node, motive node → node.isKept = true → regular node = true)
    (h : ∀ node ∈ nodes, motive node) (hkept : areKept nodes = true) : nodes.all regular = true := by
  induction nodes with
  | nil => rfl
  | cons node rest ih =>
    simp only [areKept, Bool.and_eq_true] at hkept
    rw [List.forall_mem_cons] at h
    simp [hregular node h.1 hkept.1, ih h.2 hkept.2]

theorem isItem_of_isKept {node : Node} (h : IsItem node) (hkept : node.isKept = true) :
    Regular.isItem node = true := by
  cases node with
  | term t => exact h
  | call name args asWord aliasName => exact isArg_of_isKept h hkept
  | caseOf word branches => exact all_of_areKept (fun _ ↦ isBranch_of_isKept) h hkept
  | _ => cases h

end Select

/-! ### What is lost -/

/-- The characters that can be seen. -/
def isInk (c : Char) : Bool :=
  !isBlank c

theorem skipsBlanks_isInk : SkipsBlanks isInk := by
  intro c hc
  simp [isInk, hc]

/-- A text that ends in no blank can be seen. -/
theorem countP_isInk_pos {text : List Char} (h : IsSettled text) (hne : text ≠ []) :
    0 < text.countP isInk := by
  obtain ⟨last, hlast⟩ := Option.ne_none_iff_exists'.mp
    fun hnone ↦ hne (List.getLast?_eq_none_iff.mp hnone)
  rw [List.countP_pos_iff]
  refine ⟨last, List.mem_of_getLast? hlast, ?_⟩
  rw [IsSettled, hlast] at h
  simpa [isInk] using h

/-- A keyword has less to see than its name and what follows it. -/
theorem Select.Opens.marks {keyword word : String} (h : Opens keyword word) :
    Text.marks isInk keyword ≤ Text.marks isInk (upper word) ∧
      (Text.marks isInk (upper word) ≤ Text.marks isInk keyword → upper word = keyword) := by
  obtain ⟨rest, hupper, hsettled⟩ := h
  have hcount : Text.marks isInk (upper word) = Text.marks isInk keyword + rest.countP isInk := by
    rw [Text.marks, hupper, List.countP_append, Text.marks]
  refine ⟨by omega, fun hle ↦ ?_⟩
  have hrest : rest = [] := by
    by_cases hne : rest = []
    · exact hne
    · have hpos := countP_isInk_pos hsettled hne
      omega
  rw [hrest, List.append_nil] at hupper
  exact String.toList_inj.mp hupper

namespace Layout

variable (indent : Int)

theorem loses_callAlias {asWord aliasName : Option String} (h : Select.IsAlias asWord aliasName) :
    Loses isInk (asWord.isSome = aliasName.isSome) (callAliasEdits asWord aliasName)
      (aliasTokens asWord aliasName) := by
  obtain ⟨halias, hname⟩ := h
  simp only [isAlias, Bool.and_eq_true] at halias
  cases aliasName with
  | none =>
    cases asWord with
    | none => exact loses_nil.imp fun _ ↦ rfl
    | some word =>
      have hword : upper word = "AS" := by simpa using halias.1
      have hpos : 0 < Token.marks isInk [⟨.asWord, upper word⟩] := by
        rw [hword]
        decide
      exact loses_nil.lost hpos
  | some name =>
    obtain ⟨hne, hsettled⟩ := hname name rfl
    cases asWord with
    | none =>
      have hpos : 0 < Token.marks isInk [ofValue name] := by
        simpa [Text.marks] using countP_isInk_pos hsettled (by simpa using hne)
      exact (loses_nil.lost hpos : Loses isInk _ [] ([ofValue name] ++ []))
    | some word =>
      have hword : upper word = "AS" := by simpa using halias.1
      have hedits : callAliasEdits (some word) (some name) = [.add " AS ", .add name] := by
        simp [callAliasEdits, isPresent, ne_empty_of_upper hword, hne]
      have hmarks : Text.marks isInk " AS " = Text.marks isInk (upper word) := by
        rw [hword]
        decide
      rw [hedits]
      exact ((loses_nil.add (ofValue name) rfl).add ⟨.asWord, upper word⟩ hmarks).imp fun _ ↦ rfl

mutual

theorem loses_call {node : Node} (h : Select.IsArg node) :
    Loses isInk (node.isKept = true) (callEdits node) (callTokens node) := by
  cases node with
  | term t => exact (loses_nil.add (termToken t) rfl).imp fun _ ↦ rfl
  | call name args asWord aliasName =>
    have hback := (loses_callAlias h.2).add closeParen rfl
    have hargs := (loses_args h.1).append hback
    refine ((hargs.add openParen rfl).add ⟨.func, upper name⟩ rfl).imp fun hkept ↦ ?_
    simp [isKept, hkept]
  | _ => cases h

theorem loses_args {args : List Node} (h : Select.AreArgs args) :
    Loses isInk (areKept args = true) (argEdits args) (argTokens args) := by
  cases args with
  | nil => exact loses_nil.imp fun _ ↦ rfl
  | cons arg rest =>
    have hcomma : SameMarks isInk (Layout.commaBefore rest ", ") (Spelling.commaBefore rest) :=
      marks_commaBefore (by decide) rest
    have hall := (loses_call h.1).append ((loses_args h.2).behind hcomma)
    rw [argEdits, argTokens, List.append_assoc, List.append_assoc]
    refine hall.imp fun hkept ↦ ?_
    simp [areKept, hkept]

end

theorem loses_branch (level : Int) {branch : Node} (h : Select.IsBranch branch) :
    Loses isInk (branch.isKept = true) [.add (indentation level ++ branch.text)] (branchTokens branch) := by
  have hblank := marks_indentation skipsBlanks_isInk level
  cases branch with
  | whenThen whenWord tested thenWord result =>
    obtain ⟨hwhen, hwhen'⟩ := h.1.marks
    obtain ⟨hthen, hthen'⟩ := h.2.2.1.marks
    have hwords : Text.marks isInk "WHEN " = Text.marks isInk "WHEN" ∧
        Text.marks isInk " THEN " = Text.marks isInk "THEN" := by decide
    have hedits : Edit.marks isInk
        [.add (indentation level ++ (Node.whenThen whenWord tested thenWord result).text)] =
        Text.marks isInk "WHEN" + Text.marks isInk tested + Text.marks isInk "THEN" +
          Text.marks isInk result := by
      simp [Node.text, hblank, hwords]
    have htokens : Token.marks isInk (branchTokens (.whenThen whenWord tested thenWord result)) =
        Text.marks isInk (upper whenWord) + (Text.marks isInk tested +
          (Text.marks isInk (upper thenWord) + Text.marks isInk result)) := by
      simp [branchTokens]
    refine ⟨rfl, by omega, fun hle ↦ ?_⟩
    simp [isKept, hwhen' (by omega), hthen' (by omega)]
  | otherwise elseWord result =>
    obtain ⟨helse, helse'⟩ := h.1.marks
    have hword : Text.marks isInk "ELSE " = Text.marks isInk "ELSE" := by decide
    have hedits : Edit.marks isInk [.add (indentation level ++ (Node.otherwise elseWord result).text)] =
        Text.marks isInk "ELSE" + Text.marks isInk result := by
      simp [Node.text, hblank, hword]
    have htokens : Token.marks isInk (branchTokens (.otherwise elseWord result)) =
        Text.marks isInk (upper elseWord) + Text.marks isInk result := by
      simp [branchTokens]
    refine ⟨rfl, by omega, fun hle ↦ ?_⟩
    simp [isKept, helse' (by omega)]
  | _ => cases h

theorem loses_branches {branches : List Node} (h : ∀ branch ∈ branches, Select.IsBranch branch) :
    Loses isInk (areKept branches = true) (branchEdits indent branches)
      (branches.flatMap branchTokens) := by
  induction branches with
  | nil => exact loses_nil.imp fun _ ↦ rfl
  | cons branch rest ih =>
    rw [List.forall_mem_cons] at h
    have hfirst := loses_branch (indent + 2) h.1
    have hrest := ih h.2
    cases rest with
    | nil =>
      rw [List.flatMap_singleton]
      exact hfirst.imp fun hkept ↦ by simp [areKept, hkept]
    | cons next rest =>
      have hall := hfirst.append hrest.endLine
      rw [List.flatMap_cons]
      exact hall.imp fun hkept ↦ by rw [areKept, hkept.1, hkept.2]; rfl

theorem loses_item {node : Node} (h : Select.IsItem node) :
    Loses isInk (node.isKept = true) (selectItemEdits indent node) (itemTokens node) := by
  cases node with
  | term t =>
    have hsame := marks_named skipsBlanks_isInk h
    exact ⟨hsame.1, Nat.le_of_eq hsame.2, fun _ ↦ rfl⟩
  | call name args asWord aliasName => exact loses_call h
  | caseOf word branches => exact (loses_branches indent h).addLine ⟨.caseWord, upper word⟩ rfl
  | _ => cases h

theorem loses_items {items : List Node} (h : ∀ item ∈ items, Select.IsItem item) :
    Loses isInk (areKept items = true) (selectItemsEdits indent items) (separated itemTokens items) := by
  induction items with
  | nil => exact loses_nil.imp fun _ ↦ rfl
  | cons item rest ih =>
    rw [List.forall_mem_cons] at h
    have hall := (loses_item indent h.1).append ((ih h.2).endLine.behind (marks_commaBefore rfl rest))
    have hline := hall.blank (marks_indentation skipsBlanks_isInk (indent + 1))
    have hkept : Loses isInk (areKept (item :: rest) = true) _ _ := hline.imp fun hkept ↦ by
      rw [areKept, hkept.1, hkept.2]
      rfl
    simpa [selectItemsEdits, separated] using hkept

/-- The layout of a select list succeeds.  It shows as much as the tokens only if all of the items is kept,
and then it is written with the tokens if they can be written at all. -/
theorem exists_style_select (word : String) (hword : upper word ≠ "") {items : List Node}
    (hitems : ∀ item ∈ items, Select.IsItem item) :
    ∃ styled, style indent [.selectClause word items] = .ok styled ∧
      (Token.marks isInk (⟨.selectWord, upper word⟩ :: separated itemTokens items) ≤
        ("\n".intercalate styled.lines).toList.countP isInk → areKept items = true) ∧
      (areKept items = true →
        (∀ token ∈ ⟨.selectWord, upper word⟩ :: separated itemTokens items, token.isSound = true) →
        Written false ('\n' :: ("\n".intercalate styled.lines).toList)
          (⟨.selectWord, upper word⟩ :: separated itemTokens items)) := by
  have hloses := loses_items indent hitems
  have hdraft : statement indent (.selectClause word items) =
      ⟨.addLine (indentation indent ++ upper word) :: selectItemsEdits indent items,
        .ok (.selectClause word items)⟩ := by
    simp [statement, selectEdits, map_eq, Except.map, Draft.emit]
  obtain ⟨styled, hstyled, htext, hcount⟩ :=
    exists_style_of_isPlain skipsBlanks_isInk indent hdraft (by simp [hword]) hloses.plain
  refine ⟨styled, hstyled, fun hmarks ↦ hloses.all ?_, fun hkept hwords ↦ ?_⟩
  · rw [hcount] at hmarks
    simpa [marks_indentation skipsBlanks_isInk] using hmarks
  · have hend : AtLine false [.endLine] [] := AtLine.endLine ⟨.nil, rfl, by simp⟩
    rw [List.forall_mem_cons] at hwords
    have hregular := Select.all_of_areKept (fun _ ↦ Select.isItem_of_isKept) hitems hkept
    have hline := atLine_items indent hregular hwords.2 hend
    have hclause : AtLine false _ (⟨.selectWord, upper word⟩ :: _) :=
      atLine_keyword indent false (isWhole_of_isSound hwords.1 (by simp)) rfl (by simp) hline
    rw [List.append_nil] at hclause
    rw [htext]
    exact hclause.written

end Layout

open Layout

/-! ### The lines of a select list -/

/-- The lines of a SELECT clause give its tokens again exactly if all of its items is kept and the tokens can
be told apart on one line. -/
theorem tokensOf_lines_select_iff {sql : String} {tokens : List Token} {word : String} {items : List Node}
    (indent : Int) (htokens : tokensOf sql = .ok tokens)
    (hfirst : tokens.head?.map Token.kind = some .selectWord)
    (hlast : tokens.getLast?.all (·.kind ≠ .comma) = true) (htidy : isTidy tokens = true)
    (hparse : parse tokens = .ok [.selectClause word items]) :
    ∃ styled, style indent [.selectClause word items] = .ok styled ∧
      (tokensOf ("\n".intercalate styled.lines) = .ok (tokens.map shout) ↔
        areKept items = true ∧ tokensOf (oneLine (tokens.map shout)) = .ok (tokens.map shout)) := by
  obtain ⟨keyword, rest, rfl⟩ : ∃ keyword rest, tokens = keyword :: rest := by
    cases tokens with
    | nil => cases hfirst
    | cons keyword rest => exact ⟨keyword, rest, rfl⟩
  have hkeyword : keyword.kind = .selectWord := by simpa using hfirst
  have hlast' : rest.getLast?.all (·.kind ≠ .comma) = true := by
    cases rest with
    | nil => rfl
    | cons next rest => rwa [List.getLast?_cons_cons] at hlast
  obtain ⟨rfl, hspells⟩ := spells_of_parse hkeyword hparse hlast' (isTidy_of_cons htidy)
  have hinsert : ∀ token ∈ keyword :: rest, token.kind ≠ .insertWord :=
    List.forall_mem_cons.mpr ⟨by simp [hkeyword], hspells.insert⟩
  have hsound := List.forall_mem_cons.mp (isSound_of_taken (taken_of_tokensOf htokens) hinsert)
  obtain ⟨hrest, hitems⟩ := hspells.shout hsound.2
  have hshout : (keyword :: rest).map shout =
      ⟨.selectWord, upper keyword.text⟩ :: separated itemTokens items := by
    rw [List.map_cons, hrest, shout_of_not_isValue (by rw [hkeyword]; rfl), hkeyword]
  have hinsert' : ∀ token ∈ (keyword :: rest).map shout, token.kind ≠ .insertWord := by
    simpa using hinsert
  rw [hshout] at hinsert' ⊢
  have hwhole := isWhole_of_isSound hsound.1 (by simp [hkeyword])
  obtain ⟨c, tail, htext, -⟩ := exists_of_isWhole hwhole
  obtain ⟨styled, hstyled, hmarks, hwritten⟩ :=
    exists_style_select indent keyword.text (by simp [htext]) hitems
  exact ⟨styled, hstyled, tokensOf_iff_kept hinsert' hmarks hwritten⟩

/-- `select f(g(a) as b, 1) as c, d e, case when h then 'i' else 2` -/
def nestedItems : List Token :=
  [⟨.selectWord, "select"⟩, ⟨.func, "f"⟩, openParen, ⟨.func, "g"⟩, openParen, ⟨.identifier, "a"⟩, closeParen,
    ⟨.asWord, "as"⟩, ⟨.identifier, "b"⟩, comma, ⟨.number, "1"⟩, closeParen, ⟨.asWord, "as"⟩,
    ⟨.identifier, "c"⟩, comma, ⟨.identifier, "d"⟩, ⟨.identifier, "e"⟩, comma, ⟨.caseWord, "case"⟩,
    ⟨.whenWord, "when"⟩, ⟨.identifier, "h"⟩, ⟨.thenWord, "then"⟩, ⟨.str, "'i'"⟩, ⟨.elseWord, "else"⟩,
    ⟨.number, "2"⟩]

/-- `select count(a) b` -/
def aliasedCall : List Token :=
  [⟨.selectWord, "select"⟩, ⟨.func, "count"⟩, openParen, ⟨.identifier, "a"⟩, closeParen, ⟨.identifier, "b"⟩]

/-- `select case when (a then b` -/
def openCase : List Token :=
  [⟨.selectWord, "select"⟩, ⟨.caseWord, "case"⟩, ⟨.whenWord, "when ("⟩, ⟨.identifier, "a"⟩,
    ⟨.thenWord, "then"⟩, ⟨.identifier, "b"⟩]

/-- Texts of select lists, and lines that two of them have. -/
theorem tokenize_select_lists :
    tokenize "select f(g(a) as b, 1) as c, d e, case when h then 'i' else 2" = ⟨nestedItems, none⟩ ∧
      tokenize (oneLine (nestedItems.map shout)) = ⟨nestedItems.map shout, none⟩ ∧
      tokenize "select count(a) b" = ⟨aliasedCall, none⟩ ∧
      tokenize "SELECT\n    COUNT(a)" = ⟨(aliasedCall.map shout).take 5, none⟩ ∧
      tokenize "select case when (a then b" = ⟨openCase, none⟩ ∧
      tokenize "SELECT\n    CASE\n        WHEN a THEN b" =
        ⟨(openCase.map shout).set 2 ⟨.whenWord, "WHEN"⟩, none⟩ ∧
      (openCase.map shout).set 2 ⟨.whenWord, "WHEN"⟩ ≠ openCase.map shout := by
  decide +kernel

theorem tokensOf_lines_select_iff_nested :
    tokensOf "select f(g(a) as b, 1) as c, d e, case when h then 'i' else 2" = .ok nestedItems ∧
      isTidy nestedItems = true ∧
      ∃ items styled, parse nestedItems = .ok [.selectClause "select" items] ∧
        style 0 [.selectClause "select" items] = .ok styled ∧
        tokensOf ("\n".intercalate styled.lines) = .ok (nestedItems.map shout) := by
  have htokens := tokensOf_of_tokenize tokenize_select_lists.1
  have hline := tokensOf_of_tokenize tokenize_select_lists.2.1
  have hparse : parse nestedItems = .ok [.selectClause "select"
      [.call "f" [.call "g" [.plain .identifier "a"] (some "as") (some "b"), .plain .number "1"]
          (some "as") (some "c"),
        .term ⟨.identifier, "d", some "e", none, none⟩,
        .caseOf "case" [.whenThen "when" "h" "then" "'i'", .otherwise "else" "2"]]] := rfl
  obtain ⟨styled, hstyled, hiff⟩ :=
    tokensOf_lines_select_iff 0 htokens rfl (by decide) (by decide) hparse
  exact ⟨htokens, by decide, _, styled, hparse, hstyled, hiff.mpr ⟨by decide, hline⟩⟩

/-- The alias of a call without its AS is lost, and so is a parenthesis behind the keyword of a case
expression. -/
theorem tokensOf_lines_select_lost :
    (∃ nodes styled, tokensOf "select count(a) b" = .ok aliasedCall ∧ isTidy aliasedCall = true ∧
      parse aliasedCall = .ok nodes ∧ style 0 nodes = .ok styled ∧
      styled.lines = ["SELECT", "    COUNT(a)"] ∧
      tokensOf ("\n".intercalate styled.lines) ≠ .ok (aliasedCall.map shout)) ∧
    ∃ nodes styled, tokensOf "select case when (a then b" = .ok openCase ∧ isTidy openCase = true ∧
      parse openCase = .ok nodes ∧ style 0 nodes = .ok styled ∧
      styled.lines = ["SELECT", "    CASE", "        WHEN a THEN b"] ∧
      tokensOf ("\n".intercalate styled.lines) ≠ .ok (openCase.map shout) := by
  obtain ⟨-, -, hcall, hcallLines, hcase, hcaseLines, hwords⟩ := tokenize_select_lists
  have hcallAgain : tokensOf ("\n".intercalate ["SELECT", "    COUNT(a)"]) =
      .ok ((aliasedCall.map shout).take 5) := tokensOf_of_tokenize hcallLines
  have hcaseAgain : tokensOf ("\n".intercalate ["SELECT", "    CASE", "        WHEN a THEN b"]) =
      .ok ((openCase.map shout).set 2 ⟨.whenWord, "WHEN"⟩) := tokensOf_of_tokenize hcaseLines
  refine ⟨⟨[.selectClause "select" [.call "count" [.plain .identifier "a"] none (some "b")]],
      ⟨["SELECT", "    COUNT(a)"], _⟩, tokensOf_of_tokenize hcall, rfl, rfl, rfl, rfl, ?_⟩,
    ⟨[.selectClause "select" [.caseOf "case" [.whenThen "when (" "a" "then" "b"]]],
      ⟨["SELECT", "    CASE", "        WHEN a THEN b"], _⟩, tokensOf_of_tokenize hcase, rfl, rfl, rfl,
      rfl, ?_⟩⟩
  · rw [hcallAgain]
    exact fun h ↦ absurd (congrArg List.length (Except.ok.inj h)) (by decide)
  · rw [hcaseAgain]
    exact fun h ↦ hwords (Except.ok.inj h)

end SqlLayout
