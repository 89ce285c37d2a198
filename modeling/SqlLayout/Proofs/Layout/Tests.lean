import SqlLayout.Proofs.Layout.Shown
import SqlLayout.Proofs.Layout.Statements
import SqlLayout.Proofs.Read.Tests
import SqlLayout.Proofs.Words.Firm
import SqlLayout.Proofs.Words.Keywords

/-!
# The layout of conditions

What the conditions of a WHERE clause are laid out with, whatever they were read from.  Inside a range
stand a BETWEEN and an AND, a membership test gets an IN, a parenthesis and its values with commas between
them, and one that has a NOT for its operand leaves nothing.
-/

namespace SqlLayout

open Text Token Read Spelling

def Token.laid (token : Token) : Token :=
  match token.kind with
  | .betweenWord => ⟨.betweenWord, "BETWEEN"⟩
  | .link => ⟨.link, "AND"⟩
  | _ => token.shout

@[simp] theorem Token.laid_betweenWord (text : String) :
    laid ⟨.betweenWord, text⟩ = ⟨.betweenWord, "BETWEEN"⟩ := rfl

@[simp] theorem Token.laid_link (text : String) : laid ⟨.link, text⟩ = ⟨.link, "AND"⟩ := rfl

@[simp] theorem Token.laid_compare (text : String) :
    laid ⟨.compare, text⟩ = ⟨.compare, upper text⟩ := rfl

@[simp] theorem Token.laid_notWord (text : String) :
    laid ⟨.notWord, text⟩ = ⟨.notWord, upper text⟩ := rfl

@[simp] theorem Token.laid_isWord (text : String) : laid ⟨.isWord, text⟩ = ⟨.isWord, upper text⟩ := rfl

@[simp] theorem Token.laid_nullWord (text : String) :
    laid ⟨.nullWord, text⟩ = ⟨.nullWord, upper text⟩ := rfl

namespace Test

def listed (values : List Token) : List Token :=
  if values.isEmpty then [] else values.intersperse comma ++ [closeParen]

def laid : Test → List Token
  | plain tokens => tokens.map Token.laid
  | member left _ _ inner _ =>
    if left.kind = .notWord then []
    else left :: ⟨.inWord, "IN"⟩ :: openParen :: listed (inner.filter (·.kind.isValue))

/-- Whether the tokens of a condition are words of a text.  The name of a function is one only with the
parenthesis behind it. -/
def AreWords (tokens : List Token) : Prop :=
  ∀ token ∈ tokens, token.kind ≠ .func → token.isWhole = true

end Test

def LinkedTest.laid (linked : LinkedTest) : List Token :=
  (linked.link.map shout).toList ++ linked.test.laid

/-! ### The tokens of a condition as words -/

namespace Token

variable {table : Bool} {token : Token} {rest : List Token}

theorem Taken.isWhole_head (h : Taken false (token :: rest)) (hfunc : token.kind ≠ .func) :
    token.isWhole = true ∧ Taken (token.kind == .insertWord) rest := by
  cases h with
  | word hwhole hrest => exact ⟨hwhole, by simpa using hrest⟩
  | call => exact absurd rfl hfunc

/-- A token is a word if no parenthesis is behind it. -/
theorem Taken.isWhole_of_next (h : Taken table (token :: rest))
    (hnext : ∀ next ∈ rest.head?, next.kind ≠ .openParen) :
    token.isWhole = true ∧ Taken (token.kind == .insertWord || table && !token.isReserved) rest := by
  cases h with
  | word hwhole hrest => exact ⟨hwhole, hrest⟩
  | call => exact absurd rfl (hnext _ rfl)
  | tableParen => exact absurd rfl (hnext _ rfl)

theorem isReserved_of_isSign (hwhole : token.isWhole = true) (hkind : token.kind.isSign = true) :
    token.isReserved = true := by
  obtain ⟨-, -, -, -, -, htoken⟩ := exists_of_isWhole hwhole
  simp [isReserved, ofWord?_of_ofWord htoken (.inr (.inl hkind))]

end Token

namespace Layout

def testWords : List Token :=
  [⟨.notWord, "NOT"⟩, ⟨.betweenWord, "BETWEEN"⟩, ⟨.link, "AND"⟩, ⟨.isWord, "IS"⟩,
    ⟨.nullWord, "NULL"⟩] ++ ("LIKE" :: comparisons).map fun op ↦ ⟨.compare, op⟩

def testSigns : List Token :=
  [comma, openParen, closeParen, ⟨.inWord, "IN"⟩, ⟨.whereWord, "WHERE"⟩, ⟨.link, "OR"⟩]

theorem isWhole_isFirm_of_mem_append : ∀ token ∈ testSigns ++ testWords,
    token.isWhole = true ∧ token.isFirm = true := by
  decide +kernel

end Layout

namespace Test

variable {rest : List Token}

theorem not_openParen_of_listed {inner : List Token} {closing : Token}
    (hinner : inner.all isListed = true) (hclosing : closing.kind = .closeParen) :
    ∀ next ∈ (inner ++ closing :: rest).head?, next.kind ≠ .openParen := by
  intro next hmem hkind
  cases inner with
  | nil =>
    obtain rfl := Option.some.inj hmem
    rw [hclosing] at hkind
    cases hkind
  | cons first inner =>
    obtain rfl := Option.some.inj hmem
    simp [isListed, hkind, Kind.isValue] at hinner

/-- The values and commas of a list are words, and so is the parenthesis behind them. -/
theorem areWords_of_listed {table : Bool} {inner : List Token} {closing : Token}
    (h : Taken table (inner ++ closing :: rest)) (hinner : inner.all isListed = true)
    (hclosing : closing.kind = .closeParen) :
    AreWords (inner ++ [closing]) ∧ Taken false rest := by
  induction inner generalizing table with
  | nil =>
    have hparts : closing.isWhole = true ∧ Taken false rest := by
      cases h with
      | word hwhole hrest =>
        have hreserved := isReserved_of_isSign hwhole (by rw [hclosing]; rfl)
        have hinsert : (Kind.closeParen == .insertWord) = false := by decide
        exact ⟨hwhole, by simpa [hreserved, hclosing, hinsert] using hrest⟩
      | call => cases hclosing
      | tableParen => cases hclosing
    refine ⟨?_, hparts.2⟩
    intro token htoken _
    rw [List.mem_singleton.mp htoken]
    exact hparts.1
  | cons token inner ih =>
    simp only [List.all_cons, Bool.and_eq_true] at hinner
    obtain ⟨hwhole, hrest⟩ := Taken.isWhole_of_next h (not_openParen_of_listed hinner.2 hclosing)
    obtain ⟨hwords, hrest'⟩ := ih hrest hinner.2
    exact ⟨List.forall_mem_cons.mpr ⟨fun _ ↦ hwhole, hwords⟩, hrest'⟩

/-- The tokens of a condition are words, and so are those behind it. -/
theorem areWords_of_taken {test : Test} (h : Taken false (test.tokens ++ rest))
    (hread : test.isRead = true) : AreWords test.tokens ∧ Taken false rest := by
  cases test with
  | plain tokens =>
    have hplain : ∀ token ∈ tokens, token.kind ≠ .func ∧ token.kind ≠ .insertWord := by
      cases plain_of_isRead hread <;> simp_all [Kind.ne_of_isValue]
    clear hread
    simp only [Test.tokens] at h ⊢
    induction tokens with
    | nil => exact ⟨by simp [AreWords], h⟩
    | cons token tokens ih =>
      obtain ⟨⟨hfunc, hinsert⟩, hplain⟩ := List.forall_mem_cons.mp hplain
      obtain ⟨hwhole, hrest⟩ := Taken.isWhole_head h hfunc
      rw [beq_false_of_ne hinsert] at hrest
      obtain ⟨hwords, hrest'⟩ := ih hrest hplain
      exact ⟨List.forall_mem_cons.mpr ⟨fun _ ↦ hwhole, hwords⟩, hrest'⟩
  | member left op opening inner closing =>
    simp only [Test.isRead, Bool.and_eq_true, Bool.or_eq_true, decide_eq_true_eq] at hread
    obtain ⟨⟨hleft, hinner⟩, hclosing⟩ := hread
    have hlist : (inner ++ [closing]) ++ rest = inner ++ closing :: rest := by simp
    simp only [Test.tokens, List.cons_append, hlist] at h ⊢
    have hkinds : left.kind ≠ .func ∧ left.kind ≠ .insertWord := by
      rcases hleft with hleft | hleft
      · exact ⟨(Kind.ne_of_isValue hleft).1, (Kind.ne_of_isValue hleft).2.1⟩
      · simp [hleft]
    obtain ⟨hwhole, h⟩ := Taken.isWhole_head h hkinds.1
    rw [beq_false_of_ne hkinds.2] at h
    -- The operator is a word, or the name of a function that takes the parenthesis along.
    cases h with
    | word hop h =>
      obtain ⟨hopening, h⟩ := Taken.isWhole_of_next h (not_openParen_of_listed hinner hclosing)
      obtain ⟨hwords, hrest⟩ := areWords_of_listed h hinner hclosing
      refine ⟨?_, hrest⟩
      simp only [AreWords, List.forall_mem_cons]
      exact ⟨fun _ ↦ hwhole, fun _ ↦ hop, fun _ ↦ hopening, hwords⟩
    | call hname h =>
      obtain ⟨hwords, hrest⟩ := areWords_of_listed h hinner hclosing
      refine ⟨?_, hrest⟩
      have hsign := Layout.isWhole_isFirm_of_mem_append openParen (by simp [Layout.testSigns])
      simp only [AreWords, List.forall_mem_cons]
      exact ⟨fun _ ↦ hwhole, fun hfunc ↦ absurd rfl hfunc, fun _ ↦ hsign.1, hwords⟩

theorem AreWords.upper_text {tokens : List Token} (h : AreWords tokens) (kind : Kind) {text : String}
    (htoken : ⟨kind, text⟩ ∈ tokens) (hkind : kind.isPlainKeyword = true) : upper text = kind.name := by
  have hwhole : isWhole ⟨kind, text⟩ = true := by
    refine h _ htoken ?_
    rintro rfl
    cases hkind
  exact upper_text_of_isPlainKeyword hwhole hkind

end Test

/-! ### The edits of a condition -/

namespace Layout

variable {edits : List Edit} {tokens : List Token} (indent : Int)
variable {token : Token} {ts values : List Token}

theorem exists_term_of_isValue (h : token.kind.isValue = true) :
    ∃ t : Term, part token = .term t ∧ t.isPlain = true ∧ termToken t = token := by
  obtain ⟨kind, text⟩ := token
  cases kind with
  | number => exact ⟨⟨.number, text, none, none, none⟩, rfl, rfl, rfl⟩
  | str => exact ⟨⟨.str, text, none, none, none⟩, rfl, rfl, rfl⟩
  | identifier => exact ⟨⟨.identifier, text, none, none, none⟩, rfl, rfl, rfl⟩
  | _ => cases h

theorem laid_of_isValue (h : token.kind.isValue = true) : token.laid = token := by
  obtain ⟨kind, text⟩ := token
  cases kind <;> first | rfl | cases h

theorem isWhole_isFirm_of_mem_testWords (h : token ∈ testWords) :
    token.isWhole = true ∧ token.isFirm = true :=
  isWhole_isFirm_of_mem_append token (List.mem_append_right _ h)

theorem laid_mem_testWords (hplain : Plain ts) (hwords : Test.AreWords ts) :
    ∀ token ∈ ts, token.kind.isValue = true ∨ token.laid ∈ testWords := by
  have hop : ∀ {op : String}, ⟨.compare, op⟩ ∈ ts → laid ⟨.compare, op⟩ ∈ testWords := by
    intro op htoken
    have hmem := upper_text_of_compare (hwords _ htoken (by simp)) rfl
    exact List.mem_append_right _ (List.mem_map_of_mem hmem)
  have hno : ∀ {text : String}, ⟨.notWord, text⟩ ∈ ts → laid ⟨.notWord, text⟩ ∈ testWords := by
    intro text htoken
    rw [laid_notWord, hwords.upper_text .notWord htoken rfl]
    decide
  have his : ∀ {text : String}, ⟨.isWord, text⟩ ∈ ts → laid ⟨.isWord, text⟩ ∈ testWords := by
    intro text htoken
    rw [laid_isWord, hwords.upper_text .isWord htoken rfl]
    decide
  have hnull : ∀ {text : String}, ⟨.nullWord, text⟩ ∈ ts → laid ⟨.nullWord, text⟩ ∈ testWords := by
    intro text htoken
    rw [laid_nullWord, hwords.upper_text .nullWord htoken rfl]
    decide
  cases hplain with
  | negated hleft hright =>
    simp only [List.forall_mem_cons]
    exact ⟨.inr (hno (by simp)), .inl hleft, .inr (hop (by simp)), .inl hright, by simp⟩
  | between hleft hlow hhigh =>
    simp only [List.forall_mem_cons]
    exact ⟨.inl hleft, .inr (by simp [testWords]), .inl hlow, .inr (by simp [testWords]), .inl hhigh,
      by simp⟩
  | comparison hleft hright =>
    simp only [List.forall_mem_cons]
    exact ⟨.inl hleft, .inr (hop (by simp)), .inl hright, by simp⟩
  | isNull hleft =>
    simp only [List.forall_mem_cons]
    exact ⟨.inl hleft, .inr (his (by simp)), .inr (hnull (by simp)), by simp⟩
  | isNotNull hleft =>
    simp only [List.forall_mem_cons]
    exact ⟨.inl hleft, .inr (his (by simp)), .inr (hno (by simp)), .inr (hnull (by simp)), by simp⟩

theorem isWhole_laid (hplain : Plain ts) (hwords : Test.AreWords ts) (htoken : token ∈ ts) :
    token.laid.isWhole = true ∧ token.laid.kind ≠ .func := by
  have hkinds : ∀ token ∈ testWords, token.kind ≠ .func := by decide
  rcases laid_mem_testWords hplain hwords token htoken with hvalue | hmem
  · rw [laid_of_isValue hvalue]
    have hkind := Kind.ne_of_isValue hvalue
    exact ⟨hwords token htoken hkind.1, hkind.1⟩
  · exact ⟨(isWhole_isFirm_of_mem_testWords hmem).1, hkinds _ hmem⟩

/-- A condition on plain values has the edits of a regular one with the tokens that it is laid out
with. -/
theorem exists_regular_of_plain (hplain : Plain ts) (hwords : Test.AreWords ts) :
    ∃ parts, Regular.Condition false (.condition parts) ∧
      conditionTokens (.condition parts) = ts.map Token.laid ∧
      notEdits parts = notEdits (ts.map part) ∧
      plainConditionEdits indent (detachNot parts) =
        plainConditionEdits indent (detachNot (ts.map part)) := by
  have hop : ∀ {op : String}, ⟨.compare, op⟩ ∈ ts → upper op ≠ "IN" := by
    intro op htoken hin
    have hmem := upper_text_of_compare (hwords _ htoken (by simp)) rfl
    rw [hin] at hmem
    exact absurd hmem (by decide)
  cases hplain with
  | @negated left right no op hleft hright =>
    obtain ⟨l, hl, hlplain, rfl⟩ := exists_term_of_isValue hleft
    obtain ⟨r, hr, hrplain, rfl⟩ := exists_term_of_isValue hright
    have hno : upper no = "NOT" := hwords.upper_text .notWord (by simp) rfl
    have hcompare : upper op ≠ "IN" := hop (by simp)
    refine ⟨_, .negated hno hcompare hlplain hrplain, ?_, rfl, by simp [detachNot, hl, hr]⟩
    simp [conditionTokens, partTokens, hcompare, laid_of_isValue hleft, laid_of_isValue hright]
  | @between left low high word link hleft hlow hhigh =>
    obtain ⟨l, hl, hlplain, rfl⟩ := exists_term_of_isValue hleft
    obtain ⟨m, hm, hmplain, rfl⟩ := exists_term_of_isValue hlow
    obtain ⟨r, hr, hrplain, rfl⟩ := exists_term_of_isValue hhigh
    have hword : upper "BETWEEN" = "BETWEEN" := by decide
    have hlink : upper "AND" = "AND" := by decide
    refine ⟨_, .between hword hlink hlplain hmplain hrplain, ?_, by simp [notEdits, hl], ?_⟩
    · simp [conditionTokens, partTokens, laid_of_isValue hleft, laid_of_isValue hlow,
        laid_of_isValue hhigh, hword, hlink]
    · simp [detachNot, hl, hm, hr, plainConditionEdits]
  | @comparison left right op hleft hright =>
    obtain ⟨l, hl, hlplain, rfl⟩ := exists_term_of_isValue hleft
    obtain ⟨r, hr, hrplain, rfl⟩ := exists_term_of_isValue hright
    have hcompare : upper op ≠ "IN" := hop (by simp)
    refine ⟨_, .comparison hcompare hlplain hrplain, ?_, by simp [notEdits], by simp [hl, hr]⟩
    simp [conditionTokens, partTokens, hcompare, laid_of_isValue hleft, laid_of_isValue hright]
  | @isNull left word null hleft =>
    obtain ⟨l, hl, hlplain, rfl⟩ := exists_term_of_isValue hleft
    have his : upper word = "IS" := hwords.upper_text .isWord (by simp) rfl
    have hnull : upper null = "NULL" := hwords.upper_text .nullWord (by simp) rfl
    refine ⟨_, .isNull his hnull hlplain, ?_, by simp [notEdits], by simp [hl]⟩
    simp [conditionTokens, partTokens, laid_of_isValue hleft]
  | @isNotNull left word no null hleft =>
    obtain ⟨l, hl, hlplain, rfl⟩ := exists_term_of_isValue hleft
    have his : upper word = "IS" := hwords.upper_text .isWord (by simp) rfl
    have hno : upper no = "NOT" := hwords.upper_text .notWord (by simp) rfl
    have hnull : upper null = "NULL" := hwords.upper_text .nullWord (by simp) rfl
    refine ⟨_, .isNotNull his hno hnull hlplain, ?_, by simp [notEdits, hl], by simp [hl]⟩
    simp [conditionTokens, partTokens, laid_of_isValue hleft]

theorem filterMap_value? (inner : List Token) :
    inner.filterMap value? = (inner.filter (·.kind.isValue)).map part := by
  induction inner with
  | nil => rfl
  | cons token inner ih =>
    cases hkind : token.kind.isValue with
    | true =>
      have hvalue : value? token = some (part token) := by simp [value?_eq, hkind]
      rw [List.filterMap_cons_some hvalue, ih, List.filter_cons, if_pos hkind, List.map_cons]
    | false =>
      have hvalue : value? token = none := by simp [value?_eq, hkind]
      rw [List.filterMap_cons_none hvalue, ih, List.filter_cons, if_neg (by simp [hkind])]

theorem separated_plainTokens (hvalues : values.all (·.kind.isValue) = true) :
    separated plainTokens (values.map part) = values.intersperse comma := by
  induction values with
  | nil => rfl
  | cons token values ih =>
    simp only [List.all_cons, Bool.and_eq_true] at hvalues
    obtain ⟨t, ht, -, rfl⟩ := exists_term_of_isValue hvalues.1
    rw [List.map_cons, separated, ih hvalues.2, ht]
    cases values with
    | nil => rfl
    | cons next values => simp [plainTokens, Spelling.commaBefore]

theorem mem_intersperse (h : token ∈ values.intersperse comma) : token = comma ∨ token ∈ values := by
  induction values with
  | nil => cases h
  | cons first values ih =>
    cases values with
    | nil => exact .inr h
    | cons next values =>
      rw [List.intersperse_cons_cons] at h
      rcases List.mem_cons.mp h with rfl | h
      · exact .inr List.mem_cons_self
      · rcases List.mem_cons.mp h with rfl | h
        · exact .inl rfl
        · exact (ih h).imp_right (List.mem_cons_of_mem _)

theorem inside_listed {left : Term} (op : String) (hleft : (termToken left).isSound = true)
    (hvalues : values.all (·.kind.isValue) = true) (hwhole : ∀ token ∈ values, token.isWhole = true)
    (h : AtLine false edits tokens) :
    Inside (plainConditionEdits indent [.term left, .operator op, .group (values.map part)] ++
        .endLine :: edits)
      (termToken left :: ⟨.inWord, "IN"⟩ :: openParen :: (Test.listed values ++ tokens)) := by
  -- What the values are written with, from the line behind the parenthesis on.
  have hlist : AtLine false (groupEdits indent (values.map part) ++ .endLine :: edits)
      (Test.listed values ++ tokens) := by
    cases values with
    | nil => exact h.endLine
    | cons first values =>
      have hterms : ((first :: values).map part).all Regular.isPlainTerm = true := by
        simp only [List.all_map, List.all_eq_true] at hvalues ⊢
        intro token htoken
        obtain ⟨t, ht, hplain, -⟩ := exists_term_of_isValue (hvalues token htoken)
        simpa [ht, Regular.isPlainTerm] using hplain
      have hgroup := atLine_group indent (by simp) hterms (fun token htoken ↦ by
        rw [separated_plainTokens hvalues] at htoken
        rcases mem_intersperse htoken with rfl | hmem
        · exact isSound_of_isWhole
            (isWhole_isFirm_of_mem_append comma (List.mem_append_left _ List.mem_cons_self)).1
        · have hkind := (List.all_eq_true.mp hvalues) token hmem
          exact isSound_of_isWhole (hwhole token hmem)) h.endLine
      rw [separated_plainTokens hvalues] at hgroup
      simpa [Test.listed] using hgroup
  have hin := Inside.inParen (Behind.endLine hlist).toInside
  have hterm := Inside.term hleft (.space hin (by simp [openParen]))
  exact hterm.of_text (by simp [plainConditionEdits]) (by simp [plainConditionEdits])

theorem part_ne_subselect (token : Token) (query : List Node) : .subselect query ≠ part token := by
  obtain ⟨kind, text⟩ := token
  intro h
  cases kind <;> cases h

/-- A condition is laid out and written with its tokens. -/
theorem inside_test {test : Test} (hread : test.isRead = true) (hwords : Test.AreWords test.tokens)
    (h : AtLine false edits tokens) :
    (∃ left, (condition indent test.node).outcome = .ok left) ∧
      Inside ((condition indent test.node).edits ++ edits) (test.laid ++ tokens) := by
  cases test with
  | plain ts =>
    obtain ⟨parts, hparts, htokens, hnot, hedits⟩ :=
      exists_regular_of_plain indent (plain_of_isRead hread) hwords
    have hsound : ∀ token ∈ conditionTokens (.condition parts), token.isSound = true := by
      rw [htokens]
      intro token htoken
      obtain ⟨source, hsource, rfl⟩ := List.mem_map.mp htoken
      obtain ⟨hwhole, hfunc⟩ := isWhole_laid (plain_of_isRead hread) hwords hsource
      exact isSound_of_isWhole hwhole
    have hinside := inside_conditionEdits indent hparts hsound h
    rw [htokens, hnot, hedits] at hinside
    have hquery : ∀ query, .subselect query ∉ ts.map part := by
      intro query hmem
      obtain ⟨token, -, htoken⟩ := List.mem_map.mp hmem
      exact part_ne_subselect token query htoken.symm
    rw [Test.node, condition_of_no_query hquery]
    exact ⟨⟨_, rfl⟩, by simpa [Test.laid] using hinside⟩
  | member left op opening inner closing =>
    simp only [Test.isRead, Bool.and_eq_true, Bool.or_eq_true, decide_eq_true_eq] at hread
    obtain ⟨⟨hleft, hinner⟩, hclosing⟩ := hread
    simp only [Test.tokens, Test.AreWords, List.forall_mem_cons, List.forall_mem_append] at hwords
    obtain ⟨hleft_word, -, -, hinner_words, -⟩ := hwords
    rw [Test.node, condition_of_no_query (by simp [part_ne_subselect]), filterMap_value?]
    refine ⟨⟨_, rfl⟩, ?_⟩
    rcases hleft with hvalue | hnot
    · obtain ⟨t, ht, -, rfl⟩ := exists_term_of_isValue hvalue
      have hkind := Kind.ne_of_isValue hvalue
      have hvalues : (inner.filter (·.kind.isValue)).all (·.kind.isValue) = true := by simp
      have hlisted := inside_listed indent op.text
        (isSound_of_isWhole (hleft_word hkind.1)) hvalues (fun token htoken ↦ by
          rw [List.mem_filter] at htoken
          exact hinner_words token htoken.1 (Kind.ne_of_isValue htoken.2).1) h
      have hne : (termToken t).kind ≠ .notWord := by
        intro hnot
        rw [hnot] at hvalue
        cases hvalue
      simpa [Test.laid, hne, ht, notEdits, detachNot] using hlisted
    · obtain ⟨kind, text⟩ := left
      dsimp only at hnot
      subst hnot
      have hend := (Behind.endLine h).toInside
      simpa [Test.laid, notEdits, detachNot, plainConditionEdits] using hend

theorem noParen_laid {test : Test} (hread : test.isRead = true) (hwords : Test.AreWords test.tokens)
    (h : tokens.head? ≠ some openParen) : (test.laid ++ tokens).head? ≠ some openParen := by
  cases test with
  | plain ts =>
    cases hts : ts with
    | nil => exact h
    | cons token rest =>
      subst hts
      have hparen : openParen ∉ testWords := by decide
      rcases laid_mem_testWords (plain_of_isRead hread) hwords token List.mem_cons_self with
        hvalue | hmem
      · simpa [Test.laid, laid_of_isValue hvalue] using
          ne_openParen (Kind.ne_of_isValue hvalue).2.2.1
      · intro hhead
        exact hparen (Option.some.inj hhead ▸ hmem)
  | member left op opening inner closing =>
    simp only [Test.isRead, Bool.and_eq_true, Bool.or_eq_true, decide_eq_true_eq] at hread
    rw [Test.laid]
    split
    · exact h
    · rename_i hnot
      simpa using ne_openParen (Kind.ne_of_isValue (hread.1.1.resolve_right hnot)).2.2.1

theorem isWhole_isFirm_link {link : Token} (hwhole : link.isWhole = true) (hkind : link.kind = .link) :
    link.shout.isWhole = true ∧ link.shout.isFirm = true ∧ link.shout = ⟨.link, upper link.text⟩ := by
  have hall : ∀ word ∈ ["AND", "OR"], isWhole ⟨.link, word⟩ = true ∧ isFirm ⟨.link, word⟩ = true :=
    List.forall_mem_cons.mpr ⟨isWhole_isFirm_of_mem_append _ (by simp [testWords]),
      List.forall_mem_singleton.mpr (isWhole_isFirm_of_mem_append _ (by simp [testSigns]))⟩
  have hshout : link.shout = ⟨.link, upper link.text⟩ := by simp [shout, hkind, Kind.isValue]
  obtain ⟨hwhole', hfirm⟩ := hall _ (upper_text_of_link hwhole hkind)
  exact ⟨hshout ▸ hwhole', hshout ▸ hfirm, hshout⟩

/-- Conditions and their links are laid out and written with their tokens. -/
theorem atLine_tests {tests : List LinkedTest} (hread : tests.all LinkedTest.isRead = true)
    (hwords : ∀ linked ∈ tests, Test.AreWords linked.tokens) (h : AtLine false edits tokens) :
    (∃ left, (conditions indent (tests.flatMap LinkedTest.nodes)).outcome = .ok left) ∧
      AtLine false ((conditions indent (tests.flatMap LinkedTest.nodes)).edits ++ edits)
        (tests.flatMap LinkedTest.laid ++ tokens) := by
  induction tests with
  | nil => exact ⟨⟨[], by simp [conditions]⟩, by simpa [conditions] using h⟩
  | cons linked tests ih =>
    obtain ⟨link, test⟩ := linked
    simp only [List.all_cons, Bool.and_eq_true, LinkedTest.isRead] at hread
    obtain ⟨⟨hlink, hread⟩, hmore⟩ := hread
    obtain ⟨hword, hwords⟩ := List.forall_mem_cons.mp hwords
    obtain ⟨⟨others, hothers⟩, hline⟩ := ih hmore hwords
    have htest : Test.AreWords test.tokens := fun token htoken ↦
      hword token (List.mem_append_right _ htoken)
    obtain ⟨⟨left, hleft⟩, hinside⟩ := inside_test indent hread htest hline
    have hparen := noParen_laid hread htest hline.noParen
    cases link with
    | none =>
      have hdraft : conditions indent (test.node :: tests.flatMap LinkedTest.nodes) =
          ⟨.add (indentation (indent + 1)) :: ((condition indent test.node).edits ++
            (conditions indent (tests.flatMap LinkedTest.nodes)).edits), .ok (left :: others)⟩ := by
        have hne : ∀ word, test.node ≠ .link word := by
          intro word
          cases test <;> simp [Test.node]
        rw [conditions_cons indent hne]
        simp [emit_bind, Draft.bind_of_ok hleft, Draft.bind_of_ok hothers]
      have hall := AtLine.of_inside (hinside.blank (isBlank_indentation (indent + 1))) hparen
      simp only [List.flatMap_cons, LinkedTest.nodes, LinkedTest.laid, Option.map_none,
        Option.toList_none, List.nil_append, List.cons_append, hdraft]
      exact ⟨⟨_, rfl⟩, by simpa using hall⟩
    | some link =>
      have hkind : link.kind = .link := by simpa using hlink
      have hwhole := hword link (by simp [LinkedTest.tokens]) (by simp [hkind])
      obtain ⟨hsound, -, hshout⟩ := isWhole_isFirm_link hwhole hkind
      have hdraft : conditions indent (.link link.text :: test.node ::
            tests.flatMap LinkedTest.nodes) =
          ⟨.add (indentation (indent + 1)) :: .add (upper link.text ++ " ") ::
            ((condition indent test.node).edits ++
              (conditions indent (tests.flatMap LinkedTest.nodes)).edits),
            .ok (.link link.text :: left :: others)⟩ := by
        simp [conditions, emit_bind, Draft.bind_of_ok hleft, Draft.bind_of_ok hothers]
      rw [hshout] at hsound
      have hall := atLine_link (indent + 1) link.text (isSound_of_isWhole hsound) hinside
        hparen
      simp only [List.flatMap_cons, LinkedTest.nodes, LinkedTest.laid, Option.map_some,
        Option.toList_some, List.cons_append, List.nil_append, hdraft, hshout]
      exact ⟨⟨_, rfl⟩, by simpa using hall⟩

end Layout

/-! ### No phrase runs on -/

namespace Test

open Layout

variable {rest : List Token}

theorem isWhole_isFirm_signs : ∀ token ∈ [comma, openParen, closeParen, ⟨.inWord, "IN"⟩,
    ⟨.whereWord, "WHERE"⟩], token.isWhole = true ∧ token.isFirm = true :=
  fun token htoken ↦ isWhole_isFirm_of_mem_append token (List.mem_append_left testWords
    (show token ∈ testSigns from List.mem_append_left [(⟨.link, "OR"⟩ : Token)] htoken))

theorem isWhole_of_mem_listed {values : List Token} (hvalues : ∀ token ∈ values, token.isWhole = true) :
    ∀ token ∈ listed values, token.isWhole = true := by
  intro token htoken
  unfold listed at htoken
  split at htoken
  · cases htoken
  · rcases List.mem_append.mp htoken with hmem | hmem
    · rcases mem_intersperse hmem with rfl | hmem
      · exact (isWhole_isFirm_signs _ (by simp)).1
      · exact hvalues token hmem
    · rw [List.mem_singleton.mp hmem]
      exact (isWhole_isFirm_signs _ (by simp)).1

theorem isWhole_of_mem_laid {test : Test} (hread : test.isRead = true) (hwords : AreWords test.tokens) :
    ∀ token ∈ test.laid, token.isWhole = true := by
  cases test with
  | plain ts =>
    intro token htoken
    obtain ⟨source, hsource, rfl⟩ := List.mem_map.mp htoken
    exact (isWhole_laid (plain_of_isRead hread) hwords hsource).1
  | member left op opening inner closing =>
    simp only [Test.isRead, Bool.and_eq_true, Bool.or_eq_true, decide_eq_true_eq] at hread
    rw [laid]
    split
    · simp
    · rename_i hnot
      have hvalues : ∀ token ∈ inner.filter (·.kind.isValue), token.isWhole = true := by
        intro token htoken
        rw [List.mem_filter] at htoken
        exact hwords token (by simp [Test.tokens, htoken.1]) (Kind.ne_of_isValue htoken.2).1
      simp only [List.forall_mem_cons]
      exact ⟨hwords left List.mem_cons_self
          (Kind.ne_of_isValue (hread.1.1.resolve_right hnot)).1,
        (isWhole_isFirm_signs _ (by simp)).1, (isWhole_isFirm_signs _ (by simp)).1,
        isWhole_of_mem_listed hvalues⟩

theorem areSpread_listed (values : List Token) (h : areSpread rest = true) :
    areSpread (listed values ++ rest) = true := by
  have hclose : areSpread (closeParen :: rest) = true :=
    areSpread_cons_of_isFirm (isWhole_isFirm_signs _ (by simp)).2 h
  have hcomma : comma.isFirm = true := (isWhole_isFirm_signs _ (by simp)).2
  have hall : values ≠ [] → areSpread (values.intersperse comma ++ closeParen :: rest) = true := by
    induction values with
    | nil => exact fun hne ↦ absurd rfl hne
    | cons value values ih =>
      intro _
      cases values with
      | nil => exact areSpread_cons_of_head (by simpa using (isWhole_isFirm_signs _ (by simp)).2) hclose
      | cons next values =>
        exact areSpread_cons_of_head (by simpa using hcomma)
          (areSpread_cons_of_isFirm hcomma (ih (by simp)))
  unfold listed
  split
  · exact h
  · rename_i hne
    simpa using hall (by simpa using hne)

/-- In the layout of a condition every second token is firm. -/
theorem areSpread_laid {test : Test} (hread : test.isRead = true) (hwords : AreWords test.tokens)
    (hhead : ∀ next ∈ rest.head?, next.isFirm = true) (h : areSpread rest = true) :
    areSpread (test.laid ++ rest) = true := by
  have hlast : ∀ token, areSpread (token :: rest) = true := fun token ↦
    areSpread_cons_of_head hhead h
  cases test with
  | plain ts =>
    have hplain := plain_of_isRead hread
    have hmem := laid_mem_testWords hplain hwords
    have hfirm : ∀ (kind : Kind) (text : String), ⟨kind, text⟩ ∈ ts → kind.isValue = false →
        (Token.laid ⟨kind, text⟩).isFirm = true := by
      intro kind text htoken hkind
      rcases hmem _ htoken with hvalue | hmem
      · rw [hkind] at hvalue
        cases hvalue
      · exact (isWhole_isFirm_of_mem_testWords hmem).2
    cases hplain with
    | @negated left right no op =>
      have hop := hfirm .compare op (by simp) rfl
      have hno := hfirm .notWord no (by simp) rfl
      exact areSpread_cons_of_isFirm hno (areSpread_cons_of_head (by simpa using hop)
        (areSpread_cons_of_isFirm hop (hlast _)))
    | @between left low high word link =>
      have hword := hfirm .betweenWord word (by simp) rfl
      have hlink := hfirm .link link (by simp) rfl
      exact areSpread_cons_of_head (by simpa using hword) (areSpread_cons_of_isFirm hword
        (areSpread_cons_of_head (by simpa using hlink) (areSpread_cons_of_isFirm hlink (hlast _))))
    | @comparison left right op =>
      have hop := hfirm .compare op (by simp) rfl
      exact areSpread_cons_of_head (by simpa using hop) (areSpread_cons_of_isFirm hop (hlast _))
    | @isNull left word null =>
      have hword := hfirm .isWord word (by simp) rfl
      exact areSpread_cons_of_head (by simpa using hword)
        (areSpread_cons_of_isFirm hword (hlast _))
    | @isNotNull left word no null =>
      have hword := hfirm .isWord word (by simp) rfl
      have hno := hfirm .notWord no (by simp) rfl
      exact areSpread_cons_of_head (by simpa using hword) (areSpread_cons_of_isFirm hword
        (areSpread_cons_of_isFirm hno (hlast _)))
  | member left op opening inner closing =>
    rw [laid]
    split
    · exact h
    · have hin : isFirm ⟨.inWord, "IN"⟩ = true := (isWhole_isFirm_signs _ (by simp)).2
      have hparen : openParen.isFirm = true := (isWhole_isFirm_signs _ (by simp)).2
      exact areSpread_cons_of_head (by simpa using hin) (areSpread_cons_of_isFirm hin
        (areSpread_cons_of_isFirm hparen (areSpread_listed _ h)))

end Test

namespace LinkedTest

open Layout

theorem areSpread_laid {tests : List LinkedTest} (hread : tests.all isRead = true)
    (hlinks : tests.all (·.link.isSome) = true)
    (hwords : ∀ linked ∈ tests, Test.AreWords linked.tokens) :
    areSpread (tests.flatMap laid) = true ∧
      ∀ next ∈ (tests.flatMap laid).head?, next.isFirm = true := by
  induction tests with
  | nil => simp [areSpread]
  | cons linked tests ih =>
    obtain ⟨link, test⟩ := linked
    simp only [List.all_cons, Bool.and_eq_true, isRead] at hread hlinks
    obtain ⟨link, rfl⟩ := Option.isSome_iff_exists.mp hlinks.1
    obtain ⟨hword, hmore⟩ := List.forall_mem_cons.mp hwords
    obtain ⟨hspread, hhead⟩ := ih hread.2 hlinks.2 hmore
    have hkind : link.kind = .link := by simpa using hread.1.1
    obtain ⟨-, hfirm, -⟩ :=
      isWhole_isFirm_link (hword link (by simp [tokens]) (by simp [hkind])) hkind
    have htest := Test.areSpread_laid hread.1.2
      (fun token htoken ↦ hword token (List.mem_append_right _ htoken)) hhead hspread
    simp only [List.flatMap_cons, laid, Option.map_some, Option.toList_some, List.cons_append,
      List.nil_append]
    exact ⟨areSpread_cons_of_isFirm hfirm htest, by simpa using hfirm⟩

theorem isWhole_of_mem_laid {linked : LinkedTest} (hread : linked.isRead = true)
    (hwords : Test.AreWords linked.tokens) : ∀ token ∈ linked.laid, token.isWhole = true := by
  obtain ⟨link, test⟩ := linked
  simp only [isRead, Bool.and_eq_true] at hread
  have htest := Test.isWhole_of_mem_laid hread.2 fun token htoken ↦
    hwords token (List.mem_append_right _ htoken)
  cases link with
  | none => exact htest
  | some link =>
    have hkind : link.kind = .link := by simpa using hread.1
    have hlink := isWhole_isFirm_link (hwords link (by simp [tokens]) (by simp [hkind])) hkind
    exact List.forall_mem_cons.mpr ⟨hlink.1, htest⟩

/-- The tokens of a clause are laid out with no phrase that runs on. -/
theorem unglued_laid {tests : List LinkedTest} (hread : areRead tests = true)
    (hwords : ∀ linked ∈ tests, Test.AreWords linked.tokens) :
    unglued (⟨.whereWord, "WHERE"⟩ :: tests.flatMap laid) = true := by
  simp only [areRead, Bool.and_eq_true] at hread
  obtain ⟨hwhere, hfirm⟩ := Test.isWhole_isFirm_signs ⟨.whereWord, "WHERE"⟩ (by simp)
  refine unglued_of_areSpread (List.forall_mem_cons.mpr ⟨hwhere, ?_⟩)
    (areSpread_cons_of_isFirm hfirm ?_)
  · intro token htoken
    obtain ⟨linked, hlinked, hmem⟩ := List.mem_flatMap.mp htoken
    exact isWhole_of_mem_laid (List.all_eq_true.mp hread.1.1 linked hlinked) (hwords linked hlinked)
      token hmem
  · cases tests with
    | nil => rfl
    | cons first tests =>
      obtain ⟨link, test⟩ := first
      obtain ⟨hfirst, hmore⟩ := List.forall_mem_cons.mp hwords
      simp only [List.all_cons, Bool.and_eq_true, isRead, List.head?_cons, Option.all_some,
        List.tail_cons, Option.isNone_iff_eq_none] at hread
      obtain ⟨⟨⟨⟨-, htest⟩, hread⟩, rfl⟩, hlinks⟩ := hread
      obtain ⟨hspread, hhead⟩ := areSpread_laid hread hlinks hmore
      exact Test.areSpread_laid htest hfirst hhead hspread

end LinkedTest

end SqlLayout
