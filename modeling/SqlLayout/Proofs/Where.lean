import SqlLayout.Proofs.Layout.Tests
import SqlLayout.Proofs.RoundTrip

/-!
# What a WHERE clause keeps

A WHERE clause that is laid out is written with tokens of its own: an AND in every range, an IN in front of
every list.  The clause keeps its meaning exactly if these are the tokens that it was read from, up to upper
case.  That fails for a list behind another operator, which comes out as a membership test.
-/

namespace SqlLayout

open Text Token Read Spelling Layout

namespace Test

/-- Whether a token of a condition on plain values is the one that the layout writes in its place. -/
def keepsWord (token : Token) : Bool :=
  match token.kind with
  | .betweenWord => upper token.text = "BETWEEN"
  | .link => upper token.text = "AND"
  | _ => true

def alternate : List Token → Bool
  | [] => false
  | [value] => value.kind.isValue
  | value :: comma :: rest => value.kind.isValue && comma.kind = .comma && alternate rest

/-- Whether a condition is laid out as it was written: a range with its BETWEEN and AND, a list in
parentheses behind an IN, with its commas where they belong. -/
def isFaithful : Test → Bool
  | plain tokens => tokens.all keepsWord
  | member left op opening inner _ =>
    left.kind.isValue && op.kind = .inWord && opening.kind = .openParen && alternate inner

end Test

namespace Test

/-! ### Conditions on plain values -/

theorem laid_eq_shout_iff (token : Token) : token.laid = token.shout ↔ keepsWord token = true := by
  obtain ⟨kind, text⟩ := token
  cases kind with
  | betweenWord => simp [keepsWord, shout, Kind.isValue, eq_comm]
  | link => simp [keepsWord, shout, Kind.isValue, eq_comm]
  | _ => exact iff_of_true rfl rfl

theorem map_laid_eq_iff (tokens : List Token) :
    tokens.map Token.laid = tokens.map shout ↔ tokens.all keepsWord = true := by
  induction tokens with
  | nil => simp
  | cons token tokens ih => simp [laid_eq_shout_iff, ih]

/-! ### Lists of values -/

theorem listed_cons_cons (value next : Token) (values : List Token) :
    listed (value :: next :: values) = value :: comma :: listed (next :: values) := by
  simp [listed]

theorem exists_listed_cons (value : Token) (values : List Token) :
    ∃ more, listed (value :: values) = value :: more := by
  cases values with
  | nil => exact ⟨[closeParen], rfl⟩
  | cons next values => exact ⟨_, listed_cons_cons value next values⟩

/-- A list that alternates is laid out as it is. -/
theorem listed_of_alternate {inner : List Token} (hwords : AreWords inner)
    (h : alternate inner = true) :
    listed (inner.filter (·.kind.isValue)) = inner.map shout ++ [closeParen] := by
  induction inner using alternate.induct with
  | case1 => cases h
  | case2 value =>
    have hvalue : value.kind.isValue = true := h
    simp [hvalue, listed, shout_of_isValue hvalue]
  | case3 value separator rest ih =>
    simp only [alternate, Bool.and_eq_true, decide_eq_true_eq] at h
    obtain ⟨⟨hvalue, hcomma⟩, hrest⟩ := h
    have hseparator : separator.shout = comma := by
      rw [shout_of_isSign (hwords separator (by simp) (by simp [hcomma])) (by rw [hcomma]; rfl), hcomma]
      rfl
    have hnot : separator.kind.isValue = false := by rw [hcomma]; rfl
    have hrest := ih (fun token htoken ↦ hwords token (by simp [htoken])) hrest
    cases hvalues : rest.filter (·.kind.isValue) with
    | nil =>
      rw [hvalues] at hrest
      simp [listed] at hrest
    | cons next values =>
      simp [hvalue, hnot, hvalues, listed_cons_cons, ← hrest, shout_of_isValue hvalue, hseparator]

/-- Only a list that alternates is laid out as it is. -/
theorem alternate_of_listed {inner back other : List Token} {closing : Token}
    (hinner : inner.all isListed = true) (hclosing : closing.kind = .closeParen)
    (hback : ∀ next ∈ back.head?, next.kind = .link)
    (h : listed (inner.filter (·.kind.isValue)) ++ back = inner.map shout ++ closing.shout :: other) :
    alternate inner = true ∧ back = other := by
  -- What stands first on the right is no link.
  have hlink : ∀ {token : Token} {rest : List Token}, back = token.shout :: rest →
      token.kind ≠ .link → False := by
    rintro token rest rfl hkind
    exact hkind (by simpa using hback token.shout rfl)
  induction inner using alternate.induct with
  | case1 => exact (hlink h (by simp [hclosing])).elim
  | case2 value =>
    cases hvalue : value.kind.isValue with
    | true =>
      simp only [hvalue, List.filter_cons_of_pos, List.filter_nil, listed, List.isEmpty_cons,
        List.intersperse_singleton, List.map_cons, List.map_nil, Bool.false_eq_true, if_false,
        List.cons_append, List.nil_append, List.cons.injEq] at h
      exact ⟨hvalue, h.2.2⟩
    | false =>
      have hcomma : value.kind = .comma := by simpa [isListed, hvalue] using hinner
      simp only [hvalue, Bool.false_eq_true, not_false_eq_true, List.filter_cons_of_neg,
        List.filter_nil, listed, List.isEmpty_nil, if_true, List.nil_append, List.map_cons,
        List.cons_append] at h
      exact (hlink h (by simp [hcomma])).elim
  | case3 value separator rest ih =>
    simp only [List.all_cons, Bool.and_eq_true] at hinner
    obtain ⟨hfirst, hsecond, hrest⟩ := hinner
    have hmem : ∀ {token : Token}, token ∈ (separator :: rest).filter (·.kind.isValue) →
        token.kind.isValue = true := fun htoken ↦ (List.mem_filter.mp htoken).2
    cases hvalue : value.kind.isValue with
    | false =>
      have hcomma : value.kind = .comma := by simpa [isListed, hvalue] using hfirst
      rw [List.filter_cons_of_neg (by simp [hvalue])] at h
      cases hvalues : (separator :: rest).filter (·.kind.isValue) with
      | nil =>
        rw [hvalues] at h
        exact (hlink h (by simp [hcomma])).elim
      | cons next values =>
        obtain ⟨more, hmore⟩ := exists_listed_cons next values
        rw [hvalues, hmore] at h
        have hnext : next.kind = .comma := by
          rw [(List.cons.inj h).1, kind_shout, hcomma]
        have := hmem (hvalues ▸ List.mem_cons_self)
        rw [hnext] at this
        cases this
    | true =>
      rw [List.filter_cons_of_pos (by simp [hvalue])] at h
      cases hvalues : (separator :: rest).filter (·.kind.isValue) with
      | nil =>
        rw [hvalues] at h
        have hkind : separator.kind = .closeParen := by
          rw [← kind_shout, ← (List.cons.inj (List.cons.inj h).2).1]
          rfl
        simp [isListed, hkind, Kind.isValue] at hsecond
      | cons next values =>
        rw [hvalues, listed_cons_cons, ← hvalues] at h
        obtain ⟨hseparator, h⟩ := List.cons.inj (List.cons.inj h).2
        have hcomma : separator.kind = .comma := by
          rw [← kind_shout, ← hseparator]
          rfl
        rw [List.filter_cons_of_neg (by simp [hcomma, Kind.isValue])] at h
        obtain ⟨halternate, hother⟩ := ih hrest h
        exact ⟨by simp [alternate, hvalue, hcomma, halternate], hother⟩

/-! ### The tokens of a condition -/

theorem laid_of_isFaithful {test : Test} (hread : test.isRead = true) (hwords : AreWords test.tokens)
    (h : test.isFaithful = true) : test.laid = test.tokens.map shout := by
  cases test with
  | plain tokens => exact (map_laid_eq_iff tokens).mpr h
  | member left op opening inner closing =>
    simp only [Test.isRead, Bool.and_eq_true, decide_eq_true_eq] at hread
    simp only [isFaithful, Bool.and_eq_true, decide_eq_true_eq] at h
    obtain ⟨⟨⟨hleft, hop⟩, hopening⟩, halternate⟩ := h
    simp only [Test.tokens, AreWords, List.forall_mem_cons, List.forall_mem_append] at hwords
    obtain ⟨-, hop_word, hopening_word, hinner, hclosing_word, -⟩ := hwords
    have hin : op.shout = ⟨.inWord, "IN"⟩ := by
      rw [shout_of_isPlainKeyword (hop_word (by simp [hop])) (by rw [hop]; rfl), hop]
      rfl
    have hparen : opening.shout = openParen := by
      rw [shout_of_isSign (hopening_word (by simp [hopening])) (by rw [hopening]; rfl), hopening]
      rfl
    have hclosing : closing.shout = closeParen := by
      rw [shout_of_isSign (hclosing_word (by simp [hread.2])) (by rw [hread.2]; rfl), hread.2]
      rfl
    have hnot : left.kind ≠ .notWord := by
      intro hnot
      rw [hnot] at hleft
      cases hleft
    simp [laid, hnot, Test.tokens, shout_of_isValue hleft, hin, hparen, hclosing,
      listed_of_alternate hinner halternate]

/-- The tokens of a condition in front of others are those that it is laid out with exactly if it is laid
out as it was written. -/
theorem laid_append_eq_iff {test : Test} (hread : test.isRead = true) (hwords : AreWords test.tokens)
    {back : List Token} (other : List Token) (hback : ∀ next ∈ back.head?, next.kind = .link) :
    test.laid ++ back = test.tokens.map shout ++ other ↔ test.isFaithful = true ∧ back = other := by
  constructor
  · intro h
    cases test with
    | plain tokens =>
      obtain ⟨htokens, hother⟩ := List.append_inj h (by simp [laid, Test.tokens])
      exact ⟨(map_laid_eq_iff tokens).mp htokens, hother⟩
    | member left op opening inner closing =>
      simp only [Test.isRead, Bool.and_eq_true, Bool.or_eq_true, decide_eq_true_eq] at hread
      obtain ⟨⟨hleft, hinner⟩, hclosing⟩ := hread
      rw [laid] at h
      split at h
      · rename_i hnot
        have hhead := hback left.shout (by rw [← List.nil_append back, h]; rfl)
        rw [kind_shout, hnot] at hhead
        cases hhead
      · rename_i hnot
        obtain ⟨-, h⟩ := List.cons.inj h
        obtain ⟨hop, h⟩ := List.cons.inj h
        obtain ⟨hopening, h⟩ := List.cons.inj h
        obtain ⟨halternate, hother⟩ := alternate_of_listed hinner hclosing hback (by simpa using h)
        have hopKind : op.kind = .inWord := by rw [← kind_shout, ← hop]
        have hopeningKind : opening.kind = .openParen := by
          rw [← kind_shout, ← hopening]
          rfl
        exact ⟨by simp [isFaithful, hleft.resolve_right hnot, hopKind, hopeningKind, halternate],
          hother⟩
  · rintro ⟨hfaithful, rfl⟩
    rw [laid_of_isFaithful hread hwords hfaithful]

end Test

namespace LinkedTest

/-- Conditions are written with their own tokens exactly if each of them is laid out as it was
written. -/
theorem flatMap_laid_eq_iff {tests : List LinkedTest} (hread : tests.all isRead = true)
    (hlinks : tests.tail.all (·.link.isSome) = true)
    (hwords : ∀ linked ∈ tests, Test.AreWords linked.tokens) :
    tests.flatMap laid = (tests.flatMap tokens).map shout ↔
      tests.all (·.test.isFaithful) = true := by
  induction tests with
  | nil => simp
  | cons linked tests ih =>
    obtain ⟨link, test⟩ := linked
    simp only [List.all_cons, Bool.and_eq_true, isRead] at hread
    obtain ⟨hword, hmore⟩ := List.forall_mem_cons.mp hwords
    have hback : ∀ next ∈ (tests.flatMap laid).head?, next.kind = .link := by
      intro next hnext
      cases tests with
      | nil => cases hnext
      | cons second tests =>
        simp only [List.tail_cons, List.all_cons, Bool.and_eq_true] at hlinks
        obtain ⟨joint, hjoint⟩ := Option.isSome_iff_exists.mp hlinks.1
        simp only [List.all_cons, Bool.and_eq_true, isRead, hjoint, Option.all_some,
          decide_eq_true_eq] at hread
        simp only [List.flatMap_cons, laid, hjoint, Option.map_some, Option.toList_some,
          List.cons_append, List.head?_cons, Option.mem_def, Option.some.injEq] at hnext
        rw [← hnext, kind_shout, hread.2.1.1]
    have hlinks' : tests.tail.all (·.link.isSome) = true := by
      cases tests with
      | nil => rfl
      | cons second tests =>
        simp only [List.tail_cons, List.all_cons, Bool.and_eq_true] at hlinks
        exact hlinks.2
    have htest := Test.laid_append_eq_iff hread.1.2
      (fun token htoken ↦ hword token (List.mem_append_right _ htoken))
      ((tests.flatMap tokens).map shout) hback
    rw [ih hread.2 hlinks' hmore] at htest
    simp only [List.flatMap_cons, laid, tokens, List.map_append, List.append_assoc, List.all_cons,
      Bool.and_eq_true, ← htest]
    cases link with
    | none => simp
    | some link => simp

/-- The tokens of the conditions of a text are words. -/
theorem areWords_of_taken {tests : List LinkedTest} (hread : tests.all isRead = true)
    (h : Taken false (tests.flatMap tokens)) : ∀ linked ∈ tests, Test.AreWords linked.tokens := by
  induction tests with
  | nil => simp
  | cons linked tests ih =>
    obtain ⟨link, test⟩ := linked
    simp only [List.all_cons, Bool.and_eq_true, isRead] at hread
    rw [List.flatMap_cons, tokens, List.append_assoc] at h
    cases link with
    | none =>
      obtain ⟨hwords, hrest⟩ := Test.areWords_of_taken h hread.1.2
      exact List.forall_mem_cons.mpr ⟨hwords, ih hread.2 hrest⟩
    | some link =>
      have hkind : link.kind = .link := by simpa using hread.1.1
      obtain ⟨hwhole, h⟩ := Taken.isWhole_head h (by simp [hkind])
      rw [hkind, show (Kind.link == .insertWord) = false by decide] at h
      obtain ⟨hwords, hrest⟩ := Test.areWords_of_taken h hread.1.2
      exact List.forall_mem_cons.mpr
        ⟨List.forall_mem_cons.mpr ⟨fun _ ↦ hwhole, hwords⟩, ih hread.2 hrest⟩

end LinkedTest

/-! ### The clause -/

namespace Layout

theorem exists_of_bind_ok {α β : Type} {first : Draft α} {next : α → Draft β} {result : β}
    (h : (first >>= next).outcome = .ok result) :
    ∃ found, first.outcome = .ok found ∧ (next found).outcome = .ok result := by
  cases hfirst : first.outcome with
  | error fault =>
    rw [Draft.bind_of_error hfirst] at h
    cases h
  | ok found =>
    rw [Draft.bind_of_ok hfirst] at h
    exact ⟨found, rfl, h⟩

theorem condition_ne_link (indent : Int) {node found : Node}
    (h : (condition indent node).outcome = .ok found) (word : String) : node ≠ .link word := by
  rintro rfl
  simp [condition, Draft.fail] at h

/-- Conditions that are laid out do not end in a link. -/
theorem getLast?_ne_link (indent : Int) {nodes left : List Node}
    (h : (conditions indent nodes).outcome = .ok left) (word : String) :
    nodes.getLast? ≠ some (.link word) := by
  -- Behind a condition the rest is laid out as conditions again.
  have hstep : ∀ {node found : Node} {rest others : List Node}, rest.length < nodes.length →
      (condition indent node).outcome = .ok found → (conditions indent rest).outcome = .ok others →
      (node :: rest).getLast? ≠ some (.link word) := by
    intro node found rest others hlength hnode hrest
    cases rest with
    | nil => simpa using condition_ne_link indent hnode word
    | cons next rest =>
      rw [List.getLast?_cons_cons]
      exact getLast?_ne_link indent hrest word
  cases nodes with
  | nil => simp
  | cons node rest =>
    by_cases hlink : ∃ link, node = .link link
    · obtain ⟨link, rfl⟩ := hlink
      cases rest with
      | nil => simp [conditions, emit_bind, Draft.fail] at h
      | cons next rest =>
        rw [conditions, emit_bind] at h
        obtain ⟨found, hnext, h⟩ := exists_of_bind_ok h
        obtain ⟨others, hrest, -⟩ := exists_of_bind_ok h
        rw [List.getLast?_cons_cons]
        exact hstep (by simp only [List.length_cons]; omega) hnext hrest
    · rw [conditions_cons indent (fun link hnode ↦ hlink ⟨link, hnode⟩), emit_bind] at h
      obtain ⟨found, hnode, h⟩ := exists_of_bind_ok h
      obtain ⟨others, hrest, -⟩ := exists_of_bind_ok h
      exact hstep (by simp) hnode hrest
  termination_by nodes.length

theorem exists_of_style_ok (indent : Int) {nodes : List Node} {styled : Styled}
    (h : style indent nodes = .ok styled) :
    (statements indent nodes).outcome = .ok styled.tree := by
  obtain ⟨⟨tree, buffer⟩, hwrite, hstyled⟩ := bind_eq_ok.mp h
  cases hstyled
  unfold Draft.write at hwrite
  split at hwrite
  · cases hwrite
  · obtain ⟨found, hfound, hpair⟩ := map_eq_ok.mp hwrite
    cases hpair
    exact hfound

/-- The lines of a WHERE clause are written with the tokens of its conditions. -/
theorem exists_style_tests (indent : Int) (word : String) {tests : List LinkedTest}
    (hread : LinkedTest.areRead tests = true)
    (hwords : ∀ linked ∈ tests, Test.AreWords linked.tokens) :
    ∃ styled, style indent [.whereClause word (tests.flatMap LinkedTest.nodes)] = .ok styled ∧
      tokenize ("\n".intercalate styled.lines) =
        ⟨⟨.whereWord, "WHERE"⟩ :: tests.flatMap LinkedTest.laid, none⟩ := by
  have hend : AtLine false [] [] := ⟨.nil, rfl, by simp⟩
  have hall : tests.all LinkedTest.isRead = true := by
    simp only [LinkedTest.areRead, Bool.and_eq_true] at hread
    exact hread.1.1
  obtain ⟨⟨left, hleft⟩, hline⟩ := atLine_tests indent hall hwords hend.endLine
  rw [List.append_nil] at hline
  have hkeyword : AtLine false _ (⟨.whereWord, "WHERE"⟩ :: _) :=
    atLine_keyword indent false (isWhole_of_mem_ownWords (by decide)) rfl (by decide) hline
  have hdraft : statement indent (.whereClause word (tests.flatMap LinkedTest.nodes)) =
      ⟨.addLine (indentation indent ++ "WHERE") ::
          (conditions indent (tests.flatMap LinkedTest.nodes)).edits,
        .ok (.whereClause word left)⟩ := by
    simp [statement, emit_bind, Draft.bind_of_ok hleft]
  exact exists_style_of_atLine indent (statements_singleton indent hdraft) (by simp) hkeyword
    (LinkedTest.unglued_laid hread hwords)

end Layout

/-- The lines of a WHERE clause give its tokens again, up to upper case, exactly if each of its conditions
is laid out as it was written. -/
theorem tokensOf_lines_where_iff {sql word : String} {tokens : List Token} {nodes : List Node}
    {indent : Int} {styled : Styled} (htokens : tokensOf sql = .ok tokens)
    (hnodes : parse tokens = .ok [.whereClause word nodes])
    (hstyled : style indent [.whereClause word nodes] = .ok styled) :
    ∃ keyword tests, LinkedTest.areRead tests = true ∧
      tokens = keyword :: tests.flatMap LinkedTest.tokens ∧
      nodes = tests.flatMap LinkedTest.nodes ∧
      (tokensOf ("\n".intercalate styled.lines) = .ok (tokens.map shout) ↔
        tests.all (·.test.isFaithful) = true) := by
  have hlaid := exists_of_style_ok indent hstyled
  simp only [Layout.statements, statement, emit_bind] at hlaid
  obtain ⟨clause, hclause, -⟩ := exists_of_bind_ok hlaid
  obtain ⟨left, hleft, -⟩ := exists_of_bind_ok hclause
  obtain ⟨keyword, tests, hkind, hread, rfl, rfl⟩ :=
    exists_tests_of_parse hnodes (getLast?_ne_link indent hleft)
  refine ⟨keyword, tests, hread, rfl, rfl, ?_⟩
  have hareas := hread
  simp only [LinkedTest.areRead, Bool.and_eq_true] at hareas
  obtain ⟨hwhole, htaken⟩ := Taken.isWhole_head (taken_of_tokensOf htokens) (by simp [hkind])
  rw [hkind, show (Kind.whereWord == .insertWord) = false by decide] at htaken
  have hwords := LinkedTest.areWords_of_taken hareas.1.1 htaken
  obtain ⟨found, hfound, hcut⟩ := exists_style_tests indent word hread hwords
  obtain rfl : styled = found := by
    rw [hstyled] at hfound
    exact Except.ok.inj hfound
  have hwhere : keyword.shout = ⟨.whereWord, "WHERE"⟩ := by
    rw [shout_of_isPlainKeyword hwhole (by rw [hkind]; rfl), hkind]
    rfl
  rw [tokensOf_of_tokenize hcut, List.map_cons, hwhere, Except.ok.injEq, List.cons.injEq,
    LinkedTest.flatMap_laid_eq_iff hareas.1.1 hareas.2 hwords]
  simp

def rangedTokens : List Token :=
  [⟨.whereWord, "where"⟩, ⟨.identifier, "a"⟩, ⟨.inWord, "in"⟩, ⟨.openParen, "("⟩, ⟨.number, "1"⟩,
    ⟨.comma, ","⟩, ⟨.number, "2"⟩, ⟨.closeParen, ")"⟩, ⟨.link, "or"⟩, ⟨.identifier, "b"⟩,
    ⟨.betweenWord, "between"⟩, ⟨.number, "3"⟩, ⟨.link, "and"⟩, ⟨.number, "4"⟩, ⟨.link, "and"⟩,
    ⟨.notWord, "not"⟩, ⟨.identifier, "c"⟩, ⟨.compare, "like"⟩, ⟨.str, "'x'"⟩]

def rangedConditions : List Node :=
  [.condition [.plain .identifier "a", .operator "in", .group [.plain .number "1", .plain .number "2"]],
    .link "or",
    .condition [.plain .identifier "b", .between "between", .plain .number "3", .link "and",
      .plain .number "4"],
    .link "and",
    .condition [.not "not", .plain .identifier "c", .operator "like", .plain .str "'x'"]]

theorem tokensOf_lines_where_iff_ranged :
    tokensOf "where a in (1, 2) or b between 3 and 4 and not c like 'x'" = .ok rangedTokens ∧
      parse rangedTokens = .ok [.whereClause "where" rangedConditions] ∧
      ∃ styled, style 0 [.whereClause "where" rangedConditions] = .ok styled ∧
        styled.lines = ["WHERE", "    a IN (", "        1,", "        2)",
          "    OR b BETWEEN 3 AND 4", "    AND NOT c LIKE 'x'"] ∧
        ∃ keyword tests, LinkedTest.areRead tests = true ∧
          rangedTokens = keyword :: tests.flatMap LinkedTest.tokens ∧
          rangedConditions = tests.flatMap LinkedTest.nodes ∧
          (tokensOf ("\n".intercalate styled.lines) = .ok (rangedTokens.map shout) ↔
            tests.all (·.test.isFaithful) = true) := by
  have htokens : tokensOf "where a in (1, 2) or b between 3 and 4 and not c like 'x'" =
      .ok rangedTokens := tokensOf_of_tokenize (by decide +kernel)
  have hnodes : parse rangedTokens = .ok [.whereClause "where" rangedConditions] := rfl
  obtain ⟨styled, hstyled, hlines⟩ : ∃ styled,
      style 0 [.whereClause "where" rangedConditions] = .ok styled ∧
        styled.lines = ["WHERE", "    a IN (", "        1,", "        2)",
          "    OR b BETWEEN 3 AND 4", "    AND NOT c LIKE 'x'"] := ⟨⟨_, _⟩, rfl, rfl⟩
  exact ⟨htokens, hnodes, styled, hstyled, hlines, tokensOf_lines_where_iff htokens hnodes hstyled⟩

/-- A list behind an equals sign comes out as a membership test. -/
theorem tokensOf_lines_where_list_behind_equals :
    ∃ tokens nodes styled, tokensOf "where a = (1, 2)" = .ok tokens ∧
      parse tokens = .ok [.whereClause "where" nodes] ∧
      style 0 [.whereClause "where" nodes] = .ok styled ∧
      styled.lines = ["WHERE", "    a IN (", "        1,", "        2)"] ∧
      tokensOf ("\n".intercalate styled.lines) ≠ .ok (tokens.map shout) := by
  have hcut : tokenize "where a = (1, 2)" = ⟨[⟨.whereWord, "where"⟩, ⟨.identifier, "a"⟩,
      ⟨.compare, "="⟩, ⟨.openParen, "("⟩, ⟨.number, "1"⟩, ⟨.comma, ","⟩, ⟨.number, "2"⟩,
      ⟨.closeParen, ")"⟩], none⟩ := by decide +kernel
  have hagain : tokenize ("\n".intercalate ["WHERE", "    a IN (", "        1,", "        2)"]) =
      ⟨[⟨.whereWord, "WHERE"⟩, ⟨.identifier, "a"⟩, ⟨.inWord, "IN"⟩, ⟨.openParen, "("⟩,
        ⟨.number, "1"⟩, ⟨.comma, ","⟩, ⟨.number, "2"⟩, ⟨.closeParen, ")"⟩], none⟩ := by decide +kernel
  refine ⟨_, [.condition [.plain .identifier "a", .operator "=",
    .group [.plain .number "1", .plain .number "2"]]],
    ⟨["WHERE", "    a IN (", "        1,", "        2)"], _⟩, tokensOf_of_tokenize hcut, rfl, rfl, rfl, ?_⟩
  rw [tokensOf_of_tokenize hagain]
  exact fun h ↦ absurd (Except.ok.inj h) (by decide +kernel)

end SqlLayout
