import SqlLayout.Proofs.Read.Bounds
import SqlLayout.Proofs.Read.Completed

/-!
# The tokens of conditions

What the conditions of a WHERE clause are read from.  A condition on plain values takes the tokens of its
form.  A membership test takes an operand, two tokens that are not looked at, values and commas in any
order, and a parenthesis that closes.  All the tokens of a clause that is read to its end belong to its
conditions and to the links between them.
-/

namespace SqlLayout

open Read

inductive Test where
  /-- A condition on plain values. -/
  | plain (tokens : List Token)
  /-- A membership test, with the tokens between its parentheses. -/
  | member (left op opening : Token) (inner : List Token) (closing : Token)

namespace Test

def tokens : Test → List Token
  | plain tokens => tokens
  | member left op opening inner closing => left :: op :: opening :: (inner ++ [closing])

def node : Test → Node
  | plain tokens => .condition (tokens.map part)
  | member left op _ inner _ =>
    .condition [part left, .operator op.text, .group (inner.filterMap value?)]

def isListed (token : Token) : Bool :=
  token.kind.isValue || token.kind = .comma

def isRead : Test → Bool
  | plain tokens => conditionForms.any fun form ↦ fits form tokens && tokens.length = form.length
  | member left _ _ inner closing =>
    (left.kind.isValue || left.kind = .notWord) && inner.all isListed && closing.kind = .closeParen

end Test

structure LinkedTest where
  link : Option Token
  test : Test

namespace LinkedTest

def tokens (linked : LinkedTest) : List Token :=
  linked.link.toList ++ linked.test.tokens

def nodes (linked : LinkedTest) : List Node :=
  (linked.link.map fun link ↦ .link link.text).toList ++ [linked.test.node]

def isRead (linked : LinkedTest) : Bool :=
  linked.link.all (·.kind = .link) && linked.test.isRead

/-- Whether the tokens are read as the conditions of a clause, where only the first has no link. -/
def areRead (tests : List LinkedTest) : Bool :=
  tests.all isRead && tests.head?.all (·.link.isNone) && tests.tail.all (·.link.isSome)

end LinkedTest

theorem Kind.ne_of_isValue {kind : Kind} (h : kind.isValue = true) :
    kind ≠ .func ∧ kind ≠ .insertWord ∧ kind ≠ .openParen ∧ kind ≠ .notWord := by
  cases kind <;> simp_all [Kind.isValue]

inductive Plain : List Token → Prop
  | negated {left right : Token} {no op : String} :
      left.kind.isValue = true → right.kind.isValue = true →
      Plain [⟨.notWord, no⟩, left, ⟨.compare, op⟩, right]
  | between {left low high : Token} {word link : String} :
      left.kind.isValue = true → low.kind.isValue = true → high.kind.isValue = true →
      Plain [left, ⟨.betweenWord, word⟩, low, ⟨.link, link⟩, high]
  | comparison {left right : Token} {op : String} :
      left.kind.isValue = true → right.kind.isValue = true → Plain [left, ⟨.compare, op⟩, right]
  | isNull {left : Token} {word null : String} :
      left.kind.isValue = true → Plain [left, ⟨.isWord, word⟩, ⟨.nullWord, null⟩]
  | isNotNull {left : Token} {word no null : String} :
      left.kind.isValue = true → Plain [left, ⟨.isWord, word⟩, ⟨.notWord, no⟩, ⟨.nullWord, null⟩]

theorem fits_cons_iff {place : Kind → Bool} {form : List (Kind → Bool)} {tokens : List Token} :
    (fits (place :: form) tokens = true ∧ tokens.length = form.length + 1) ↔
      ∃ token rest, tokens = token :: rest ∧ place token.kind = true ∧
        fits form rest = true ∧ rest.length = form.length := by
  cases tokens with
  | nil => simp [fits]
  | cons token rest => simp [fits, and_assoc]

theorem plain_of_isRead {tokens : List Token} (h : (Test.plain tokens).isRead = true) :
    Plain tokens := by
  have hmk : ∀ {token : Token} {kind : Kind}, decide (token.kind = kind) = true →
      ∃ text, token = ⟨kind, text⟩ := by
    rintro ⟨_, text⟩ kind hkind
    exact ⟨text, congrArg (Token.mk · text) (of_decide_eq_true hkind)⟩
  simp only [Test.isRead, conditionForms, List.any_cons, List.any_nil, Bool.or_false, Bool.or_eq_true,
    Bool.and_eq_true, decide_eq_true_eq, List.length_cons, List.length_nil] at h
  rcases h with h | h | h | h | h
  · obtain ⟨_, _, rfl, hno, h⟩ := fits_cons_iff.mp h
    obtain ⟨left, _, rfl, hleft, h⟩ := fits_cons_iff.mp h
    obtain ⟨_, _, rfl, hop, h⟩ := fits_cons_iff.mp h
    obtain ⟨right, _, rfl, hright, -, hnil⟩ := fits_cons_iff.mp h
    obtain ⟨no, rfl⟩ := hmk hno
    obtain ⟨op, rfl⟩ := hmk hop
    obtain rfl := List.eq_nil_of_length_eq_zero hnil
    exact .negated hleft hright
  · obtain ⟨left, _, rfl, hleft, h⟩ := fits_cons_iff.mp h
    obtain ⟨_, _, rfl, hword, h⟩ := fits_cons_iff.mp h
    obtain ⟨low, _, rfl, hlow, h⟩ := fits_cons_iff.mp h
    obtain ⟨_, _, rfl, hlink, h⟩ := fits_cons_iff.mp h
    obtain ⟨high, _, rfl, hhigh, -, hnil⟩ := fits_cons_iff.mp h
    obtain ⟨word, rfl⟩ := hmk hword
    obtain ⟨link, rfl⟩ := hmk hlink
    obtain rfl := List.eq_nil_of_length_eq_zero hnil
    exact .between hleft hlow hhigh
  · obtain ⟨left, _, rfl, hleft, h⟩ := fits_cons_iff.mp h
    obtain ⟨_, _, rfl, hop, h⟩ := fits_cons_iff.mp h
    obtain ⟨right, _, rfl, hright, -, hnil⟩ := fits_cons_iff.mp h
    obtain ⟨op, rfl⟩ := hmk hop
    obtain rfl := List.eq_nil_of_length_eq_zero hnil
    exact .comparison hleft hright
  · obtain ⟨left, _, rfl, hleft, h⟩ := fits_cons_iff.mp h
    obtain ⟨_, _, rfl, hword, h⟩ := fits_cons_iff.mp h
    obtain ⟨_, _, rfl, hnull, -, hnil⟩ := fits_cons_iff.mp h
    obtain ⟨word, rfl⟩ := hmk hword
    obtain ⟨null, rfl⟩ := hmk hnull
    obtain rfl := List.eq_nil_of_length_eq_zero hnil
    exact .isNull hleft
  · obtain ⟨left, _, rfl, hleft, h⟩ := fits_cons_iff.mp h
    obtain ⟨_, _, rfl, hword, h⟩ := fits_cons_iff.mp h
    obtain ⟨_, _, rfl, hno, h⟩ := fits_cons_iff.mp h
    obtain ⟨_, _, rfl, hnull, -, hnil⟩ := fits_cons_iff.mp h
    obtain ⟨word, rfl⟩ := hmk hword
    obtain ⟨no, rfl⟩ := hmk hno
    obtain ⟨null, rfl⟩ := hmk hnull
    obtain rfl := List.eq_nil_of_length_eq_zero hnil
    exact .isNotNull hleft

namespace Read

variable {statements : List Token → Statements} {bound count : Nat} {tokens : List Token}
variable {node : Node} {nodes : List Node} {word : String}

/-! ### Membership tests -/

/-- A membership test takes an operand, two tokens that are not looked at, and what stands up to the
parenthesis that closes. -/
theorem readMembership_cases (h : readMembership statements tokens = .ok (node, count))
    (hwhole : node.isWhole = true) :
    ∃ left op opening inner closing more,
      tokens = left :: op :: opening :: (inner ++ closing :: more) ∧
      (left.kind.isValue = true ∨ left.kind = .notWord) ∧ inner.all Test.isListed = true ∧
      closing.kind = .closeParen ∧ count = inner.length + 4 ∧
      node = .condition [part left, .operator op.text, .group (inner.filterMap value?)] := by
  obtain ⟨left, op, inner, operand, found, taken, rfl, hoperand, hgroup, rfl, rfl⟩ := readMembership_eq_ok.mp h
  obtain ⟨rfl, hleft⟩ := readOperand_eq_ok hoperand
  rcases readGroup_cases hgroup with ⟨listed, closing, more, hdrop, hlisted, hclosing, rfl, rfl⟩ |
    ⟨-, query, less, counted, -, -, hquery⟩
  · cases inner with
    | nil => simp at hdrop
    | cons opening inner =>
      rw [List.drop_succ_cons, List.drop_zero] at hdrop
      subst hdrop
      exact ⟨left, op, opening, listed, closing, more, rfl, hleft, hlisted, hclosing, rfl, by simp⟩
  · obtain ⟨all, rfl⟩ := readGroup_of_subselect hquery
    have hpart := isConditionPart_of_isWhole hwhole (.subselect all) (by simp)
    cases hpart

theorem exists_test_of_readMembership (h : readMembership statements tokens = .ok (node, count))
    (hwhole : node.isWhole = true) :
    ∃ (test : Test) (more : List Token), test.isRead = true ∧ tokens = test.tokens ++ more ∧
      count = test.tokens.length ∧ node = test.node := by
  obtain ⟨left, op, opening, inner, closing, more, rfl, hleft, hinner, hclosing, rfl, rfl⟩ :=
    readMembership_cases h hwhole
  refine ⟨.member left op opening inner closing, more, ?_, by simp [Test.tokens], by simp [Test.tokens], rfl⟩
  simp only [Test.isRead, hinner, hclosing, Bool.and_true, decide_true, Bool.or_eq_true,
    decide_eq_true_eq]
  exact hleft

/-! ### Conditions -/

theorem fits_take {form : List (Kind → Bool)} (h : fits form tokens = true) :
    fits form (tokens.take form.length) = true := by
  induction form generalizing tokens with
  | nil => rfl
  | cons place form ih =>
    cases tokens with
    | nil => cases h
    | cons token rest =>
      rw [fits, Bool.and_eq_true] at h
      rw [List.length_cons, List.take_succ_cons, fits, h.1, ih h.2]
      rfl

theorem isWhole_of_readNegatedCall (h : readNegatedCall word tokens = .ok (node, count)) :
    node.isWhole = false := by
  obtain ⟨call, op, right, more, operand, hcall, -, -, rfl⟩ := readNegatedCall_eq_ok.mp h
  obtain ⟨name, paren, inner, args, counted, -, -, -, rfl, -⟩ := readCall_eq_ok.mp hcall
  rfl

theorem exists_test_of_readCondition {membership : Bool}
    (h : readCondition statements membership tokens = .ok (node, count)) (hwhole : node.isWhole = true) :
    ∃ (test : Test) (more : List Token), test.isRead = true ∧ tokens = test.tokens ++ more ∧
      count = test.tokens.length ∧ node = test.node := by
  rcases readCondition_cases h with hsimple | ⟨-, ⟨word, rest, -, -, hnegated⟩ | ⟨-, -, hmember⟩⟩
  · rw [simpleCondition?_eq] at hsimple
    obtain ⟨form, hform, hplain⟩ := List.exists_of_findSome?_eq_some hsimple
    unfold plainCondition? at hplain
    split at hplain
    · rename_i hfits
      cases hplain
      have hle := length_le_of_fits hfits
      refine ⟨.plain (tokens.take form.length), tokens.drop form.length, ?_, ?_, ?_, rfl⟩
      · simp only [Test.isRead, List.any_eq_true, Bool.and_eq_true, decide_eq_true_eq]
        exact ⟨form, hform, fits_take hfits, by rw [List.length_take, Nat.min_eq_left hle]⟩
      · rw [Test.tokens, List.take_append_drop]
      · rw [Test.tokens, List.length_take, Nat.min_eq_left hle]
    · cases hplain
  · rw [isWhole_of_readNegatedCall hnegated] at hwhole
    cases hwhole
  · exact exists_test_of_readMembership hmember hwhole

/-- Conditions that are read to their end, and do not end in a link, take all their tokens. -/
theorem exists_tests_of_readLinked {limit : Nat} (hstatements : Exhausts statements limit)
    (hlimit : tokens.length ≤ limit) {membership : Bool}
    (h : readLinked statements membership bound tokens = .ok (nodes, count)) (hne : tokens ≠ [])
    (hbound : tokens.length ≤ bound) (hstuck : ¬Stuck (tokens.drop count))
    (hlast : ∀ word, nodes.getLast? ≠ some (.link word)) :
    ∃ (first : Test) (more : List LinkedTest) (rest : List Token),
      first.isRead = true ∧ more.all LinkedTest.isRead = true ∧ more.all (·.link.isSome) = true ∧
      tokens = first.tokens ++ more.flatMap LinkedTest.tokens ++ rest ∧
      count = (first.tokens ++ more.flatMap LinkedTest.tokens).length ∧
      nodes = first.node :: more.flatMap LinkedTest.nodes := by
  induction bound generalizing tokens nodes count with
  | zero => exact absurd (List.eq_nil_of_length_eq_zero (Nat.le_zero.mp hbound)) hne
  | succ bound ih =>
    obtain ⟨condition, taken, hcondition, hwhole, hmore⟩ :=
      (readLinked_isWhole_or_stuck hstatements hlimit hne h).resolve_right hstuck
    obtain ⟨test, others, hread, htokens, rfl, rfl⟩ := exists_test_of_readCondition hcondition hwhole
    rw [htokens, List.drop_left] at hmore
    rcases hmore with ⟨word, more, nodes', count', rfl, hmore, rfl, rfl⟩ | ⟨rfl, rfl⟩
    · have hlength := congrArg List.length htokens
      simp only [List.length_cons, List.length_append] at hlength
      have hmore_ne : more ≠ [] := by
        rintro rfl
        cases bound <;> cases hmore <;> exact hlast word rfl
      have hstuck' : ¬Stuck (more.drop count') := by
        rwa [htokens, Nat.add_assoc, ← List.drop_drop, List.drop_left, Nat.add_comm,
          List.drop_succ_cons] at hstuck
      have hlast' : ∀ word, nodes'.getLast? ≠ some (.link word) := by
        intro word' hword
        cases nodes' with
        | nil => cases hword
        | cons node nodes' => exact hlast word' hword
      obtain ⟨first, parts, rest', hfirst, hparts, hlinks, rfl, rfl, rfl⟩ :=
        ih (by omega) hmore hmore_ne (by omega) hstuck' hlast'
      refine ⟨test, ⟨some ⟨.link, word⟩, first⟩ :: parts, rest', hread, ?_, ?_, ?_, ?_, ?_⟩
      · simp [LinkedTest.isRead, hfirst, hparts]
      · simp [hlinks]
      · rw [htokens]
        simp [LinkedTest.tokens]
      · simp [LinkedTest.tokens]
        omega
      · simp [LinkedTest.nodes]
    · exact ⟨test, [], others, hread, rfl, rfl, by rw [htokens]; simp, by simp, rfl⟩

/-! ### The clause -/

theorem readInsert_ne_whereClause : readInsert statements tokens ≠ .ok (.whereClause word nodes, count) := by
  intro h
  obtain ⟨_, _, _, _, _, _, -, -, -, hsource, -⟩ := readInsert_eq_ok.mp h
  rcases readSource_cases hsource with ⟨_, _, _, _, _, -, -, hnode, -⟩ | ⟨_, _, -, -, hnode, -⟩ |
    ⟨-, hnode, -⟩
  all_goals cases hnode

/-- A WHERE clause is read from a token of its own kind. -/
theorem kind_of_readStatement {token : Token} {rest : List Token}
    (h : readStatement statements (token :: rest) = .ok (.whereClause word nodes, count)) :
    token.kind = .whereWord := by
  unfold readStatement at h
  dsimp only at h
  split at h
  · obtain ⟨_, -, hfound⟩ := bind_eq_ok.mp h
    dsimp only at hfound
    split at hfound <;> cases hfound
  · obtain ⟨_, -, hfound⟩ := bind_eq_ok.mp h
    cases hfound
  · obtain ⟨_, _, _, _, _, -, -, -, hfound, -⟩ := readCall_eq_ok.mp h
    cases hfound
  · obtain ⟨_, -, hfound⟩ := bind_eq_ok.mp h
    cases hfound
  · exact absurd h readInsert_ne_whereClause
  · obtain ⟨_, _, _, hnode, -⟩ := exists_of_readLimit h
    cases hnode
  · obtain ⟨_, -, hfound⟩ := bind_eq_ok.mp h
    cases hfound
  · obtain ⟨_, -, hfound⟩ := bind_eq_ok.mp h
    cases hfound
  · cases h
  · assumption
  · cases h
  · cases h

theorem parse_eq_nil (h : parse tokens = .ok []) : tokens = [] := by
  cases tokens with
  | nil => rfl
  | cons token rest =>
    rw [parse_cons] at h
    obtain ⟨found, -, h⟩ := bind_eq_ok.mp h
    obtain ⟨nodes, -, hnodes⟩ := map_eq_ok.mp h
    cases hnodes

/-- The tokens of a WHERE clause that is read to its end are its keyword and those of its conditions. -/
theorem exists_tests_of_parse (h : parse tokens = .ok [.whereClause word nodes])
    (hlast : ∀ word, nodes.getLast? ≠ some (.link word)) :
    ∃ keyword tests, keyword.kind = .whereWord ∧ LinkedTest.areRead tests = true ∧
      tokens = keyword :: tests.flatMap LinkedTest.tokens ∧ nodes = tests.flatMap LinkedTest.nodes := by
  cases tokens with
  | nil => cases h
  | cons token rest =>
    rw [parse_cons] at h
    obtain ⟨⟨node, count⟩, hread, h⟩ := bind_eq_ok.mp h
    obtain ⟨others, hothers, hnodes⟩ := map_eq_ok.mp h
    obtain ⟨rfl, rfl⟩ := List.cons.inj hnodes
    have hkind := kind_of_readStatement hread
    have hall := parse_eq_nil hothers
    simp only [readStatement, hkind] at hread
    obtain ⟨⟨found, taken⟩, hlinked, hfound⟩ := bind_eq_ok.mp hread
    cases hfound
    rw [List.drop_succ_cons] at hall
    by_cases hne : rest = []
    · subst hne
      cases hlinked
      exact ⟨token, [], hkind, rfl, rfl, rfl⟩
    · have hstuck : ¬Stuck (rest.drop taken) := by
        rw [hall]
        rintro ⟨last, more, hcons, -⟩
        cases hcons
      obtain ⟨first, more, left, hfirst, hmore, hlinks, htokens, hcount, hnodes⟩ :=
        exists_tests_of_readLinked (statements_exhausts rest.length) (Nat.le_refl _) hlinked hne
          (Nat.le_refl _) hstuck hlast
      rw [hcount, htokens, List.drop_left] at hall
      subst hall
      exact ⟨token, ⟨none, first⟩ :: more, hkind,
        by simp [LinkedTest.areRead, LinkedTest.isRead, hfirst, hmore, hlinks],
        by rw [htokens]; simp [LinkedTest.tokens], by rw [hnodes]; simp [LinkedTest.nodes]⟩

end Read

end SqlLayout
