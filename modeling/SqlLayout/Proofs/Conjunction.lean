import SqlLayout.Proofs.Conditions

/-!
# Conditions in front of a link

Two lists of conditions, each read to its end, can be joined by a link.  The second is then read as it is
alone, with one exception: whether there may be membership tests is decided where the first one starts.  The
first is read as it is alone unless it ends in a NOT and a short call, which with more tokens behind it is
taken for the comparison of a negated call.
-/

namespace SqlLayout

open Read Token

/-- Whether tokens end in a NOT, a function and at most three tokens more, at the front or behind a
link. -/
def EndsInNegation (tokens : List Token) : Prop :=
  ∃ front no name more, tokens = front ++ ⟨.notWord, no⟩ :: ⟨.func, name⟩ :: more ∧ more.length ≤ 3 ∧
    front.getLast?.all (·.kind = .link) = true

namespace Test

variable {test : Test}

theorem cases_isRead (h : test.isRead = true) :
    Plain test.tokens ∨ ∃ left op opening inner closing,
      test = .member left op opening inner closing ∧
      (left.kind.isValue = true ∨ left.kind = .notWord) ∧ inner.all isListed = true ∧
      closing.kind = .closeParen := by
  cases test with
  | plain tokens => exact .inl (plain_of_isRead h)
  | member left op opening inner closing =>
    simp only [isRead, Bool.and_eq_true, Bool.or_eq_true, decide_eq_true_eq] at h
    exact .inr ⟨left, op, opening, inner, closing, rfl, h.1.1, h.1.2, h.2⟩

theorem three_le_length (h : test.isRead = true) : 3 ≤ test.tokens.length := by
  have hforms : ∀ {form : List Token}, Plain form → 3 ≤ form.length := by
    intro form hform
    cases hform <;> simp
  rcases cases_isRead h with hplain | ⟨left, op, opening, inner, closing, rfl, -⟩
  · exact hforms hplain
  · simp [tokens]

theorem kind_ne_func_of_plain {form : List Token} (h : Plain form) : ∀ token ∈ form, token.kind ≠ .func := by
  have hvalue : ∀ {kind : Kind}, kind.isValue = true → kind ≠ .func := fun hkind ↦
    (Kind.ne_of_isValue hkind).1
  cases h with
  | negated hleft hright => simp [hvalue hleft, hvalue hright]
  | between hleft hlow hhigh => simp [hvalue hleft, hvalue hlow, hvalue hhigh]
  | comparison hleft hright => simp [hvalue hleft, hvalue hright]
  | isNull hleft => simp [hvalue hleft]
  | isNotNull hleft => simp [hvalue hleft]

/-- A test that starts with a NOT and a function is a membership test, which has four tokens. -/
theorem four_le_length {no name : String} {more : List Token} (h : test.isRead = true)
    (htokens : test.tokens = ⟨.notWord, no⟩ :: ⟨.func, name⟩ :: more) : 4 ≤ test.tokens.length := by
  rcases cases_isRead h with hplain | ⟨left, op, opening, inner, closing, rfl, -⟩
  · exact absurd rfl (kind_ne_func_of_plain hplain ⟨.func, name⟩ (by simp [htokens]))
  · simp [tokens]

/-- In no test do a NOT and a function follow a link. -/
theorem tokens_ne {front more : List Token} {word no name : String} (h : test.isRead = true) :
    test.tokens ≠ front ++ ⟨.link, word⟩ :: ⟨.notWord, no⟩ :: ⟨.func, name⟩ :: more := by
  intro htokens
  rcases cases_isRead h with hplain | ⟨left, op, opening, inner, closing, rfl, hleft, hinner, hclosing⟩
  · exact absurd rfl (kind_ne_func_of_plain hplain ⟨.func, name⟩ (by simp [htokens]))
  · have hlisted : ∀ token ∈ inner ++ [closing],
        token.kind ≠ .link ∧ token.kind ≠ .notWord ∧ token.kind ≠ .func := by
      intro token htoken
      rcases List.mem_append.mp htoken with htoken | htoken
      · have hkind := List.all_eq_true.mp hinner token htoken
        refine ⟨?_, ?_, ?_⟩
        all_goals
          intro heq
          simp [isListed, heq, Kind.isValue] at hkind
      · rw [List.mem_singleton.mp htoken, hclosing]
        simp
    -- Only the second and the third token of a membership test can be a link.
    rcases front with _ | ⟨first, _ | ⟨second, _ | ⟨third, front⟩⟩⟩
    all_goals simp only [tokens, List.nil_append, List.cons_append, List.cons.injEq] at htokens
    · obtain ⟨rfl, -⟩ := htokens
      rcases hleft with hleft | hleft <;> cases hleft
    · obtain ⟨-, -, -, hlast⟩ := htokens
      exact (hlisted ⟨.func, name⟩ (by simp [hlast])).2.2 rfl
    · obtain ⟨-, -, -, hlast⟩ := htokens
      exact (hlisted ⟨.notWord, no⟩ (by simp [hlast])).2.1 rfl
    · obtain ⟨-, -, -, hlast⟩ := htokens
      exact (hlisted ⟨.link, word⟩ (by simp [hlast])).1 rfl

end Test

/-! ### The end of a list of conditions -/

/-- Behind a test and a link, the end is where it is without them. -/
theorem endsInNegation_link {test : Test} {more : List Token} (h : test.isRead = true) (hne : more ≠ [])
    (word : String) :
    EndsInNegation (test.tokens ++ ⟨.link, word⟩ :: more) ↔ EndsInNegation more := by
  constructor
  · rintro ⟨front, no, name, last, heq, hlast, hlink⟩
    rcases List.append_eq_append_iff.mp heq with ⟨behind, rfl, hbehind⟩ | ⟨inside, hinside, hrest⟩
    · rcases behind with _ | ⟨first, behind⟩
      · simp at hbehind
      · obtain ⟨rfl, rfl⟩ := List.cons.inj hbehind
        refine ⟨behind, no, name, last, rfl, hlast, ?_⟩
        by_cases hnil : behind = []
        · rw [hnil]
          rfl
        · rwa [getLast?_append_cons hnil] at hlink
    · rcases inside with _ | ⟨first, _ | ⟨second, inside⟩⟩
      · simp at hrest
      · simp at hrest
      · simp only [List.cons_append, List.cons.injEq] at hrest
        obtain ⟨rfl, rfl, rfl⟩ := hrest
        rcases List.eq_nil_or_concat front with rfl | ⟨others, token, rfl⟩
        · have hfour := Test.four_le_length h hinside
          have hpos := List.length_pos_iff.mpr hne
          simp only [hinside, List.nil_append, List.length_cons, List.length_append] at hfour hlast
          omega
        · obtain ⟨kind, text⟩ := token
          obtain rfl : kind = .link := by simpa using hlink
          refine absurd hinside ?_
          simpa using Test.tokens_ne h
  · rintro ⟨front, no, name, last, rfl, hlast, hlink⟩
    refine ⟨test.tokens ++ ⟨.link, word⟩ :: front, no, name, last, by simp, hlast, ?_⟩
    by_cases hnil : front = []
    · simp [hnil]
    · rwa [getLast?_append_cons hnil]

theorem endsInNegation_tokens {test : Test} (h : test.isRead = true) :
    EndsInNegation test.tokens ↔
      ∃ no name more, test.tokens = ⟨.notWord, no⟩ :: ⟨.func, name⟩ :: more ∧ more.length ≤ 3 := by
  constructor
  · rintro ⟨front, no, name, last, heq, hlast, hlink⟩
    rcases List.eq_nil_or_concat front with rfl | ⟨others, token, rfl⟩
    · exact ⟨no, name, last, heq, hlast⟩
    · obtain ⟨kind, text⟩ := token
      obtain rfl : kind = .link := by simpa using hlink
      refine absurd heq ?_
      simpa using Test.tokens_ne h
  · rintro ⟨no, name, more, heq, hmore⟩
    exact ⟨[], no, name, more, heq, hmore, rfl⟩

namespace Read

variable {statements : List Token → Statements} {membership : Bool} {bound count limit : Nat}
  {xs ys tokens form rest : List Token} {node : Node} {nodes : List Node}
variable {inner : List Token} {closing : Token} {other : Nat}

/-! ### More tokens behind a condition -/

theorem fits_append {places : List (Kind → Bool)} (h : places.length ≤ xs.length) (ys : List Token) :
    fits places (xs ++ ys) = fits places xs := by
  induction places generalizing xs with
  | nil => rfl
  | cons place places ih =>
    cases xs with
    | nil => cases h
    | cons token xs => simp [fits, ih (Nat.le_of_succ_le_succ h)]

theorem readGroup_listed (h : inner.all Test.isListed = true) (hclosing : closing.kind = .closeParen)
    (more : List Token) (items : List Node) (hbound : inner.length < bound) :
    readGroup statements bound (.group items) (inner ++ closing :: more) =
      .ok (.group (items ++ inner.filterMap value?), inner.length + 1) := by
  induction inner generalizing bound items with
  | nil =>
    obtain ⟨bound, rfl⟩ := Nat.exists_eq_add_of_lt hbound
    simp [readGroup, value?, termKind?, hclosing]
  | cons token inner ih =>
    obtain ⟨bound, rfl⟩ : ∃ less, bound = less + 1 := Nat.exists_eq_add_of_le' (by omega)
    rw [List.all_cons, Bool.and_eq_true] at h
    rw [List.cons_append, readGroup]
    have hinner : inner.length < bound := Nat.lt_of_succ_lt_succ hbound
    by_cases hvalue : token.kind.isValue = true
    · have hsome : value? token = some (part token) := by rw [value?_eq, if_pos hvalue]
      simp [hsome, ih h.2 _ hinner, bind, Except.bind]
    · have hcomma : token.kind = .comma := by simpa [Test.isListed, hvalue] using h.1
      have hnone : value? token = none := by rw [value?_eq, if_neg hvalue]
      simp [hnone, hcomma, ih h.2 _ hinner, bind, Except.bind]

theorem readMembership_listed {left op opening : Token}
    (hleft : left.kind.isValue = true ∨ left.kind = .notWord) (hinner : inner.all Test.isListed = true)
    (hclosing : closing.kind = .closeParen) (more : List Token) :
    readMembership statements (left :: op :: opening :: (inner ++ closing :: more)) =
      .ok (.condition [part left, .operator op.text, .group (inner.filterMap value?)],
        inner.length + 4) := by
  have hoperand : readOperand left = .ok (part left) := by
    rcases hleft with hleft | hleft
    · rw [readOperand, value?_eq, if_pos hleft]
    · obtain ⟨kind, text⟩ := left
      obtain rfl : kind = .notWord := hleft
      rfl
  have hgroup : ∀ items, readGroup statements (opening :: (inner ++ closing :: more)).length
      (.group items) (inner ++ closing :: more) = _ :=
    fun items ↦ readGroup_listed hinner hclosing more items
      (by simp only [List.length_cons, List.length_append]; omega)
  simp only [readMembership, hoperand, hgroup, bind, Except.bind, List.drop_succ_cons, List.drop_zero,
    List.nil_append]

/-- The parenthesis at the end of a membership test keeps its tokens from having another form, whatever
follows. -/
theorem simpleCondition?_listed {left op opening : Token} {more : List Token}
    (hclosing : closing.kind = .closeParen)
    (h : simpleCondition? (left :: op :: opening :: (inner ++ closing :: more)) = none) (ys : List Token) :
    simpleCondition? (left :: op :: opening :: (inner ++ closing :: more) ++ ys) = none := by
  rw [Option.eq_none_iff_forall_ne_some]
  rintro ⟨node, count⟩ hsome
  obtain ⟨form, rest, hform, heq, rfl, rfl⟩ := simpleCondition?_eq_some_iff.mp hsome
  have hlength : form.length ≤ (left :: op :: opening :: (inner ++ closing :: more)).length := by
    cases hform with
    | between hleft hlow hhigh =>
      cases inner with
      | nil =>
        simp only [List.nil_append, List.cons_append, List.cons.injEq] at heq
        obtain ⟨-, -, -, rfl, -⟩ := heq
        cases hclosing
      | cons token inner =>
        simp only [List.length_cons, List.length_append, List.length_nil]
        omega
    | _ => simp <;> omega
  have hfront : form <+: left :: op :: opening :: (inner ++ closing :: more) :=
    List.prefix_of_prefix_length_le ⟨rest, heq.symm⟩ (List.prefix_append _ _) hlength
  obtain ⟨behind, hbehind⟩ := hfront
  rw [← hbehind, simpleCondition?_plain hform] at h
  cases h

theorem not_negatesCall_of_isWhole
    (h : readCondition statements membership tokens = .ok (node, count)) (hwhole : node.isWhole = true)
    (hsimple : simpleCondition? tokens = none) :
    negatesCall tokens = false ∧ membership = true ∧
      readMembership statements tokens = .ok (node, count) := by
  rcases readCondition_cases h with hsome | ⟨-, ⟨word, rest, -, -, hnegated⟩ | hmember⟩
  · rw [hsimple] at hsome
    cases hsome
  · rw [isWhole_of_readNegatedCall hnegated] at hwhole
    cases hwhole
  · exact hmember

/-- More tokens behind a condition make no difference to it, unless they make it a negated call. -/
theorem readCondition_append (h : readCondition statements membership xs = .ok (node, count))
    (hwhole : node.isWhole = true) (hnegates : negatesCall (xs ++ ys) = negatesCall xs) :
    readCondition statements membership (xs ++ ys) = .ok (node, count) := by
  cases hsimple : simpleCondition? xs with
  | some found =>
    rw [readCondition_eq, hsimple] at h
    cases h
    obtain ⟨form, rest, hform, rfl, rfl, rfl⟩ := simpleCondition?_eq_some_iff.mp hsimple
    rw [List.append_assoc, readCondition_plain hform]
  | none =>
    obtain ⟨hcall, rfl, hmember⟩ := not_negatesCall_of_isWhole h hwhole hsimple
    obtain ⟨left, op, opening, inner, closing, more, rfl, hleft, hinner, hclosing, rfl, rfl⟩ :=
      readMembership_cases hmember hwhole
    rw [readCondition_eq, simpleCondition?_listed hclosing hsimple ys, hnegates, hcall]
    simpa using readMembership_listed hleft hinner hclosing (more ++ ys)

theorem negatesCall_append (h : 2 ≤ xs.length) (ys : List Token) :
    negatesCall (xs ++ ys) = negatesCall xs ∨
      ∃ no name more, xs = ⟨.notWord, no⟩ :: ⟨.func, name⟩ :: more ∧ more.length ≤ 3 := by
  by_cases hlength : 6 ≤ xs.length
  · left
    rw [negatesCall, negatesCall, fits_append (by simpa using hlength)]
  · rcases xs with _ | ⟨⟨first, no⟩, _ | ⟨⟨second, name⟩, more⟩⟩
    · simp at h
    · simp at h
    · by_cases hkinds : first = .notWord ∧ second = .func
      · obtain ⟨rfl, rfl⟩ := hkinds
        simp only [List.length_cons] at hlength
        exact .inr ⟨no, name, more, rfl, by omega⟩
      · left
        rw [not_and] at hkinds
        by_cases hfirst : first = .notWord
        · simp [negatesCall, fits, hkinds hfirst]
        · simp [negatesCall, fits, hfirst]

/-- A membership test that starts with a NOT and a function, a link and more are six tokens, which show
whether they negate a call. -/
theorem negatesCall_test_append {test : Test} (h : test.isRead = true) {next : String} {more : List Token}
    (hne : more ≠ []) (ys : List Token) :
    negatesCall (test.tokens ++ ⟨.link, next⟩ :: more ++ ys) =
      negatesCall (test.tokens ++ ⟨.link, next⟩ :: more) := by
  have hthree := Test.three_le_length h
  refine (negatesCall_append ?_ _).resolve_right ?_
  · rw [List.length_append]
    omega
  · rintro ⟨no, name, last, htokens, hle⟩
    have hpos := List.length_pos_iff.mpr hne
    have hlength := congrArg List.length htokens
    simp only [List.length_append, List.length_cons] at hlength
    obtain ⟨a, b, tail, hfront⟩ : ∃ a b tail, test.tokens = a :: b :: tail := by
      rcases hfront : test.tokens with _ | ⟨a, _ | ⟨b, tail⟩⟩
      · simp [hfront] at hthree
      · simp [hfront] at hthree
      · exact ⟨a, b, tail, rfl⟩
    rw [hfront, List.cons_append, List.cons_append, List.cons.injEq, List.cons.injEq] at htokens
    rw [htokens.1, htokens.2.1] at hfront
    have hfour := Test.four_le_length h hfront
    omega

/-- With a link and more behind it, a test that ends in a negation negates a call. -/
theorem negatesCall_of_endsInNegation {test : Test} (h : test.isRead = true)
    (hneg : EndsInNegation test.tokens) (word : String) (hys : ys ≠ []) :
    negatesCall (test.tokens ++ ⟨.link, word⟩ :: ys) = true := by
  obtain ⟨no, name, last, htokens, -⟩ := (endsInNegation_tokens h).mp hneg
  have hfour := Test.four_le_length h htokens
  rw [htokens] at hfour ⊢
  rcases last with _ | ⟨a, _ | ⟨b, last⟩⟩
  · simp at hfour
  · simp at hfour
  · obtain ⟨c, ys, rfl⟩ := List.exists_cons_of_ne_nil hys
    rcases last with _ | ⟨d, _ | ⟨e, last⟩⟩ <;> simp [negatesCall, fits]

/-! ### More tokens behind a list of conditions -/

theorem readLinked_bound (hbound : tokens.length ≤ bound) (hother : tokens.length ≤ other) :
    readLinked statements membership bound tokens = readLinked statements membership other tokens := by
  rw [readLinked_eq_readList, readLinked_eq_readList,
    readList_congr exists_of_link? hbound hother]

/-- Conditions that take all the tokens are a test, and behind a link there are more of them. -/
theorem exists_test_of_readLinked (hstatements : Exhausts statements limit)
    (hlimit : xs.length ≤ limit)
    (h : readLinked statements membership (bound + 1) xs = .ok (nodes, xs.length)) (hne : xs ≠ []) (hlast : xs.getLast?.all (·.kind ≠ .link) = true) :
    ∃ test : Test, test.isRead = true ∧
      readCondition statements membership xs = .ok (test.node, test.tokens.length) ∧
      test.node.isWhole = true ∧
      ((xs = test.tokens ∧ nodes = [test.node]) ∨ ∃ word more others,
        xs = test.tokens ++ ⟨.link, word⟩ :: more ∧ more ≠ [] ∧
        readLinked statements membership bound more = .ok (others, more.length) ∧
        nodes = test.node :: .link word :: others) := by
  have hstuck : ¬Stuck (xs.drop xs.length) := by
    rintro ⟨last, others, hdrop, -⟩
    rw [List.drop_length] at hdrop
    cases hdrop
  obtain ⟨condition, taken, hcondition, hwhole, hmore⟩ :=
    (readLinked_isWhole_or_stuck hstatements hlimit hne h).resolve_right hstuck
  obtain ⟨test, others, hread, htokens, rfl, rfl⟩ := exists_test_of_readCondition hcondition hwhole
  refine ⟨test, hread, hcondition, hwhole, ?_⟩
  have hlength := congrArg List.length htokens
  rw [htokens, List.drop_left] at hmore
  rcases hmore with ⟨word, more, nodes', count', rfl, hmore, rfl, hcount⟩ | ⟨rfl, hcount⟩
  · simp only [List.length_append, List.length_cons] at hlength hcount
    obtain rfl : count' = more.length := by omega
    refine .inr ⟨word, more, nodes', htokens, ?_, hmore, rfl⟩
    rintro rfl
    rw [htokens, List.getLast?_concat] at hlast
    simp at hlast
  · simp only [List.length_append] at hlength hcount
    obtain rfl := List.eq_nil_of_length_eq_zero (show others.length = 0 by omega)
    rw [List.append_nil] at htokens
    exact .inl ⟨htokens, rfl⟩

/-- With more tokens behind it, a NOT and a short call are read as a negated call, which leaves the last
token of the call and more. -/
theorem readLinked_of_negatesCall (h : negatesCall tokens = true)
    (hread : readLinked statements membership bound tokens = .ok (nodes, count))
    (hbound : tokens.length ≤ bound) : count < tokens.length := by
  have hsimple : simpleCondition? tokens = none := by
    rw [Option.eq_none_iff_forall_ne_some]
    rintro ⟨node, taken⟩ hsome
    obtain ⟨form, rest, hform, rfl, -, -⟩ := simpleCondition?_eq_some_iff.mp hsome
    cases hform with
    | negated hleft hright => simp [negatesCall, fits, Kind.ne_of_isValue hleft] at h
    | between hleft hlow hhigh => simp [negatesCall, fits, Kind.ne_of_isValue hleft] at h
    | comparison hleft hright => simp [negatesCall, fits, Kind.ne_of_isValue hleft] at h
    | isNull hleft => simp [negatesCall, fits, Kind.ne_of_isValue hleft] at h
    | isNotNull hleft => simp [negatesCall, fits, Kind.ne_of_isValue hleft] at h
  have hne : tokens ≠ [] := by
    rintro rfl
    cases h
  obtain ⟨bound, rfl⟩ : ∃ less, bound = less + 1 :=
    Nat.exists_eq_add_of_le' (Nat.le_trans (List.length_pos_iff.mpr hne) hbound)
  obtain ⟨condition, taken, hcondition, hrest⟩ := readLinked_cases hne hread
  rcases readCondition_cases hcondition with hsome | ⟨-, ⟨no, rest, rfl, -, hnegated⟩ | ⟨hnone, -⟩⟩
  · rw [hsimple] at hsome
    cases hsome
  · obtain ⟨call, op, right, more, operand, hcall, hbehind, -⟩ := readNegatedCall_eq_ok.mp hnegated
    obtain ⟨n, rfl, last, others, hdrop, hends⟩ := readCall_last hcall
    have hlength := congrArg List.length hbehind
    simp only [List.length_drop, List.length_cons] at hlength
    rw [List.drop_succ_cons, hdrop] at hrest
    rcases hrest with ⟨word, more, others, counted, hlink, -⟩ | ⟨-, rfl⟩
    · cases hlink
      cases hends
    · rw [List.length_cons]
      omega
  · rw [h] at hnone
    cases hnone

/-- Behind conditions that take all their tokens, a link and what follows it are read, unless the conditions
end in a negation: then the reading stops before the end. -/
theorem readLinked_link (hstatements : Exhausts statements limit) (hlimit : xs.length ≤ limit)
    (h : readLinked statements membership bound xs = .ok (nodes, xs.length)) (hne : xs ≠ [])
    (hbound : xs.length ≤ bound) (hlast : xs.getLast?.all (·.kind ≠ .link) = true) (hys : ys ≠ [])
    (word : String) (hother : (xs ++ ⟨.link, word⟩ :: ys).length ≤ other) :
    (¬EndsInNegation xs → readLinked statements membership other (xs ++ ⟨.link, word⟩ :: ys) =
      (readLinked statements membership ys.length ys).map fun found ↦
        (nodes ++ .link word :: found.1, xs.length + 1 + found.2)) ∧
    (EndsInNegation xs → ∀ found taken,
      readLinked statements membership other (xs ++ ⟨.link, word⟩ :: ys) = .ok (found, taken) →
      taken < (xs ++ ⟨.link, word⟩ :: ys).length) := by
  induction bound generalizing xs nodes other with
  | zero => exact absurd (List.eq_nil_of_length_eq_zero (Nat.le_zero.mp hbound)) hne
  | succ bound ih =>
    obtain ⟨other, rfl⟩ : ∃ less, other = less + 1 := Nat.exists_eq_add_of_le' (by
      rw [List.length_append, List.length_cons] at hother
      omega)
    obtain ⟨test, hread, hcondition, hwhole, hrest⟩ :=
      exists_test_of_readLinked hstatements hlimit h hne hlast
    have hthree := Test.three_le_length hread
    have htest : test.tokens ≠ [] := List.ne_nil_of_length_pos (by omega)
    rcases hrest with ⟨rfl, rfl⟩ | ⟨next, more, others, rfl, hmore_ne, hmore, rfl⟩
    · have hnegates := negatesCall_append (show 2 ≤ test.tokens.length by omega) (⟨.link, word⟩ :: ys)
      rw [← endsInNegation_tokens hread] at hnegates
      constructor
      · intro hneg
        have hsame := readCondition_append hcondition hwhole (hnegates.resolve_right hneg)
        rw [List.length_append, List.length_cons] at hother
        have hother_ys : readLinked statements membership other ys =
            readLinked statements membership ys.length ys := readLinked_bound (by omega) (Nat.le_refl _)
        rw [readLinked_of_readCondition htest hsame, behindLink?]
        simp only [hother_ys]
        rfl
      · intro hneg found taken hfound
        exact readLinked_of_negatesCall (negatesCall_of_endsInNegation hread hneg word hys) hfound hother
    · simp only [List.length_append, List.length_cons] at hbound hlimit hother
      rw [getLast?_append_cons hmore_ne] at hlast
      have hsame := readCondition_append hcondition hwhole
        (negatesCall_test_append hread hmore_ne (⟨.link, word⟩ :: ys))
      obtain ⟨hkept, hlost⟩ := ih (by omega) hmore hmore_ne (by omega) hlast
        (show (more ++ ⟨.link, word⟩ :: ys).length ≤ other by
          rw [List.length_append, List.length_cons]
          omega)
      rw [endsInNegation_link hread hmore_ne, List.append_assoc, List.cons_append]
      rw [List.append_assoc, List.cons_append] at hsame
      rw [readLinked_of_readCondition htest hsame, behindLink?]
      constructor
      · intro hneg
        simp only [hkept hneg]
        cases readLinked statements membership ys.length ys with
        | error fault => rfl
        | ok found =>
          simp [Except.map]
          omega
      · intro hneg found taken hfound
        obtain ⟨⟨others', counted⟩, hothers, hpair⟩ := map_eq_ok.mp hfound
        cases hpair
        have hlt := hlost hneg _ _ hothers
        rw [List.length_append, List.length_cons]
        omega

/-! ### Where membership tests are allowed -/

theorem opensMembership_plain (h : Plain form) (rest : List Token) :
    opensMembership (form ++ rest) = false := by
  rw [opensMembership_eq]
  cases h with
  | negated hleft hright => simp [fits, Kind.isColumn]
  | between hleft hlow hhigh => simp [fits]
  | comparison hleft hright => simp [fits, Kind.ne_of_isValue hright]
  | isNull hleft => simp [fits]
  | isNotNull hleft => simp [fits]

theorem opensMembership_append
    (h : readCondition statements (opensMembership xs) xs = .ok (node, count)) (ys : List Token) :
    opensMembership (xs ++ ys) = opensMembership xs := by
  by_cases hlength : 5 ≤ xs.length
  · rw [opensMembership_eq, opensMembership_eq, fits_append (by simpa using hlength)]
  · have hshort : ∀ {places : List (Kind → Bool)}, 5 ≤ places.length → fits places xs = false := by
      intro places hplaces
      rw [Bool.eq_false_iff]
      intro hfits
      have hle := length_le_of_fits hfits
      omega
    have hfalse : opensMembership xs = false := by
      rw [opensMembership_eq]
      exact hshort (by simp)
    rw [hfalse, readCondition_eq] at h
    cases hsimple : simpleCondition? xs with
    | some found =>
      obtain ⟨form, rest, hform, rfl, -, -⟩ := simpleCondition?_eq_some_iff.mp hsimple
      rw [List.append_assoc, opensMembership_plain hform, opensMembership_plain hform]
    | none =>
      have hcall : negatesCall xs = false := hshort (by simp)
      rw [hsimple, hcall] at h
      cases h

theorem readCondition_of_opensMembership (h : opensMembership tokens = true) :
    readCondition statements false tokens = .error .invalidCondition := by
  cases hsimple : simpleCondition? tokens with
  | some found =>
    obtain ⟨form, rest, hform, rfl, -, -⟩ := simpleCondition?_eq_some_iff.mp hsimple
    rw [opensMembership_plain hform] at h
    cases h
  | none =>
    have hcall : negatesCall tokens = false := by
      rcases tokens with _ | ⟨⟨kind, text⟩, rest⟩
      · rfl
      · by_cases hnot : kind = .notWord
        · subst hnot
          rw [opensMembership_eq] at h
          cases h
        · simp [negatesCall, fits, hnot]
    rw [readCondition_eq, hsimple, hcall]
    rfl

theorem readLinked_true (h : readLinked statements false bound tokens = .ok (nodes, count)) :
    readLinked statements true bound tokens = .ok (nodes, count) := by
  induction bound generalizing tokens nodes count with
  | zero => exact h
  | succ bound ih =>
    cases tokens with
    | nil => exact h
    | cons token rest =>
      obtain ⟨⟨condition, taken⟩, hcondition, hrest⟩ := bind_eq_ok.mp h
      have htrue : readCondition statements true (token :: rest) = .ok (condition, taken) := by
        rw [readCondition_eq] at hcondition ⊢
        cases hsimple : simpleCondition? (token :: rest) with
        | some found => simpa only [hsimple] using hcondition
        | none =>
          simp only [hsimple] at hcondition ⊢
          split at hcondition
          · rename_i hcall
            rw [if_pos hcall, hcondition]
          · cases hcondition
      rw [readLinked_succ (List.cons_ne_nil _ _) htrue]
      rw [readLinked_succ (List.cons_ne_nil _ _) hcondition] at h
      cases hlink : behindLink? ((token :: rest).drop taken) with
      | none => simpa only [hlink] using h
      | some found =>
        simp only [hlink] at h ⊢
        obtain ⟨⟨others, counted⟩, hothers, hpair⟩ := bind_eq_ok.mp h
        rw [ih hothers]
        exact hpair

/-- Conditions that take all the tokens are read where membership tests are allowed or not as they are read
alone, unless they start with such a test and it is not allowed. -/
theorem readLinked_eq_ok_iff (h : readConditions statements tokens = .ok (nodes, tokens.length))
    (hne : tokens ≠ []) (allowed : Bool) :
    readLinked statements allowed tokens.length tokens = .ok (nodes, tokens.length) ↔
      (opensMembership tokens = true → allowed = true) := by
  unfold readConditions at h
  cases hopens : opensMembership tokens with
  | false =>
    rw [hopens] at h
    cases allowed with
    | false => simpa using h
    | true => simpa using readLinked_true h
  | true =>
    rw [hopens] at h
    cases allowed with
    | true => simpa using h
    | false =>
      obtain ⟨token, rest, rfl⟩ := List.exists_cons_of_ne_nil hne
      have hfails : readLinked statements false (token :: rest).length (token :: rest) =
          .error .invalidCondition := by
        rw [List.length_cons, readLinked, readCondition_of_opensMembership hopens]
        rfl
      rw [hfails]
      simp

/-- Two lists of conditions with a link between them are read as both of them exactly if the second does not
start with a membership test unless the first does, and the first does not end in a negation. -/
theorem readConditions_link_iff {xs ys : List Token} {first second : List Node} {link : Token}
    (hxs : readConditions Read.statements xs = .ok (first, xs.length))
    (hys : readConditions Read.statements ys = .ok (second, ys.length))
    (hxs_ne : xs ≠ []) (hys_ne : ys ≠ []) (hlast : xs.getLast?.all (·.kind ≠ .link) = true)
    (hlink : link.kind = .link) :
    readConditions Read.statements (xs ++ link :: ys) =
        .ok (first ++ .link link.text :: second, xs.length + 1 + ys.length) ↔
      (opensMembership ys = true → opensMembership xs = true) ∧ ¬EndsInNegation xs := by
  obtain ⟨kind, word⟩ := link
  obtain rfl : kind = .link := hlink
  obtain ⟨token, rest, rfl⟩ := List.exists_cons_of_ne_nil hxs_ne
  obtain ⟨⟨condition, taken⟩, hcondition, -⟩ := bind_eq_ok.mp hxs
  have hopens := opensMembership_append hcondition (⟨.link, word⟩ :: ys)
  obtain ⟨hkept, hlost⟩ := readLinked_link (statements_exhausts _) (Nat.le_refl _) hxs hxs_ne
    (Nat.le_refl _) hlast hys_ne word (Nat.le_refl _)
  rw [readConditions, hopens]
  by_cases hneg : EndsInNegation (token :: rest)
  · refine ⟨fun h ↦ ?_, fun h ↦ absurd hneg h.2⟩
    have hlt := hlost hneg _ _ h
    simp only [List.length_append, List.length_cons] at hlt
    omega
  · rw [hkept hneg, ← readLinked_eq_ok_iff hys hys_ne]
    constructor
    · intro h
      obtain ⟨⟨nodes, count⟩, hread, hpair⟩ := map_eq_ok.mp h
      simp only [Prod.mk.injEq, List.append_cancel_left_eq, List.cons.injEq, true_and] at hpair
      obtain ⟨rfl, hcount⟩ := hpair
      obtain rfl : count = ys.length := by omega
      exact ⟨hread, hneg⟩
    · rintro ⟨hread, -⟩
      rw [hread]
      rfl

/-- `a in (1, 2)` -/
def memberTokens : List Token :=
  [⟨.identifier, "a"⟩, ⟨.inWord, "in"⟩, ⟨.openParen, "("⟩, ⟨.number, "1"⟩, ⟨.comma, ","⟩, ⟨.number, "2"⟩,
    ⟨.closeParen, ")"⟩]

/-- `b = 3` -/
def comparisonTokens : List Token :=
  [⟨.identifier, "b"⟩, ⟨.compare, "="⟩, ⟨.number, "3"⟩]

def memberNode : Node :=
  .condition [.plain .identifier "a", .operator "in", .group [.plain .number "1", .plain .number "2"]]

def comparisonNode : Node :=
  .condition [.plain .identifier "b", .operator "=", .plain .number "3"]

theorem readConditions_member_link_comparison :
    readConditions Read.statements memberTokens = .ok ([memberNode], 7) ∧
      readConditions Read.statements comparisonTokens = .ok ([comparisonNode], 3) ∧
      (readConditions Read.statements (memberTokens ++ ⟨.link, "or"⟩ :: comparisonTokens) =
          .ok ([memberNode, .link "or", comparisonNode], 11) ↔
        (opensMembership comparisonTokens = true → opensMembership memberTokens = true) ∧
          ¬EndsInNegation memberTokens) ∧
      opensMembership memberTokens = true := by
  have hmember : readConditions Read.statements memberTokens = .ok ([memberNode], 7) := rfl
  have hcomparison : readConditions Read.statements comparisonTokens = .ok ([comparisonNode], 3) := rfl
  exact ⟨hmember, hcomparison,
    readConditions_link_iff hmember hcomparison (by simp [memberTokens]) (by simp [comparisonTokens]) rfl rfl,
    rfl⟩

/-- Behind a comparison, a membership test is not read. -/
theorem readConditions_comparison_link_member :
    readConditions Read.statements comparisonTokens = .ok ([comparisonNode], 3) ∧
      readConditions Read.statements memberTokens = .ok ([memberNode], 7) ∧
      readConditions Read.statements (comparisonTokens ++ ⟨.link, "and"⟩ :: memberTokens) =
        .error .invalidCondition :=
  ⟨rfl, rfl, rfl⟩

/-- `a in (1, 2) and not f(x)` and a comparison behind it. -/
example : ∃ nodes,
    readConditions Read.statements (memberTokens ++ [⟨.link, "and"⟩, ⟨.notWord, "not"⟩, ⟨.func, "f"⟩,
      ⟨.openParen, "("⟩, ⟨.identifier, "x"⟩, ⟨.closeParen, ")"⟩, ⟨.link, "and"⟩] ++ comparisonTokens) =
        .ok (nodes, 12) :=
  ⟨_, rfl⟩

end Read

end SqlLayout
