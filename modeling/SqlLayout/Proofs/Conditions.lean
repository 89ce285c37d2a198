import SqlLayout.Proofs.Read.Tests

/-!
# The grammar of conditions

Without calls and parentheses, a list of conditions is read as five forms of conditions on plain values
with links between them.  The reading goes on as long as a link follows, takes a link at the end with it,
and fails wherever a condition has none of the forms.
-/

namespace SqlLayout

open Read Token

/-- Conditions on plain values with links between them, and the nodes that they are read as. -/
inductive Conjoined : List Token → List Node → Prop
  | one {form : List Token} : Plain form → Conjoined form [.condition (form.map part)]
  | more {form rest : List Token} {nodes : List Node} (word : String) :
      Plain form → Conjoined rest nodes →
      Conjoined (form ++ ⟨.link, word⟩ :: rest) (.condition (form.map part) :: .link word :: nodes)

/-- What a list of conditions is read as, and how many tokens that takes: nothing if there are no tokens,
else conditions behind which no link stands, or a link and then nothing. -/
inductive ReadAs : List Token → List Node → Nat → Prop
  | nil : ReadAs [] [] 0
  | closed {front rest : List Token} {nodes : List Node} :
      Conjoined front nodes → opens (· ≠ .link) rest = true → ReadAs (front ++ rest) nodes front.length
  | dangling {front : List Token} {nodes : List Node} (word : String) :
      Conjoined front nodes →
      ReadAs (front ++ [⟨.link, word⟩]) (nodes ++ [.link word]) (front.length + 1)

theorem Plain.ne_nil {form : List Token} (h : Plain form) : form ≠ [] := by
  cases h <;> simp

/-- What is read behind a link is read behind it and the condition in front of it. -/
theorem ReadAs.link {form rest : List Token} {nodes : List Node} {count : Nat}
    (h : ReadAs rest nodes count) (hform : Plain form) (word : String) :
    ReadAs (form ++ ⟨.link, word⟩ :: rest) (.condition (form.map part) :: .link word :: nodes)
      (form.length + 1 + count) := by
  cases h with
  | nil => exact .dangling word (.one hform)
  | @closed front rest nodes hfront hrest =>
    have hall := ReadAs.closed (.more word hform hfront) hrest
    rw [List.append_assoc, List.length_append, List.length_cons] at hall
    rw [show form.length + 1 + front.length = form.length + (front.length + 1) by omega]
    exact hall
  | @dangling front nodes last hfront =>
    have hall := ReadAs.dangling last (.more word hform hfront)
    rw [List.append_assoc, List.length_append, List.length_cons] at hall
    rw [show form.length + 1 + (front.length + 1) = form.length + (front.length + 1) + 1 by omega]
    exact hall

namespace Read

variable {statements : List Token → Statements} {membership : Bool} {bound count : Nat}
  {tokens form rest : List Token} {node : Node} {nodes : List Node}

/-! ### One condition -/

theorem simpleCondition?_plain (h : Plain form) (rest : List Token) :
    simpleCondition? (form ++ rest) = some (.condition (form.map part), form.length) := by
  have hnot : ∀ {kind : Kind}, kind.isValue = true → kind ≠ .notWord := fun hkind ↦
    (Kind.ne_of_isValue hkind).2.2.2
  rw [simpleCondition?_eq]
  cases h with
  | negated hleft hright =>
    simp [conditionForms, plainCondition?, fits, hleft, hright]
  | between hleft hlow hhigh =>
    simp [conditionForms, plainCondition?, fits, hleft, hlow, hhigh, hnot hleft]
  | comparison hleft hright =>
    simp [conditionForms, plainCondition?, fits, hleft, hright, hnot hleft]
  | isNull hleft => simp [conditionForms, plainCondition?, fits, hleft, hnot hleft]
  | isNotNull hleft => simp [conditionForms, plainCondition?, fits, hleft, hnot hleft]

theorem simpleCondition?_eq_some_iff :
    simpleCondition? tokens = some (node, count) ↔
      ∃ form rest, Plain form ∧ tokens = form ++ rest ∧ node = .condition (form.map part) ∧
        count = form.length := by
  constructor
  · intro h
    rw [simpleCondition?_eq] at h
    obtain ⟨places, hplaces, hplain⟩ := List.exists_of_findSome?_eq_some h
    unfold plainCondition? at hplain
    split at hplain
    · rename_i hfits
      cases hplain
      have hlength : (tokens.take places.length).length = places.length := by
        rw [List.length_take, Nat.min_eq_left (length_le_of_fits hfits)]
      refine ⟨tokens.take places.length, tokens.drop places.length, plain_of_isRead ?_,
        (List.take_append_drop _ _).symm, rfl, hlength.symm⟩
      simp only [Test.isRead, List.any_eq_true, Bool.and_eq_true, decide_eq_true_eq]
      exact ⟨places, hplaces, fits_take hfits, hlength⟩
    · cases hplain
  · rintro ⟨form, rest, hform, rfl, rfl, rfl⟩
    exact simpleCondition?_plain hform rest

theorem readCondition_plain (h : Plain form) (rest : List Token) :
    readCondition statements membership (form ++ rest) =
      .ok (.condition (form.map part), form.length) := by
  rw [readCondition_eq, simpleCondition?_plain h]

/-- Without a function, only conditions on plain values are read, unless there may be membership tests. -/
theorem readCondition_of_no_func (statements : List Token → Statements)
    (h : ∀ token ∈ tokens, token.kind ≠ .func) :
    (∃ form rest, Plain form ∧ tokens = form ++ rest) ∨
      readCondition statements false tokens = .error .invalidCondition := by
  cases hsimple : simpleCondition? tokens with
  | some found =>
    obtain ⟨form, rest, hform, htokens, -, -⟩ := simpleCondition?_eq_some_iff.mp hsimple
    exact .inl ⟨form, rest, hform, htokens⟩
  | none =>
    have hnegates : negatesCall tokens = false := by
      rcases tokens with _ | ⟨first, _ | ⟨second, others⟩⟩
      · rfl
      · simp [negatesCall, fits]
      · have hsecond : second.kind ≠ .func := h second (by simp)
        simp [negatesCall, fits, hsecond]
    refine .inr ?_
    rw [readCondition_eq, hsimple, hnegates]
    rfl

/-! ### Linked conditions -/

/-- What is read behind a condition if a link follows it. -/
theorem readLinked_of_readCondition {front : List Token} (hne : front ≠ [])
    (h : readCondition statements membership (front ++ rest) = .ok (node, front.length)) :
    readLinked statements membership (bound + 1) (front ++ rest) =
      match behindLink? rest with
      | some (word, more) =>
        (readLinked statements membership bound more).map fun others ↦
          (node :: .link word :: others.1, front.length + 1 + others.2)
      | none => .ok ([node], front.length) := by
  rw [readLinked_succ (List.append_ne_nil_of_left_ne_nil hne _) h, List.drop_left]
  cases behindLink? rest with
  | none => rfl
  | some found => exact bind_ok_eq_map

theorem behindLink?_eq_none (h : opens (· ≠ .link) rest = true) : behindLink? rest = none := by
  unfold behindLink?
  split
  · cases h
  · rfl

theorem opens_ne_link (h : behindLink? rest = none) : opens (· ≠ .link) rest = true := by
  cases rest with
  | nil => rfl
  | cons token rest =>
    obtain ⟨kind, text⟩ := token
    cases kind with
    | link => cases h
    | _ => simp

/-- Linked conditions are read up to their end, and a link at the end of the tokens with them. -/
theorem readLinked_conjoined {front : List Token} (h : Conjoined front nodes)
    (hbound : front.length ≤ bound) :
    (∀ rest, opens (· ≠ .link) rest = true →
      readLinked statements membership bound (front ++ rest) = .ok (nodes, front.length)) ∧
    ∀ word, readLinked statements membership bound (front ++ [⟨.link, word⟩]) =
      .ok (nodes ++ [.link word], front.length + 1) := by
  induction h generalizing bound with
  | @one form hform =>
    obtain ⟨bound, rfl⟩ : ∃ less, bound = less + 1 :=
      Nat.exists_eq_add_of_le' (by cases hform <;> simp at hbound <;> omega)
    constructor
    · intro rest hrest
      rw [readLinked_of_readCondition hform.ne_nil (readCondition_plain hform _), behindLink?_eq_none hrest]
    · intro word
      rw [readLinked_of_readCondition hform.ne_nil (readCondition_plain hform _)]
      cases bound <;> rfl
  | @more form front nodes word hform _ ih =>
    rw [List.length_append, List.length_cons] at hbound
    obtain ⟨bound, rfl⟩ : ∃ less, bound = less + 1 := Nat.exists_eq_add_of_le' (by omega)
    have hfront : front.length ≤ bound := by omega
    obtain ⟨hclosed, hdangling⟩ := ih hfront
    constructor
    · intro rest hrest
      rw [List.append_assoc, List.cons_append,
        readLinked_of_readCondition hform.ne_nil (readCondition_plain hform _), behindLink?]
      simp [hclosed rest hrest, Except.map]
      omega
    · intro last
      rw [List.append_assoc, List.cons_append,
        readLinked_of_readCondition hform.ne_nil (readCondition_plain hform _), behindLink?]
      simp [hdangling last, Except.map]
      omega

theorem readLinked_of_readAs (h : ReadAs tokens nodes count) (hbound : tokens.length ≤ bound) :
    readLinked statements membership bound tokens = .ok (nodes, count) := by
  cases h with
  | nil => cases bound <;> rfl
  | closed hfront hrest =>
    rw [List.length_append] at hbound
    exact (readLinked_conjoined hfront (by omega)).1 _ hrest
  | @dangling front nodes word hfront =>
    rw [List.length_append] at hbound
    have hlength : front.length ≤ bound := by omega
    exact (readLinked_conjoined hfront hlength).2 word

/-- Linked conditions without a function are read as their grammar says, or not at all. -/
theorem readLinked_of_no_func (statements : List Token → Statements)
    (h : ∀ token ∈ tokens, token.kind ≠ .func)
    (hbound : tokens.length ≤ bound) :
    (∃ nodes count, ReadAs tokens nodes count) ∨
      readLinked statements false bound tokens = .error .invalidCondition := by
  induction bound generalizing tokens with
  | zero =>
    obtain rfl := List.eq_nil_of_length_eq_zero (Nat.le_zero.mp hbound)
    exact .inl ⟨[], 0, .nil⟩
  | succ bound ih =>
    cases tokens with
    | nil => exact .inl ⟨[], 0, .nil⟩
    | cons token others =>
      rcases readCondition_of_no_func statements h with
        ⟨form, rest, hform, htokens⟩ | hfails
      · rw [htokens] at h hbound ⊢
        cases hlink : behindLink? rest with
        | none => exact .inl ⟨_, _, .closed (.one hform) (opens_ne_link hlink)⟩
        | some found =>
          obtain ⟨word, more⟩ := found
          obtain rfl := behindLink?_eq_some.mp hlink
          rw [List.length_append, List.length_cons] at hbound
          have hmore : ∀ token ∈ more, token.kind ≠ .func :=
            fun token htoken ↦ h token (by simp [htoken])
          rcases ih hmore (by omega) with ⟨nodes, count, hmore⟩ | hfails
          · exact .inl ⟨_, _, hmore.link hform word⟩
          · refine .inr ?_
            rw [readLinked_of_readCondition hform.ne_nil (readCondition_plain hform _), behindLink?]
            simp only [hfails]
            rfl
      · refine .inr ?_
        rw [readLinked, hfails]
        rfl

/-! ### The grammar -/

theorem opensMembership_eq_false (h : ∀ token ∈ tokens, token.kind ≠ .openParen) :
    opensMembership tokens = false := by
  unfold opensMembership
  split
  · exact absurd rfl (h _ (List.mem_cons_of_mem _ (List.mem_cons_of_mem _ List.mem_cons_self)))
  · rfl

/-- Without functions and opening parentheses, a list of conditions is read exactly as its grammar says,
and if the grammar does not say how, then it is invalid. -/
theorem readConditions_eq_ok_iff (statements : List Token → Statements) {tokens : List Token}
    (h : ∀ token ∈ tokens, token.kind ≠ .func ∧ token.kind ≠ .openParen) :
    (∀ nodes count, readConditions statements tokens = .ok (nodes, count) ↔
      ReadAs tokens nodes count) ∧
    ((¬∃ nodes count, ReadAs tokens nodes count) →
      readConditions statements tokens = .error .invalidCondition) := by
  have hreads : ∀ {nodes count}, ReadAs tokens nodes count →
      readConditions statements tokens = .ok (nodes, count) :=
    fun hread ↦ readLinked_of_readAs hread (Nat.le_refl _)
  have hfails := readLinked_of_no_func statements (fun token htoken ↦ (h token htoken).1)
    (Nat.le_refl tokens.length)
  rw [← opensMembership_eq_false fun token htoken ↦ (h token htoken).2] at hfails
  refine ⟨fun nodes count ↦ ⟨fun hread ↦ ?_, hreads⟩, hfails.resolve_left⟩
  rcases hfails with ⟨others, taken, hothers⟩ | hfails
  · rw [hreads hothers] at hread
    cases hread
    exact hothers
  · rw [readConditions, hfails] at hread
    cases hread

/-- `a between 1 and 2 and not b = 3 or` -/
def danglingTokens : List Token :=
  [⟨.identifier, "a"⟩, ⟨.betweenWord, "between"⟩, ⟨.number, "1"⟩, ⟨.link, "and"⟩, ⟨.number, "2"⟩,
    ⟨.link, "and"⟩, ⟨.notWord, "not"⟩, ⟨.identifier, "b"⟩, ⟨.compare, "="⟩, ⟨.number, "3"⟩, ⟨.link, "or"⟩]

theorem readConditions_danglingTokens_iff :
    (∀ token ∈ danglingTokens, token.kind ≠ .func ∧ token.kind ≠ .openParen) ∧
      (∀ nodes count, readConditions Read.statements danglingTokens = .ok (nodes, count) ↔
        ReadAs danglingTokens nodes count) ∧
      readConditions Read.statements danglingTokens = .ok
        ([.condition [.plain .identifier "a", .between "between", .plain .number "1", .link "and",
            .plain .number "2"], .link "and",
          .condition [.not "not", .plain .identifier "b", .operator "=", .plain .number "3"],
          .link "or"], 11) := by
  have hkinds : ∀ token ∈ danglingTokens, token.kind ≠ .func ∧ token.kind ≠ .openParen := by decide
  exact ⟨hkinds, (readConditions_eq_ok_iff Read.statements hkinds).1, rfl⟩

end Read

end SqlLayout
