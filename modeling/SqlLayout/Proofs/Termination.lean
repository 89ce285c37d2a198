import SqlLayout.Proofs.Read.Loops

/-!
# Where reading ends

The reading of tokens can only go on for ever inside the parentheses of a membership test or of the columns
of an INSERT.  It is safe if these hold values and commas up to where they are closed, up to the end of the
tokens or, in a membership test, up to a query, and if no link stands behind a membership test.  Behind a link
the next condition would be taken for a membership test as well.
-/

namespace SqlLayout.Read

open Loop

def opensTest (left op paren : Token) : Bool :=
  left.kind.isColumn && (op.kind = .inWord || op.kind = .compare) && paren.kind = .openParen

def opensColumns (insert table paren : Token) : Bool :=
  insert.kind = .insertWord && table.kind = .identifier && paren.kind = .openParen

/-- Whether a membership test whose parenthesis is open ends behind its values, or never is closed, or holds
a query. -/
def closesTest (inner : List Token) : Bool :=
  match inner.dropWhile Test.isListed with
  | [] => true
  | next :: more => next.kind = .selectWord || (next.kind = .closeParen && Token.opens (· ≠ .link) more)

def closesColumns (inner : List Token) : Bool :=
  Token.opens (· = .closeParen) (inner.dropWhile Test.isListed)

def startsSafely : List Token → Bool
  | first :: second :: third :: inner =>
    (!opensTest first second third || closesTest inner) &&
      (!opensColumns first second third || closesColumns inner)
  | _ => true

def isSafe : List Token → Bool
  | [] => true
  | token :: rest => startsSafely (token :: rest) && isSafe rest

def Finishes {α : Type} (outcome : Except Fault α) : Prop :=
  outcome ≠ .error .endless

structure FinishesUnlinked (tokens : List Token) (outcome : Except Fault (Node × Nat)) : Prop where
  finishes : Finishes outcome
  unlinked : ∀ found count, outcome = .ok (found, count) → Token.opens (· ≠ .link) (tokens.drop count) = true

section Outcomes

variable {α β : Type} {first : Except Fault α}

theorem finishes_ok (result : α) : Finishes (.ok result) := by
  intro h
  cases h

theorem finishes_error {fault : Fault} (h : fault ≠ .endless) : Finishes (.error fault : Except Fault α) := by
  intro herror
  cases herror
  exact h rfl

theorem Finishes.bind {next : α → Except Fault β} (h : Finishes first)
    (hnext : ∀ found, first = .ok found → Finishes (next found)) : Finishes (first >>= next) := by
  cases first with
  | error fault =>
    intro hbind
    cases hbind
    exact h rfl
  | ok found => exact hnext found rfl

theorem Finishes.map {f : α → β} (h : Finishes first) : Finishes (first.map f) := by
  cases first with
  | error fault =>
    intro hmap
    cases hmap
    exact h rfl
  | ok found => exact finishes_ok _

end Outcomes

variable {tokens rest more inner : List Token} {token : Token} {bound count limit : Nat}

/-! ### Readers that always finish -/

theorem finishes_readList {item : List Token → Except Fault (List Node × Nat)}
    {separator : List Token → Option (List Node × List Token)} (hitem : ∀ tokens, Finishes (item tokens)) :
    Finishes (readList item separator bound tokens) := by
  induction bound generalizing tokens with
  | zero => exact finishes_ok _
  | succ bound ih =>
    cases tokens with
    | nil => exact finishes_ok _
    | cons token rest =>
      refine (hitem _).bind fun found _ ↦ ?_
      split
      · exact finishes_ok _
      · exact ih.map

theorem finishes_readArgs {first : Bool} : Finishes (readArgs bound first tokens) := by
  intro h
  exact absurd (readArgs_faults h) (by decide)

theorem finishes_readCall : Finishes (readCall tokens) := by
  unfold readCall
  repeat' split
  all_goals first
    | exact finishes_readArgs.bind fun _ _ ↦ finishes_ok _
    | exact finishes_error (by simp)

theorem finishes_readNamed : Finishes (readNamed tokens) := by
  unfold readNamed
  split <;> first | exact finishes_ok _ | exact finishes_error (by simp)

theorem finishes_selectItem (tokens : List Token) : Finishes (selectItem tokens) := by
  refine Finishes.map ?_
  unfold readSelectItem
  split
  · exact finishes_readNamed
  · exact finishes_readNamed
  · exact finishes_readCall
  · exact finishes_ok _
  · exact finishes_error (by simp)

theorem finishes_groupItem (tokens : List Token) : Finishes (groupItem tokens) := by
  unfold groupItem
  repeat' split
  all_goals first | exact finishes_ok _ | exact finishes_error (by simp)

theorem finishes_orderItem (tokens : List Token) : Finishes (orderItem tokens) := by
  unfold orderItem
  repeat' split
  all_goals first | exact finishes_ok _ | exact finishes_error (by simp)

theorem finishes_readLimit : Finishes (readLimit tokens) := by
  unfold readLimit readPlainLimit
  repeat' split
  all_goals first | exact finishes_ok _ | exact finishes_error (by simp)

theorem finishes_readCallOnLeft : Finishes (readCallOnLeft tokens) := by
  unfold readCallOnLeft
  split
  · refine finishes_readCall.bind fun found _ ↦ ?_
    dsimp only
    split
    · exact finishes_ok _
    · exact finishes_readCall.bind fun _ _ ↦ finishes_ok _
    · exact finishes_ok _
  · exact finishes_ok _

theorem finishes_readCallOnRight : Finishes (readCallOnRight tokens) := by
  unfold readCallOnRight
  split
  · exact finishes_readCall.bind fun _ _ ↦ finishes_ok _
  · exact finishes_ok _

theorem finishes_readComparisons (tokens : List Token) : Finishes (readComparisons tokens) :=
  finishes_readCallOnRight.bind fun _ _ ↦ finishes_readCallOnLeft.bind fun _ _ ↦ finishes_ok _

theorem finishes_readFromPart : Finishes (readFromPart tokens) := by
  unfold readFromPart
  split
  · exact finishes_readNamed.bind fun _ _ ↦ finishes_ok _
  · exact finishes_readNamed.bind fun _ _ ↦ finishes_ok _
  · exact finishes_ok _
  · rw [readJoinConditions_eq_readList]
    exact (finishes_readList finishes_readComparisons).bind fun _ _ ↦ finishes_ok _
  · exact finishes_ok _
  · exact finishes_ok _

theorem finishes_readFromParts : Finishes (readFromParts bound tokens) := by
  induction bound generalizing tokens with
  | zero => exact finishes_ok _
  | succ bound ih =>
    refine finishes_readFromPart.bind fun part _ ↦ ?_
    split
    · exact finishes_ok _
    · exact ih.bind fun _ _ ↦ finishes_ok _

theorem finishes_readRows {row : List Node} : Finishes (readRows bound row tokens) := by
  induction bound generalizing tokens row with
  | zero => exact finishes_error (by simp)
  | succ bound ih =>
    cases tokens with
    | nil => exact finishes_error (by simp)
    | cons token rest =>
      rw [readRows_succ]
      unfold readAfterValue
      split
      · exact finishes_error (by simp)
      · exact ih.map
      · exact ih.map
      · exact finishes_ok _
      · exact finishes_error (by simp)

/-! ### Safe tokens -/

theorem isSafe_drop (h : isSafe tokens = true) (count : Nat) : isSafe (tokens.drop count) = true := by
  induction count generalizing tokens with
  | zero => exact h
  | succ count ih =>
    cases tokens with
    | nil => exact h
    | cons token rest => exact ih (Bool.and_eq_true_iff.mp h).2

theorem isSafe_of_suffix (h : isSafe tokens = true) (hsuffix : more <:+ tokens) : isSafe more = true := by
  obtain ⟨front, rfl⟩ := hsuffix
  have hdrop := isSafe_drop h front.length
  rwa [List.drop_left] at hdrop

theorem closesTest_of_isSafe {left op paren : Token} (h : isSafe (left :: op :: paren :: inner) = true)
    (hopens : opensTest left op paren = true) : closesTest inner = true := by
  simp only [isSafe, startsSafely, hopens, Bool.not_true, Bool.false_or, Bool.and_eq_true] at h
  exact h.1.1

theorem closesColumns_of_isSafe {insert table paren : Token}
    (h : isSafe (insert :: table :: paren :: inner) = true)
    (hopens : opensColumns insert table paren = true) : closesColumns inner = true := by
  simp only [isSafe, startsSafely, hopens, Bool.not_true, Bool.false_or, Bool.and_eq_true] at h
  exact h.1.2

theorem closesTest_cons (h : Test.isListed token = true) : closesTest (token :: rest) = closesTest rest := by
  simp only [closesTest, List.dropWhile_cons, h, if_true]

theorem closesColumns_cons (h : Test.isListed token = true) :
    closesColumns (token :: rest) = closesColumns rest := by
  simp only [closesColumns, List.dropWhile_cons, h, if_true]

theorem isListed_of_value? {item : Node} (h : value? token = some item) : Test.isListed token = true := by
  simp [Test.isListed, isValue_of_value? h]

theorem isListed_eq_false (hvalue : value? token = none) (hcomma : token.kind ≠ .comma) :
    Test.isListed token = false := by
  rw [value?_eq] at hvalue
  split at hvalue
  · cases hvalue
  · next hkind => simpa [Test.isListed, hcomma] using hkind

theorem finishes_readColumns (h : closesColumns tokens = true) : Finishes (readColumns tokens) := by
  induction tokens with
  | nil => exact finishes_error (by simp)
  | cons token rest ih =>
    cases hvalue : value? token with
    | some column =>
      rw [closesColumns_cons (isListed_of_value? hvalue)] at h
      rw [readColumns_of_value hvalue]
      exact (ih h).map
    | none =>
      rw [readColumns_of_not_value hvalue]
      split
      · next hcomma =>
        rw [closesColumns_cons (by simp [Test.isListed, hcomma])] at h
        exact (ih h).map
      · exact finishes_ok _
      · next hcomma hclose =>
        simp [closesColumns, isListed_eq_false hvalue hcomma] at h
        exact absurd h hclose

def QueriesFinish (limit : Nat) : Prop :=
  ∀ tokens : List Token, tokens.length ≤ limit → isSafe tokens = true →
    (statements tokens).fault ≠ some .endless

theorem FinishesUnlinked.map {outcome : Except Fault (Node × Nat)} {f : Node × Nat → Node × Nat}
    (h : FinishesUnlinked more outcome) (hmore : ∀ found, tokens.drop (f found).2 = more.drop found.2) :
    FinishesUnlinked tokens (outcome.map f) := by
  refine ⟨h.finishes.map, fun node count hok ↦ ?_⟩
  obtain ⟨found, hfound, hnode⟩ := map_eq_ok.mp hok
  obtain rfl : (f found).2 = count := congrArg Prod.snd hnode
  rw [hmore]
  exact h.unlinked found.1 found.2 hfound

theorem finishesUnlinked_error {fault : Fault} (h : fault ≠ .endless) :
    FinishesUnlinked tokens (.error fault) := by
  refine ⟨finishes_error h, fun found count hok ↦ ?_⟩
  cases hok

/-- The values of a safe membership test are read to the end. -/
theorem finishes_readGroup (hqueries : QueriesFinish limit) (hlimit : tokens.length ≤ limit)
    (hsafe : isSafe tokens = true) (h : closesTest tokens = true) (items : List Node) :
    FinishesUnlinked tokens (readGroup statements bound (.group items) tokens) := by
  induction bound generalizing tokens items with
  | zero => exact finishesUnlinked_error (by simp)
  | succ bound ih =>
    cases tokens with
    | nil => exact finishesUnlinked_error (by simp)
    | cons token rest =>
      have hrest := ih (Nat.le_of_succ_le hlimit) (Bool.and_eq_true_iff.mp hsafe).2
      cases hvalue : value? token with
      | some item =>
        rw [closesTest_cons (isListed_of_value? hvalue)] at h
        rw [readGroup_of_value hvalue]
        exact (hrest h _).map fun _ ↦ rfl
      | none =>
        rw [readGroup_of_not_value hvalue]
        split
        · next hcomma =>
          rw [closesTest_cons (by simp [Test.isListed, hcomma])] at h
          exact (hrest h _).map fun _ ↦ rfl
        · next hclose =>
          have hlisted := isListed_eq_false hvalue (by simp [hclose])
          simp only [closesTest, List.dropWhile_cons, hlisted, Bool.false_eq_true, if_false, hclose] at h
          refine ⟨finishes_ok _, fun found count hok ↦ ?_⟩
          cases hok
          exact h
        · refine finishesUnlinked_error fun hendless ↦ ?_
          cases hfault : (statements (token :: rest)).fault with
          | none =>
            rw [hfault] at hendless
            cases hendless
          | some fault =>
            rw [hfault] at hendless
            cases hendless
            exact hqueries _ hlimit hsafe hfault
        · next hcomma hclose hselect =>
          have hlisted := isListed_eq_false hvalue hcomma
          simp only [closesTest, List.dropWhile_cons, hlisted, Bool.false_eq_true, if_false,
            Bool.or_eq_true, Bool.and_eq_true, decide_eq_true_eq] at h
          rcases h with h | ⟨h, -⟩
          · exact absurd h hselect
          · exact absurd h hclose

theorem finishes_readOperand : Finishes (readOperand token) := by
  unfold readOperand
  repeat' split
  all_goals first | exact finishes_ok _ | exact finishes_error (by simp)

theorem finishes_readMembership (hqueries : QueriesFinish limit) (hlimit : tokens.length ≤ limit)
    (hsafe : isSafe tokens = true) (hopens : opensMembership tokens = true) :
    FinishesUnlinked tokens (readMembership statements tokens) := by
  unfold opensMembership at hopens
  split at hopens
  · next left op paren a b rest =>
    have hlength : (a :: b :: rest).length ≤ limit := by
      simp only [List.length_cons] at hlimit ⊢
      omega
    have hcloses : closesTest (a :: b :: rest) = true :=
      closesTest_of_isSafe hsafe (by simpa [opensTest] using hopens)
    have hgroup : FinishesUnlinked (a :: b :: rest)
        (readGroup statements (rest.length + 3) (.group []) (a :: b :: rest)) :=
      finishes_readGroup hqueries hlength (isSafe_drop hsafe 3) hcloses []
    cases hoperand : readOperand left with
    | error fault =>
      simp only [readMembership, hoperand]
      refine finishesUnlinked_error fun hfault ↦ ?_
      rw [hfault] at hoperand
      exact finishes_readOperand hoperand
    | ok operand =>
      simp only [readMembership, hoperand, bind, Except.bind]
      exact hgroup.map fun _ ↦ rfl
  · cases hopens

/-- Where a membership test starts no other condition does. -/
theorem readCondition_eq_readMembership (h : opensMembership tokens = true) :
    readCondition statements true tokens = readMembership statements tokens := by
  unfold opensMembership at h
  split at h
  · next left op paren a b rest =>
    obtain ⟨kind, name⟩ := left
    obtain ⟨other, word⟩ := op
    simp only [Bool.and_eq_true, Bool.or_eq_true, decide_eq_true_eq] at h
    obtain ⟨hcolumn, rfl | rfl⟩ := h
    all_goals
      cases kind with
      | identifier | number => rfl
      | _ => cases hcolumn
  · cases h

theorem finishes_readNegatedCall {word : String} : Finishes (readNegatedCall word tokens) := by
  refine finishes_readCall.bind fun found _ ↦ ?_
  dsimp only
  split
  · exact finishes_readOperand.bind fun _ _ ↦ finishes_ok _
  · exact finishes_error (by simp)

theorem finishes_linkedItem (tokens : List Token) : Finishes (linkedItem statements false tokens) := by
  refine Finishes.map ?_
  rw [readCondition_eq]
  split
  · exact finishes_ok _
  · split
    · exact finishes_readNegatedCall
    · exact finishes_error (by simp)

theorem finishes_readConditions (hqueries : QueriesFinish limit) (hlimit : tokens.length ≤ limit)
    (hsafe : isSafe tokens = true) : Finishes (readConditions statements tokens) := by
  rw [readConditions, readLinked_eq_readList]
  cases hopens : opensMembership tokens with
  | false => exact finishes_readList finishes_linkedItem
  | true =>
    obtain ⟨hfinishes, hunlinked⟩ := finishes_readMembership hqueries hlimit hsafe hopens
    rw [← readCondition_eq_readMembership hopens] at hfinishes hunlinked
    cases tokens with
    | nil => exact finishes_ok _
    | cons token rest =>
      rw [List.length_cons, readList]
      refine hfinishes.map.bind fun found hfound ↦ ?_
      obtain ⟨⟨node, count⟩, hcondition, rfl⟩ := map_eq_ok.mp hfound
      have hnone : link? ((token :: rest).drop count) = none := by
        have hnot := hunlinked node count hcondition
        cases hdrop : (token :: rest).drop count with
        | nil => rfl
        | cons next more =>
          rw [hdrop] at hnot
          obtain ⟨kind, text⟩ := next
          cases kind with
          | link => cases hnot
          | _ => rfl
      simp only [single, hnone]
      exact finishes_ok _

/-! ### Statements -/

theorem finishes_readSource (hqueries : QueriesFinish limit) (hlimit : tokens.length ≤ limit)
    (hsafe : isSafe tokens = true) {word table : String} {columns : List Node} :
    Finishes (readSource statements word table columns tokens) := by
  unfold readSource
  split
  · exact finishes_error (by simp)
  · exact finishes_readRows.bind fun _ _ ↦ finishes_ok _
  · dsimp only
    split
    · next hfault =>
      intro hendless
      cases hendless
      exact hqueries _ hlimit hsafe hfault
    · exact finishes_ok _
  · exact finishes_ok _

theorem finishes_readInsert {word : String} (hqueries : QueriesFinish limit) (hlimit : rest.length ≤ limit)
    (hsafe : isSafe (⟨.insertWord, word⟩ :: rest) = true) :
    Finishes (readInsert statements (⟨.insertWord, word⟩ :: rest)) := by
  rcases rest with _ | ⟨table, rest⟩
  · exact finishes_error (by simp)
  · rw [readInsert_eq]
    split
    · next htable =>
      have hcolumns : Finishes (readColumnList rest) := by
        unfold readColumnList
        split
        · exact finishes_error (by simp)
        · exact (finishes_readColumns (closesColumns_of_isSafe hsafe (by simp [opensColumns, htable]))).map
        · exact finishes_ok _
      refine hcolumns.bind fun found _ ↦ Finishes.map ?_
      have hrest : isSafe rest = true := isSafe_drop hsafe 2
      refine finishes_readSource hqueries ?_ (isSafe_drop hrest found.2)
      simp only [List.length_cons, List.length_drop] at hlimit ⊢
      omega
    · exact finishes_error (by simp)

theorem finishes_readSelect : Finishes (readSelect tokens) := by
  unfold readSelect
  split
  · exact finishes_error (by simp)
  · rw [readSelectItems_eq_readList]
    exact (finishes_readList finishes_selectItem).bind fun _ _ ↦ finishes_ok _

theorem finishes_readOrderBy : Finishes (readOrderBy tokens) := by
  rw [readOrderBy, readOrderItems_eq_readList]
  exact (finishes_readList finishes_orderItem).bind fun _ _ ↦ finishes_ok _

theorem finishes_readGroupBy : Finishes (readGroupBy tokens) := by
  rw [readGroupBy, readGroupItems_eq_readList (Nat.le_refl _)]
  refine (finishes_readList finishes_groupItem).bind fun _ _ ↦ ?_
  dsimp only
  split <;> exact finishes_ok _

theorem finishes_readStatement (hqueries : QueriesFinish rest.length)
    (hsafe : isSafe (token :: rest) = true) : Finishes (readStatement statements (token :: rest)) := by
  have hrest : isSafe rest = true := isSafe_drop hsafe 1
  obtain ⟨kind, text⟩ := token
  unfold readStatement
  cases kind with
  | groupWord => exact finishes_readGroupBy
  | fromWord => exact finishes_readFromParts.bind fun _ _ ↦ finishes_ok _
  | func => exact finishes_readCall
  | havingWord | whereWord =>
    exact (finishes_readConditions hqueries (Nat.le_refl _) hrest).bind fun _ _ ↦ finishes_ok _
  | insertWord => exact finishes_readInsert hqueries (Nat.le_refl _) hsafe
  | limitWord => exact finishes_readLimit
  | orderWord => exact finishes_readOrderBy
  | selectWord => exact finishes_readSelect
  | semicolon => exact finishes_ok _
  | _ => exact finishes_error (by simp)

/-- The queries in a statement have fewer tokens than the statement. -/
theorem queriesFinish (limit : Nat) : QueriesFinish limit := by
  induction limit with
  | zero =>
    intro tokens htokens _
    obtain rfl := List.eq_nil_of_length_eq_zero (Nat.le_zero.mp htokens)
    simp [statements, readStatements]
  | succ limit ih =>
    intro tokens htokens hsafe
    cases tokens with
    | nil => simp [statements, readStatements]
    | cons token rest =>
      have hrest : QueriesFinish rest.length := fun more hmore ↦
        ih more (Nat.le_trans hmore (Nat.le_of_succ_le_succ htokens))
      have hfinishes := finishes_readStatement hrest hsafe
      rw [statements_cons]
      cases hread : readStatement statements (token :: rest) with
      | error fault =>
        rw [hread] at hfinishes
        intro hfault
        cases hfault
        exact hfinishes rfl
      | ok found =>
        have hpos := readStatement_count_pos hread
        refine ih _ ?_ (isSafe_drop hsafe found.2)
        simp only [List.length_drop, List.length_cons] at htokens ⊢
        omega

/-- Reading safe tokens ends.  No reader is cut off by its bound, and the two loops that could stay for ever end
at each place of the tokens where they are started.  What their readers say is what the loops end with, and
they say that the work never ends only where it does not. -/
theorem parse_ends_of_isSafe {tokens : List Token} (h : isSafe tokens = true) :
    parse tokens ≠ .error .endless ∧
    (∀ more, more <:+ tokens → IsUncut more) ∧
    (∀ left op paren inner, left :: op :: paren :: inner <:+ tokens → opensTest left op paren = true →
      Ends (groupPass inner) (0, .group []) (readGroup statements inner.length (.group []) inner)) ∧
    (∀ insert table paren inner, insert :: table :: paren :: inner <:+ tokens →
      opensColumns insert table paren = true → Ends (columnsPass inner) (0, []) (readColumns inner)) ∧
    ∀ inner, Mirrors (groupPass inner) (0, .group []) (readGroup statements inner.length (.group []) inner) ∧
      Mirrors (columnsPass inner) (0, []) (readColumns inner) := by
  refine ⟨?_, fun more _ ↦ isUncut more, ?_, ?_,
    fun inner ↦ ⟨mirrors_readGroup inner, mirrors_readColumns inner⟩⟩
  · intro hparse
    unfold parse at hparse
    split at hparse
    · next hfault =>
      cases hparse
      exact queriesFinish _ tokens (Nat.le_refl _) h hfault
    · cases hparse
  · intro left op paren inner hsuffix hopens
    have hsafe := isSafe_of_suffix h hsuffix
    have hgroup : FinishesUnlinked inner (readGroup statements inner.length (.group []) inner) :=
      finishes_readGroup (queriesFinish _) (Nat.le_refl _) (isSafe_drop hsafe 3)
        (closesTest_of_isSafe hsafe hopens) []
    exact (mirrors_readGroup inner).ends hgroup.finishes
  · intro insert table paren inner hsuffix hopens
    have hsafe := isSafe_of_suffix h hsuffix
    exact (mirrors_readColumns inner).ends (finishes_readColumns (closesColumns_of_isSafe hsafe hopens))

/-- `where a in (1, select b where c = (d)) insert t (e,` -/
def unclosedColumns : List Token :=
  [⟨.whereWord, "where"⟩, ⟨.identifier, "a"⟩, ⟨.inWord, "in"⟩, ⟨.openParen, "("⟩, ⟨.number, "1"⟩,
    ⟨.comma, ","⟩, ⟨.selectWord, "select"⟩, ⟨.identifier, "b"⟩, ⟨.whereWord, "where"⟩,
    ⟨.identifier, "c"⟩, ⟨.compare, "="⟩, ⟨.openParen, "("⟩, ⟨.identifier, "d"⟩, ⟨.closeParen, ")"⟩,
    ⟨.closeParen, ")"⟩, ⟨.insertWord, "insert"⟩, ⟨.identifier, "t"⟩, ⟨.openParen, "("⟩,
    ⟨.identifier, "e"⟩, ⟨.comma, ","⟩]

theorem parse_unclosedColumns :
    isSafe unclosedColumns = true ∧ parse unclosedColumns ≠ .error .endless ∧
      parse unclosedColumns = .error .strayParenthesis ∧
      Ends (groupPass (unclosedColumns.drop 4)) (0, .group []) (.error .strayParenthesis) ∧
      Ends (columnsPass (unclosedColumns.drop 18)) (0, []) (.error .endOfTokens) := by
  have hsafe : isSafe unclosedColumns = true := by decide
  obtain ⟨hparse, -, hgroups, hcolumns, -⟩ := parse_ends_of_isSafe hsafe
  exact ⟨hsafe, hparse, rfl, hgroups _ _ _ _ (List.drop_suffix 1 unclosedColumns) rfl,
    hcolumns _ _ _ _ (List.drop_suffix 15 unclosedColumns) rfl⟩

end SqlLayout.Read
