import SqlLayout.Proofs.Read.Clauses
import SqlLayout.Read.Joins

/-!
# Reading FROM clauses back

After an ON the comparisons between two links are read in three attempts, one for each form.  What is
read there depends on how many of the forms are past, so the conditions of a join are read back from any
stage on.
-/

namespace SqlLayout.Read

open Text Token Spelling Regular

variable {tokens front rest : List Token} {last : Bool} {count stage bound : Nat} {left right : Node} {op : String}
  {parts : List Node}

/-! ### The conditions of a join -/

/-- The comparisons that are read at the front once the forms up to `stage` are past. -/
def readRemaining : (stage : Nat) → List Token → Except Fault (List Node × Nat)
  | 0, tokens => readComparisons tokens
  | 1, tokens => do
    let (right, m) ← readCallOnRight tokens
    let (left, k) ← readCallOnLeft (tokens.drop m)
    .ok (right ++ left, m + k)
  | 2, tokens => readCallOnLeft tokens
  | _, _ => .ok ([], 0)

/-- Conditions of `count` tokens in front of what was read. -/
def prepend (front : List Node) (count : Nat) (found : Except Fault (List Node × Nat)) :
    Except Fault (List Node × Nat) :=
  found.map fun (nodes, taken) ↦ (front ++ nodes, count + taken)

@[simp] theorem prepend_nil (found : Except Fault (List Node × Nat)) : prepend [] 0 found = found := by
  cases found <;> simp [prepend, Except.map]

theorem readRemaining_zero {names : List Node} (h : readNameComparison tokens = (names, count)) :
    readRemaining 0 tokens = prepend names count (readRemaining 1 (tokens.drop count)) := by
  simp only [readRemaining, readComparisons, h, bind, Except.bind, prepend]
  cases hright : readCallOnRight (tokens.drop count) with
  | error fault => rfl
  | ok found =>
    simp only [List.drop_drop]
    cases readCallOnLeft (tokens.drop (count + found.2)) <;> simp [Except.map, Nat.add_assoc]

theorem readRemaining_one {nodes : List Node} (h : readCallOnRight tokens = .ok (nodes, count)) :
    readRemaining 1 tokens = prepend nodes count (readRemaining 2 (tokens.drop count)) := by
  simp only [readRemaining, h, bind, Except.bind, prepend]
  cases readCallOnLeft (tokens.drop count) <;> rfl

/-- Tokens that start neither with a name nor with a function start no comparison. -/
theorem readRemaining_of_opens (stage : Nat)
    (h : opens (fun kind ↦ kind ≠ .identifier && kind ≠ .func) tokens = true) :
    readRemaining stage tokens = .ok ([], 0) := by
  have hnames : readNameComparison tokens = ([], 0) := by
    unfold readNameComparison
    split
    · cases h
    · rfl
  have hright : readCallOnRight tokens = .ok ([], 0) := by
    unfold readCallOnRight
    split
    · cases h
    · rfl
  have hleft : readCallOnLeft tokens = .ok ([], 0) := by
    unfold readCallOnLeft
    split
    · cases h
    · rfl
  have hone : readRemaining 1 tokens = .ok ([], 0) := by
    rw [readRemaining_one hright, prepend_nil]
    exact hleft
  match stage with
  | 0 =>
    rw [readRemaining_zero hnames, prepend_nil]
    exact hone
  | 1 => exact hone
  | 2 => exact hleft
  | stage + 3 => rfl

theorem exists_name {node : Node} (h : isPlainName node = true) :
    ∃ text, node = .plain .identifier text := by
  obtain ⟨t, rfl, hkind, hplain⟩ := exists_of_isPlainName h
  exact ⟨t.text, by rw [← hkind, plain_of_isPlain hplain]⟩

/-- The comparison of two names is read first. -/
theorem readRemaining_names (hop : upper op ≠ "IN") (hleft : isPlainName left = true)
    (hright : isPlainName right = true) (more : List Token) :
    readRemaining 0 (conditionTokens (.condition [left, .operator op, right]) ++ more) =
      prepend [(Node.condition [left, .operator op, right]).upperCased]
        (conditionTokens (.condition [left, .operator op, right])).length
        (readRemaining 1 more) := by
  obtain ⟨left, rfl⟩ := exists_name hleft
  obtain ⟨right, rfl⟩ := exists_name hright
  have htokens : conditionTokens
      (.condition [.plain .identifier left, .operator op, .plain .identifier right]) =
      [⟨.identifier, left⟩, ⟨.compare, upper op⟩, ⟨.identifier, right⟩] := by
    simp [conditionTokens, partTokens, Node.plain, termToken, TermKind.tokenKind, hop]
  rw [htokens, readRemaining_zero rfl]
  rfl

/-- The comparison of a name with a call is read next. -/
theorem readRemaining_callOnRight (hop : upper op ≠ "IN") (hleft : isPlainName left = true)
    (hright : isCall right = true) (hstage : stage ≤ 1) {more : List Token}
    (hmore : opens Kind.endsAlias more = true) :
    readRemaining stage (conditionTokens (.condition [left, .operator op, right]) ++ more) =
      prepend [(Node.condition [left, .operator op, right]).upperCased]
        (conditionTokens (.condition [left, .operator op, right])).length
        (readRemaining 2 more) := by
  obtain ⟨left, rfl⟩ := exists_name hleft
  obtain ⟨name, args, asWord, aliasName, rfl, harg⟩ := exists_of_isCall hright
  have hcall := readCall_callTokens name harg hmore
  have htokens : conditionTokens
      (.condition [.plain .identifier left, .operator op, .call name args asWord aliasName]) =
      ⟨.identifier, left⟩ :: ⟨.compare, upper op⟩ ::
        callTokens (.call name args asWord aliasName) := by
    simp [conditionTokens, partTokens, Node.plain, termToken, TermKind.tokenKind, hop]
  obtain ⟨tail, htail⟩ : ∃ tail, callTokens (.call name args asWord aliasName) ++ more =
      ⟨.func, upper name⟩ :: tail := ⟨_, rfl⟩
  have hread : readCallOnRight (⟨.identifier, left⟩ :: ⟨.compare, upper op⟩ ::
      (callTokens (.call name args asWord aliasName) ++ more)) =
      .ok ([(Node.condition [.plain .identifier left, .operator op,
        .call name args asWord aliasName]).upperCased],
        (callTokens (.call name args asWord aliasName)).length + 2) := by
    rw [htail, readCallOnRight, ← htail, hcall]
    rfl
  have hone := readRemaining_one hread
  rw [List.drop_succ_cons, List.drop_succ_cons, List.drop_left] at hone
  rw [htokens]
  obtain rfl | rfl : stage = 0 ∨ stage = 1 := by omega
  · rw [readRemaining_zero (show readNameComparison _ = ([], 0) by
      rw [List.cons_append, List.cons_append, htail]
      rfl), prepend_nil]
    exact hone
  · exact hone

theorem readRemaining_func (hstage : stage ≤ 2) (name : String) (more : List Token) :
    readRemaining stage (⟨.func, name⟩ :: more) = readCallOnLeft (⟨.func, name⟩ :: more) := by
  have hone : readRemaining 1 (⟨.func, name⟩ :: more) = readCallOnLeft (⟨.func, name⟩ :: more) :=
    (readRemaining_one rfl).trans (prepend_nil _)
  obtain rfl | rfl | rfl : stage = 0 ∨ stage = 1 ∨ stage = 2 := by omega
  · rw [readRemaining_zero (show readNameComparison _ = ([], 0) from rfl), prepend_nil]
    exact hone
  · exact hone
  · rfl

/-- The comparison of a call with a name is read last. -/
theorem readRemaining_callOnLeft (hop : upper op ≠ "IN") (hleft : isCall left = true)
    (hright : isPlainName right = true) (hstage : stage ≤ 2) (more : List Token) :
    readRemaining stage (conditionTokens (.condition [left, .operator op, right]) ++ more) =
      prepend [(Node.condition [left, .operator op, right]).upperCased]
        (conditionTokens (.condition [left, .operator op, right])).length
        (readRemaining 3 more) := by
  obtain ⟨name, args, asWord, aliasName, rfl, harg⟩ := exists_of_isCall hleft
  obtain ⟨right, rfl⟩ := exists_name hright
  have htokens : conditionTokens
      (.condition [.call name args asWord aliasName, .operator op, .plain .identifier right]) =
      callTokens (.call name args asWord aliasName) ++
        [⟨.compare, upper op⟩, ⟨.identifier, right⟩] := by
    simp [conditionTokens, partTokens, Node.plain, termToken, TermKind.tokenKind, hop]
  have hcall : readCall (callTokens (.call name args asWord aliasName) ++
      ⟨.compare, upper op⟩ :: ⟨.identifier, right⟩ :: more) = _ :=
    readCall_callTokens name harg rfl
  obtain ⟨tail, htail⟩ : ∃ tail, callTokens (.call name args asWord aliasName) ++
      ⟨.compare, upper op⟩ :: ⟨.identifier, right⟩ :: more = ⟨.func, upper name⟩ :: tail := ⟨_, rfl⟩
  rw [htokens, List.append_assoc, List.cons_append, List.cons_append, List.nil_append, htail,
    readRemaining_func hstage, readCallOnLeft, ← htail, hcall]
  simp [bind, Except.bind, prepend, Except.map, readRemaining, Node.upperCased, Node.upperCasedEach,
    Node.plain]

/-- The comparison of two calls at the end of a text is read with one token more than there is. -/
theorem readRemaining_calls (hop : upper op ≠ "IN") (hleft : isCall left = true)
    (hright : isCall right = true) (hstage : stage ≤ 2) :
    readRemaining stage (conditionTokens (.condition [left, .operator op, right])) =
      .ok ([(Node.condition [left, .operator op, right]).upperCased],
        (conditionTokens (.condition [left, .operator op, right])).length + 1) := by
  obtain ⟨name, args, asWord, aliasName, rfl, harg⟩ := exists_of_isCall hleft
  obtain ⟨other, others, otherAs, otherName, rfl, hother⟩ := exists_of_isCall hright
  have htokens : conditionTokens (.condition [.call name args asWord aliasName, .operator op,
      .call other others otherAs otherName]) =
      callTokens (.call name args asWord aliasName) ++
        ⟨.compare, upper op⟩ :: callTokens (.call other others otherAs otherName) := by
    simp [conditionTokens, partTokens, hop]
  have hcall : readCall (callTokens (.call name args asWord aliasName) ++
      ⟨.compare, upper op⟩ :: callTokens (.call other others otherAs otherName)) = _ :=
    readCall_callTokens name harg rfl
  have hbehind : readCall (callTokens (.call other others otherAs otherName)) = _ :=
    (congrArg readCall (List.append_nil _).symm).trans (readCall_callTokens other hother rfl)
  obtain ⟨tail, htail⟩ : ∃ tail, callTokens (.call name args asWord aliasName) ++
      ⟨.compare, upper op⟩ :: callTokens (.call other others otherAs otherName) =
      ⟨.func, upper name⟩ :: tail := ⟨_, rfl⟩
  obtain ⟨more, hmore⟩ : ∃ more, callTokens (.call other others otherAs otherName) =
      ⟨.func, upper other⟩ :: more := ⟨_, rfl⟩
  rw [htokens, htail, readRemaining_func hstage, readCallOnLeft, ← htail, hcall]
  rw [hmore] at hbehind
  simp [bind, Except.bind, hmore, hbehind, Node.upperCased, Node.upperCasedEach]
  omega

/-- What is read of the conditions of a join once the forms up to `stage` are past. -/
def readJoined (bound stage : Nat) (tokens : List Token) : Except Fault (List Node × Nat) := do
  let (conditions, count) ← readRemaining stage tokens
  match behindLink? (tokens.drop count) with
  | some (word, more) =>
    let (others, taken) ← readJoinConditions bound more
    .ok (conditions ++ .link word :: others, count + 1 + taken)
  | none => .ok (conditions, count)

theorem readJoinConditions_succ (bound : Nat) (tokens : List Token) :
    readJoinConditions (bound + 1) tokens = readJoined bound 0 tokens := by
  cases tokens with
  | nil => rfl
  | cons token rest =>
    simp only [readJoinConditions, readJoined, readRemaining, bind, Except.bind]
    cases readComparisons (token :: rest) with
    | error fault => rfl
    | ok found =>
      dsimp only
      cases (token :: rest).drop found.2 with
      | nil => rfl
      | cons next more =>
        obtain ⟨kind, text⟩ := next
        cases kind <;> rfl

theorem readJoined_prepend {next : Nat} {node : Node} {front more : List Token}
    (h : readRemaining stage (front ++ more) =
      prepend [node] front.length (readRemaining next more)) :
    readJoined bound stage (front ++ more) =
      prepend [node] front.length (readJoined bound next more) := by
  simp only [readJoined, h, bind, Except.bind]
  cases readRemaining next more with
  | error fault => rfl
  | ok found =>
    have hdrop : (front ++ more).drop (front.length + found.2) = more.drop found.2 := by simp
    simp only [prepend, Except.map, hdrop]
    cases behindLink? (more.drop found.2) with
    | none => rfl
    | some link =>
      obtain ⟨word, rest⟩ := link
      dsimp only
      cases readJoinConditions bound rest <;> simp [Nat.add_assoc]

/-- What follows a comparison that ends with a call is no alias of it. -/
theorem opens_joinParts (hparts : areJoinParts last 2 parts = true)
    (hrest : opens Kind.startsClause rest = true) :
    opens Kind.endsAlias (parts.flatMap conditionTokens ++ rest) = true := by
  have hcall : ∀ {left right : Node} {op : String} (more : List Node), isCall left = true →
      opens Kind.endsAlias
        ((Node.condition [left, .operator op, right] :: more).flatMap conditionTokens ++ rest) = true := by
    intro left right op more hleft
    obtain ⟨name, args, asWord, aliasName, rfl, -⟩ := exists_of_isCall hleft
    rfl
  cases parts with
  | nil =>
    exact opens_of_forall
      (fun _ h ↦ Kind.endsAlias_of_endsItem (Kind.endsItem_of_startsClause h)) hrest
  | cons part parts =>
    rcases areJoinParts_cons hparts with ⟨word, rfl, -⟩ |
      ⟨left, op, right, next, rfl, -, hform, -⟩ | ⟨left, op, right, rfl, -, hleft, -⟩
    · rfl
    · cases hform with
      | callOnRight hstage => omega
      | callOnLeft _ hleft _ => exact hcall parts hleft
    · exact hcall parts hleft

theorem readRemaining_comparison {next : Nat} (hop : upper op ≠ "IN")
    (hform : Comparison stage next left right) (hparts : areJoinParts last next parts = true)
    (hrest : opens Kind.startsClause rest = true) :
    readRemaining stage (conditionTokens (.condition [left, .operator op, right]) ++
        (parts.flatMap conditionTokens ++ rest)) =
      prepend [(Node.condition [left, .operator op, right]).upperCased]
        (conditionTokens (.condition [left, .operator op, right])).length
        (readRemaining next (parts.flatMap conditionTokens ++ rest)) := by
  cases hform with
  | names hleft hright => exact readRemaining_names hop hleft hright _
  | callOnRight hstage hleft hright =>
    exact readRemaining_callOnRight hop hleft hright hstage (opens_joinParts hparts hrest)
  | callOnLeft hstage hleft hright => exact readRemaining_callOnLeft hop hleft hright hstage _

/-- A count takes all tokens of a front.  Where the text ends behind them it may be larger. -/
def TakesAll (last : Bool) (front : List Token) (count : Nat) : Prop :=
  front.length ≤ count ∧ (last = false → count = front.length)

theorem takesAll_length (last : Bool) (front : List Token) : TakesAll last front front.length :=
  ⟨Nat.le_refl _, fun _ ↦ rfl⟩

theorem TakesAll.append (h : TakesAll last rest count) (front : List Token) :
    TakesAll last (front ++ rest) (front.length + count) := by
  refine ⟨?_, fun hlast ↦ ?_⟩
  · rw [List.length_append]
    exact Nat.add_le_add_left h.1 _
  · rw [List.length_append, h.2 hlast]

theorem TakesAll.drop_eq (h : TakesAll last front count) (hend : last = true → rest = []) :
    (front ++ rest).drop count = rest := by
  cases last with
  | false => rw [h.2 rfl, List.drop_left]
  | true =>
    rw [hend rfl, List.append_nil]
    exact List.drop_eq_nil_of_le h.1

theorem flatMap_conditionTokens_ne_nil (hparts : areJoinParts last stage parts = true)
    (hne : parts ≠ []) : parts.flatMap conditionTokens ≠ [] := by
  obtain ⟨part, rest, rfl⟩ := List.exists_cons_of_ne_nil hne
  rcases areJoinParts_cons hparts with
    ⟨word, rfl, -⟩ | ⟨left, op, right, next, rfl, -⟩ | ⟨left, op, right, rfl, -⟩
  · simp [conditionTokens]
  · simp [conditionTokens, partTokens]
  · simp [conditionTokens, partTokens]

/-- Each link needs one of the bound, and no tokens need none. -/
theorem readJoinConditions_of_readJoined (hparts : areJoinParts last 0 parts = true)
    (hbound : (parts.flatMap conditionTokens).length ≤ bound)
    (hread : ∀ n, bound = n + 1 → ∃ count,
      readJoined n 0 (parts.flatMap conditionTokens ++ rest) = .ok (Node.upperCasedEach parts, count) ∧
        TakesAll last (parts.flatMap conditionTokens) count) :
    ∃ count, readJoinConditions bound (parts.flatMap conditionTokens ++ rest) =
        .ok (Node.upperCasedEach parts, count) ∧
      TakesAll last (parts.flatMap conditionTokens) count := by
  cases bound with
  | zero =>
    obtain rfl : parts = [] := Decidable.byContradiction fun hne ↦
      flatMap_conditionTokens_ne_nil hparts hne (List.length_eq_zero_iff.mp (by omega))
    exact ⟨0, rfl, takesAll_length last []⟩
  | succ bound =>
    rw [readJoinConditions_succ]
    exact hread bound rfl

/-- The conditions of a join are read back from any stage on. -/
theorem readJoined_conditionTokens (hparts : areJoinParts last stage parts = true)
    (hrest : opens Kind.startsClause rest = true) (hend : last = true → rest = [])
    (hbound : (parts.flatMap conditionTokens).length ≤ bound + 1) :
    ∃ count, readJoined bound stage (parts.flatMap conditionTokens ++ rest) =
        .ok (Node.upperCasedEach parts, count) ∧
      TakesAll last (parts.flatMap conditionTokens) count := by
  -- A comparison moves the stage on and a link starts it again.
  induction parts generalizing stage bound with
  | nil =>
    have hnone : opens (fun kind ↦ kind ≠ .identifier && kind ≠ .func) rest = true :=
      opens_of_forall (fun kind hkind ↦ by cases kind <;> first | rfl | cases hkind) hrest
    refine ⟨0, ?_, takesAll_length last []⟩
    rw [List.flatMap_nil, List.nil_append, readJoined, readRemaining_of_opens stage hnone]
    simp [bind, Except.bind, behindLink?_of_opens hrest, Node.upperCasedEach]
  | cons part more ih =>
    rcases areJoinParts_cons hparts with ⟨word, rfl, -, hmore⟩ |
      ⟨left, op, right, next, rfl, hop, hform, hmore⟩ |
      ⟨left, op, right, rfl, hop, hleft, hright, hstage, rfl, rfl⟩
    · simp only [List.flatMap_cons, conditionTokens, List.cons_append, List.nil_append,
        List.length_cons] at hbound ⊢
      obtain ⟨taken, hread, htaken⟩ : ∃ taken,
          readJoinConditions bound (more.flatMap conditionTokens ++ rest) = .ok (_, taken) ∧ _ :=
        readJoinConditions_of_readJoined hmore (by omega) fun n hn ↦ ih hmore (by omega)
      refine ⟨1 + taken, ?_, htaken.append [⟨.link, upper word⟩]⟩
      rw [readJoined, readRemaining_of_opens stage rfl]
      simp only [bind, Except.bind, List.drop_zero, behindLink?, hread, List.nil_append,
        Node.upperCasedEach, Node.upperCased, Nat.zero_add]
    · rw [List.flatMap_cons, List.length_append] at hbound
      obtain ⟨taken, hread, htaken⟩ : ∃ taken,
          readJoined bound next (more.flatMap conditionTokens ++ rest) = .ok (_, taken) ∧ _ :=
        ih hmore (by omega)
      refine ⟨_, ?_, htaken.append _⟩
      rw [List.flatMap_cons, List.append_assoc,
        readJoined_prepend (readRemaining_comparison hop hform hmore hrest), hread]
      rfl
    · -- Behind two calls one more token is counted, and there is none.
      obtain rfl := hend rfl
      refine ⟨_, ?_, Nat.le_succ _, fun hlast ↦ absurd hlast (by decide)⟩
      simp only [List.flatMap_cons, List.flatMap_nil, List.append_nil]
      rw [readJoined, readRemaining_calls hop hleft hright hstage]
      simp only [bind, Except.bind, List.drop_eq_nil_of_le (Nat.le_succ _), behindLink?,
        Node.upperCasedEach]

theorem readJoinConditions_conditionTokens (hparts : areJoinParts last 0 parts = true)
    (hrest : opens Kind.startsClause rest = true) (hend : last = true → rest = [])
    (hbound : (parts.flatMap conditionTokens).length ≤ bound) :
    ∃ count, readJoinConditions bound (parts.flatMap conditionTokens ++ rest) =
        .ok (Node.upperCasedEach parts, count) ∧
      TakesAll last (parts.flatMap conditionTokens) count :=
  readJoinConditions_of_readJoined hparts hbound fun n hn ↦
    readJoined_conditionTokens hparts hrest hend (by omega)

/-! ### FROM -/

theorem readFromParts_succ {taken : Nat} {part : List Node}
    (hpart : readFromPart tokens = .ok (some (part, count)))
    (hparts : readFromParts bound (tokens.drop count) = .ok (parts, taken)) :
    readFromParts (bound + 1) tokens = .ok (part ++ parts, count + taken) := by
  simp only [readFromParts, hpart, bind, Except.bind, hparts]

theorem readFromPart_namedTokens {t : Term} (ht : isNamed t = true)
    (hrest : t.aliasName = none → opens Kind.endsAlias rest = true) :
    readFromPart (namedTokens t ++ rest) =
      .ok (some ([(Node.term t).upperCased], (namedTokens t).length)) := by
  have hpart : readFromPart (namedTokens t ++ rest) =
      (readNamed (namedTokens t ++ rest)).bind fun found ↦ .ok (some ([found.1], found.2)) := by
    obtain ⟨kind, text, aliasName, asWord, sort⟩ := t
    cases kind <;> first | rfl | simp [isNamed] at ht
  rw [hpart, readNamed_namedTokens ht hrest]
  rfl

theorem readFromParts_named {taken : Nat} {t : Term} (ht : isNamed t = true)
    (hrest : t.aliasName = none → opens Kind.endsAlias rest = true)
    (hparts : readFromParts bound rest = .ok (parts, taken)) :
    readFromParts (bound + 1) (namedTokens t ++ rest) =
      .ok ((Node.term t).upperCased :: parts, (namedTokens t).length + taken) :=
  readFromParts_succ (readFromPart_namedTokens ht hrest) (by rw [List.drop_left, hparts])

theorem readFromParts_of_opens (bound : Nat) (hrest : opens Kind.startsClause rest = true) :
    readFromParts bound rest = .ok ([], 0) := by
  cases bound with
  | zero => rfl
  | succ bound =>
    cases rest with
    | nil => rfl
    | cons token rest =>
      obtain ⟨kind, text⟩ := token
      cases kind <;> first | rfl | cases hrest

/-- No alias starts with what follows a table, unless it is another table. -/
theorem opens_fromTokens (hparts : FromParts last parts) (hterm : startsWithTerm parts = false)
    (hrest : opens Kind.startsClause rest = true) :
    opens Kind.endsAlias (fromTokens parts ++ rest) = true := by
  cases hparts with
  | nil =>
    exact opens_of_forall
      (fun _ h ↦ Kind.endsAlias_of_endsItem (Kind.endsItem_of_startsClause h)) hrest
  | on => rfl
  | join => simp [fromTokens, Kind.endsAlias, Kind.isValue]
  | table => cases hterm

/-- Conditions behind an ON are read back as the last part. -/
theorem readFromParts_onClause (bound : Nat) (word : String) (hparts : areJoinParts last 0 parts = true)
    (hrest : opens Kind.startsClause rest = true) (hend : last = true → rest = []) :
    ∃ taken, readFromParts (bound + 1)
        (⟨.onWord, upper word⟩ :: (parts.flatMap conditionTokens ++ rest)) =
          .ok ([(Node.onClause word parts).upperCased], taken + 1) ∧
      TakesAll last (parts.flatMap conditionTokens) taken := by
  obtain ⟨taken, hconditions, htaken⟩ : ∃ taken,
      readJoinConditions (parts.flatMap conditionTokens ++ rest).length
        (parts.flatMap conditionTokens ++ rest) = .ok (_, taken) ∧ _ :=
    readJoinConditions_conditionTokens hparts hrest hend (by simp)
  have hpart : readFromPart (⟨.onWord, upper word⟩ :: (parts.flatMap conditionTokens ++ rest)) =
      .ok (some ([(Node.onClause word parts).upperCased], taken + 1)) := by
    simp only [readFromPart, hconditions, bind, Except.bind, Node.upperCased]
  have hnone : readFromParts bound
      ((⟨.onWord, upper word⟩ :: (parts.flatMap conditionTokens ++ rest) : List Token).drop (taken + 1)) =
      .ok ([], 0) := by
    rw [List.drop_succ_cons, htaken.drop_eq hend]
    exact readFromParts_of_opens bound hrest
  exact ⟨taken, readFromParts_succ hpart hnone, htaken⟩

theorem readFromParts_fromTokens (hparts : FromParts last parts)
    (hrest : opens Kind.startsClause rest = true) (hend : last = true → rest = [])
    (hbound : (fromTokens parts).length ≤ bound) :
    ∃ count, readFromParts bound (fromTokens parts ++ rest) = .ok (Node.upperCasedEach parts, count) ∧
      TakesAll last (fromTokens parts) count := by
  induction hparts generalizing bound with
  | nil => exact ⟨0, readFromParts_of_opens bound hrest, takesAll_length last []⟩
  | @on join word t parts ht _ hparts =>
    simp only [fromTokens, namedTokens, List.length_append, List.length_cons] at hbound
    obtain ⟨bound, rfl⟩ : ∃ n, bound = n + 3 := ⟨bound - 3, by omega⟩
    obtain ⟨taken, hon, htaken⟩ := readFromParts_onClause bound word hparts hrest hend
    have htable := readFromParts_named ht (fun _ ↦ rfl) hon
    have hjoin : readFromParts (bound + 3) (⟨.join, upper join⟩ :: _) = _ :=
      readFromParts_succ rfl htable
    have hall := ((htaken.append [⟨.onWord, upper word⟩]).append (namedTokens t)).append
      [⟨.join, upper join⟩]
    refine ⟨_, ?_, by simpa [fromTokens] using hall⟩
    simp only [fromTokens, List.cons_append, List.append_assoc, List.nil_append]
    rw [hjoin]
    simp [Node.upperCasedEach, Node.upperCased, Nat.add_comm]
  | @join word t more ht hterm hmore ih =>
    simp only [fromTokens, namedTokens, List.length_append, List.length_cons] at hbound
    obtain ⟨bound, rfl⟩ : ∃ n, bound = n + 2 := ⟨bound - 2, by omega⟩
    obtain ⟨taken, hread, htaken⟩ : ∃ taken,
        readFromParts bound (fromTokens more ++ rest) = .ok (_, taken) ∧ _ := ih (by omega)
    have htable := readFromParts_named ht
      (fun hnone ↦ opens_fromTokens hmore (hterm hnone) hrest) hread
    have hjoin : readFromParts (bound + 2) (⟨.join, upper word⟩ :: _) = _ :=
      readFromParts_succ rfl htable
    refine ⟨_, ?_, (htaken.append (namedTokens t)).append [⟨.join, upper word⟩]⟩
    simp only [fromTokens, List.cons_append, List.append_assoc]
    rw [hjoin]
    rfl
  | @table t more _ ht hmore ih =>
    simp only [fromTokens, namedTokens, List.length_append, List.length_cons] at hbound
    obtain ⟨bound, rfl⟩ : ∃ n, bound = n + 1 := ⟨bound - 1, by omega⟩
    -- A comma stands between two tables and nowhere else.
    cases hterm : startsWithTerm more with
    | false =>
      obtain ⟨taken, hread, htaken⟩ : ∃ taken,
          readFromParts bound (fromTokens more ++ rest) = .ok (_, taken) ∧ _ := ih (by omega)
      have htable := readFromParts_named ht (fun _ ↦ opens_fromTokens hmore hterm hrest) hread
      refine ⟨_, ?_, by simpa [fromTokens, hterm] using htaken.append (namedTokens t)⟩
      simp only [fromTokens, hterm, Bool.false_eq_true, if_false, List.append_nil,
        List.append_assoc]
      rw [htable]
      rfl
    | true =>
      simp only [hterm, if_true, List.length_cons, List.length_nil] at hbound
      obtain ⟨bound, rfl⟩ : ∃ n, bound = n + 1 := ⟨bound - 1, by omega⟩
      obtain ⟨taken, hread, htaken⟩ : ∃ taken,
          readFromParts bound (fromTokens more ++ rest) = .ok (_, taken) ∧ _ := ih (by omega)
      have hcomma : readFromParts (bound + 1) (comma :: (fromTokens more ++ rest)) = _ :=
        readFromParts_succ rfl hread
      have htable := readFromParts_named ht (fun _ ↦ rfl) hcomma
      have hall := (htaken.append [comma]).append (namedTokens t)
      refine ⟨_, ?_, by simpa [fromTokens, hterm] using hall⟩
      simp only [fromTokens, hterm, if_true, List.append_assoc, List.cons_append,
        List.nil_append]
      rw [htable]
      simp [Node.upperCasedEach]

theorem readFrom_statementTokens (word : String) (hparts : areFromParts last parts = true)
    (hrest : opens Kind.startsClause rest = true) (hend : last = true → rest = []) :
    ∃ count, readFrom (statementTokens (.fromClause word parts) ++ rest) =
        .ok ((Node.fromClause word parts).upperCased, count) ∧
      TakesAll last (statementTokens (.fromClause word parts)) count := by
  obtain ⟨taken, hread, htaken⟩ : ∃ taken,
      readFromParts (fromTokens parts ++ rest).length (fromTokens parts ++ rest) = .ok (_, taken) ∧ _ :=
    readFromParts_fromTokens (fromParts_of_areFromParts hparts) hrest hend (by simp)
  refine ⟨1 + taken, ?_, htaken.append [⟨.fromWord, upper word⟩]⟩
  simp only [statementTokens, List.cons_append, readFrom, hread, bind, Except.bind, Nat.add_comm]
  rfl

end SqlLayout.Read
