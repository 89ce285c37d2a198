import SqlLayout.Proofs.Read.Joins
import SqlLayout.Read.Statement

/-!
# One step of a reader

What a reader did when it succeeds, one step at a time.  The items of SELECT, GROUP BY and ORDER BY,
the conditions of WHERE and HAVING and those of a join are all read in one way: an item, and as long as
a separator follows, another.  So what holds of one turn of this loop is shown once for all five.
-/

namespace SqlLayout.Read

variable {tokens more : List Token} {bound count : Nat}

section Outcomes

variable {α β : Type} {first : Except Fault α}

theorem bind_eq_ok {next : α → Except Fault β} {result : β} :
    first >>= next = .ok result ↔ ∃ found, first = .ok found ∧ next found = .ok result := by
  cases first with
  | error fault => simp [bind, Except.bind]
  | ok found => simp [bind, Except.bind]

theorem bind_eq_error {next : α → Except Fault β} {fault : Fault} :
    first >>= next = .error fault ↔
      first = .error fault ∨ ∃ found, first = .ok found ∧ next found = .error fault := by
  cases first with
  | error stop => simp [bind, Except.bind]
  | ok found => simp [bind, Except.bind]

theorem map_eq_ok {f : α → β} {result : β} :
    first.map f = .ok result ↔ ∃ found, first = .ok found ∧ f found = result := by
  cases first with
  | error fault => simp [Except.map]
  | ok found => simp [Except.map]

theorem bind_ok_eq_map {f : α → β} : (first >>= fun found ↦ .ok (f found)) = first.map f := by
  cases first <;> rfl

end Outcomes

theorem behindComma?_eq_some : behindComma? tokens = some more ↔ ∃ word, tokens = ⟨.comma, word⟩ :: more := by
  constructor
  · intro h
    unfold behindComma? at h
    split at h
    · cases h
      exact ⟨_, rfl⟩
    · cases h
  · rintro ⟨word, rfl⟩
    rfl

theorem behindLink?_eq_some {word : String} :
    behindLink? tokens = some (word, more) ↔ tokens = ⟨.link, word⟩ :: more := by
  constructor
  · intro h
    unfold behindLink? at h
    split at h
    · cases h
      rfl
    · cases h
  · rintro rfl
    rfl

theorem getLast?_append_cons {front : List Token} {token : Token} (h : more ≠ []) :
    (front ++ token :: more).getLast? = more.getLast? := by
  obtain ⟨next, more, rfl⟩ := List.exists_cons_of_ne_nil h
  rw [List.getLast?_append, List.getLast?_cons_cons, List.getLast?_cons, Option.some_or]

/-- A comma leaves no node. -/
def comma? (tokens : List Token) : Option (List Node × List Token) :=
  (behindComma? tokens).map fun more ↦ ([], more)

/-- A link stays between the conditions that it links. -/
def link? (tokens : List Token) : Option (List Node × List Token) :=
  (behindLink? tokens).map fun found ↦ ([.link found.1], found.2)

theorem exists_of_comma? {between : List Node} (h : comma? tokens = some (between, more)) :
    ∃ token, tokens = token :: more := by
  obtain ⟨others, hothers, hpair⟩ := Option.map_eq_some_iff.mp h
  cases hpair
  obtain ⟨word, rfl⟩ := behindComma?_eq_some.mp hothers
  exact ⟨_, rfl⟩

theorem exists_of_link? {between : List Node} (h : link? tokens = some (between, more)) :
    ∃ token, tokens = token :: more := by
  obtain ⟨⟨word, others⟩, hothers, hpair⟩ := Option.map_eq_some_iff.mp h
  cases hpair
  exact ⟨_, behindLink?_eq_some.mp hothers⟩

/-- Items with separators between them; `bound` is a bound on the number of tokens. -/
def readList (item : List Token → Except Fault (List Node × Nat))
    (separator : List Token → Option (List Node × List Token)) :
    (bound : Nat) → List Token → Except Fault (List Node × Nat)
  | 0, _ => .ok ([], 0)
  | _ + 1, [] => .ok ([], 0)
  | bound + 1, token :: rest =>
    (item (token :: rest)).bind fun found ↦
      match separator ((token :: rest).drop found.2) with
      | none => .ok found
      | some (between, more) =>
        (readList item separator bound more).map fun others ↦
          (found.1 ++ between ++ others.1, found.2 + 1 + others.2)

theorem readList_of_ne {item : List Token → Except Fault (List Node × Nat)}
    {separator : List Token → Option (List Node × List Token)} (h : tokens ≠ []) :
    readList item separator (bound + 1) tokens = (item tokens).bind fun found ↦
      match separator (tokens.drop found.2) with
      | none => .ok found
      | some (between, more) =>
        (readList item separator bound more).map fun others ↦
          (found.1 ++ between ++ others.1, found.2 + 1 + others.2) := by
  cases tokens with
  | nil => exact absurd rfl h
  | cons token rest => rfl

def single (found : Node × Nat) : List Node × Nat :=
  ([found.1], found.2)

def selectItem (tokens : List Token) : Except Fault (List Node × Nat) :=
  (readSelectItem tokens).map single

def groupItem : List Token → Except Fault (List Node × Nat)
  | [] => .error .invalidGroupBy
  | token :: _ =>
    match columnKind? token.kind with
    | none => .error .invalidGroupBy
    | some kind => .ok ([.plain kind token.text], 1)

def orderItem : List Token → Except Fault (List Node × Nat)
  | [] => .error .invalidOrderBy
  | token :: rest =>
    match columnKind? token.kind with
    | none => .error .invalidOrderBy
    | some kind =>
      .ok ([.term ⟨kind, token.text, none, none, sortWord? rest⟩],
        if (sortWord? rest).isSome then 2 else 1)

def linkedItem (statements : List Token → Statements) (membership : Bool) (tokens : List Token) :
    Except Fault (List Node × Nat) :=
  (readCondition statements membership tokens).map single

theorem readSelectItems_eq_readList (bound : Nat) (tokens : List Token) :
    readSelectItems bound tokens = readList selectItem comma? bound tokens := by
  induction bound generalizing tokens with
  | zero => rfl
  | succ bound ih =>
    cases tokens with
    | nil => rfl
    | cons token rest =>
      cases hitem : readSelectItem (token :: rest) with
      | error fault =>
        simp [readSelectItems, readList, selectItem, hitem, bind, Except.bind, Except.map]
      | ok found =>
        rw [readSelectItems_succ (List.cons_ne_nil _ _) hitem]
        simp only [readList, selectItem, hitem, Except.map, Except.bind, single, comma?, ← ih]
        cases behindComma? ((token :: rest).drop found.2) with
        | none => rfl
        | some more => cases readSelectItems bound more <;> simp [bind, Except.bind]

theorem readGroupItems_eq_readList (h : tokens.length ≤ bound) :
    readGroupItems tokens = readList groupItem comma? bound tokens := by
  induction bound generalizing tokens with
  | zero =>
    obtain rfl := List.eq_nil_of_length_eq_zero (Nat.le_zero.mp h)
    rfl
  | succ bound ih =>
    cases tokens with
    | nil => rfl
    | cons token rest =>
      cases hkind : columnKind? token.kind with
      | none => simp [readGroupItems, readList, groupItem, hkind, Except.bind]
      | some kind =>
        rw [readGroupItems_succ hkind]
        simp only [readList, groupItem, hkind, Except.bind, comma?, List.drop_succ_cons,
          List.drop_zero]
        cases hmore : behindComma? rest with
        | none => rfl
        | some more =>
          have hlength : more.length ≤ bound := by
            obtain ⟨word, rfl⟩ := behindComma?_eq_some.mp hmore
            simp only [List.length_cons] at h
            omega
          simp only [Option.map_some, ← ih hlength]
          cases readGroupItems more with
          | error fault => rfl
          | ok found =>
            simp [bind, Except.bind, Except.map]
            omega

theorem readOrderItems_eq_readList (bound : Nat) (tokens : List Token) :
    readOrderItems bound tokens = readList orderItem comma? bound tokens := by
  induction bound generalizing tokens with
  | zero => rfl
  | succ bound ih =>
    cases tokens with
    | nil => rfl
    | cons token rest =>
      cases hkind : columnKind? token.kind with
      | none => simp [readOrderItems, readList, orderItem, hkind, Except.bind]
      | some kind =>
        rw [readOrderItems_succ hkind rfl]
        simp only [readList, orderItem, hkind, Except.bind, comma?, ← ih]
        cases behindComma? ((token :: rest).drop (if (sortWord? rest).isSome then 2 else 1)) with
        | none => rfl
        | some more => cases readOrderItems bound more <;> simp [bind, Except.bind, Except.map]

theorem readLinked_eq_readList (statements : List Token → Statements) (membership : Bool)
    (bound : Nat) (tokens : List Token) :
    readLinked statements membership bound tokens =
      readList (linkedItem statements membership) link? bound tokens := by
  induction bound generalizing tokens with
  | zero => rfl
  | succ bound ih =>
    cases tokens with
    | nil => rfl
    | cons token rest =>
      cases hitem : readCondition statements membership (token :: rest) with
      | error fault =>
        simp [readLinked, readList, linkedItem, hitem, bind, Except.bind, Except.map]
      | ok found =>
        rw [readLinked_succ (List.cons_ne_nil _ _) hitem]
        simp only [readList, linkedItem, hitem, Except.map, Except.bind, single, link?, ← ih]
        cases behindLink? ((token :: rest).drop found.2) with
        | none => rfl
        | some more =>
          cases readLinked statements membership bound more.2 <;>
            simp [bind, Except.bind]

theorem readJoinConditions_eq_readList (bound : Nat) (tokens : List Token) :
    readJoinConditions bound tokens = readList readComparisons link? bound tokens := by
  induction bound generalizing tokens with
  | zero => rfl
  | succ bound ih =>
    cases tokens with
    | nil => rfl
    | cons token rest =>
      simp only [readJoinConditions, readList, bind, Except.bind, ← ih]
      cases readComparisons (token :: rest) with
      | error fault => rfl
      | ok found =>
        dsimp only
        cases (token :: rest).drop found.2 with
        | nil => rfl
        | cons next more =>
          obtain ⟨kind, text⟩ := next
          cases kind with
          | link =>
            simp only [link?, behindLink?, Option.map_some]
            cases readJoinConditions bound more <;> simp [Except.map]
          | _ => rfl

/-! ### Calls -/

/-- What stands for one argument: a value, a call, or nothing in front of a comma or parenthesis. -/
def readArg (bound : Nat) (first : Bool) (token : Token) (rest : List Token) :
    Except Fault (List Node × Nat) :=
  match value? token with
  | some node => .ok ([node], 1)
  | none =>
    if token.kind = .func then
      match rest with
      | [] => .error .endOfTokens
      | paren :: inner =>
        if paren.kind = .openParen then
          (readArgs bound true inner).map fun found ↦
            ([.call token.text found.1 (readAlias (inner.drop found.2)).1.asWord
                (readAlias (inner.drop found.2)).1.name],
              2 + found.2 + (readAlias (inner.drop found.2)).2)
        else .error .unbalanced
    else if !first && token.kind != .closeParen then .error .invalidCall
    else .ok ([], 0)

theorem readArgs_succ (bound : Nat) (first : Bool) (token : Token) (rest : List Token) :
    readArgs (bound + 1) first (token :: rest) =
      (readArg bound first token rest).bind fun found ↦
        readAfterArg bound found.1 found.2 ((token :: rest).drop found.2) := by
  simp only [readArgs, readArg]
  cases value? token with
  | some node => rfl
  | none =>
    dsimp only
    split
    · cases rest with
      | nil => rfl
      | cons paren inner =>
        dsimp only
        split
        · cases readArgs bound true inner <;> rfl
        · rfl
    · split <;> rfl

theorem readArg_cases {first : Bool} {token : Token} {rest : List Token} {arg : List Node}
    (h : readArg bound first token rest = .ok (arg, count)) :
    (∃ node, value? token = some node ∧ arg = [node] ∧ count = 1) ∨
      (∃ paren inner args taken, token.kind = .func ∧ rest = paren :: inner ∧
        paren.kind = .openParen ∧ readArgs bound true inner = .ok (args, taken) ∧
        arg = [.call token.text args (readAlias (inner.drop taken)).1.asWord
          (readAlias (inner.drop taken)).1.name] ∧
        count = 2 + taken + (readAlias (inner.drop taken)).2) ∨
      (value? token = none ∧ token.kind ≠ .func ∧ (first = true ∨ token.kind = .closeParen) ∧
        arg = [] ∧ count = 0) := by
  unfold readArg at h
  cases hvalue : value? token with
  | some node =>
    rw [hvalue] at h
    cases h
    exact .inl ⟨node, rfl, rfl, rfl⟩
  | none =>
    rw [hvalue] at h
    dsimp only at h
    split at h
    · rename_i hfunc
      cases rest with
      | nil => cases h
      | cons paren inner =>
        dsimp only at h
        split at h
        · rename_i hparen
          obtain ⟨⟨args, taken⟩, hargs, hfound⟩ := map_eq_ok.mp h
          cases hfound
          exact .inr (.inl ⟨paren, inner, args, taken, hfunc, rfl, hparen, hargs, rfl, rfl⟩)
        · cases h
    · rename_i hfunc
      split at h
      · cases h
      · rename_i hfirst
        cases h
        refine .inr (.inr ⟨rfl, hfunc, ?_, rfl, rfl⟩)
        simpa [Classical.or_iff_not_imp_left] using hfirst

theorem readAfterArg_cases {taken : Nat} {arg args : List Node}
    (h : readAfterArg bound arg count tokens = .ok (args, taken)) :
    (∃ word more others counted, tokens = ⟨.comma, word⟩ :: more ∧
        readArgs bound false more = .ok (others, counted) ∧ args = arg ++ others ∧
        taken = count + 1 + counted) ∨
      ∃ word more, tokens = ⟨.closeParen, word⟩ :: more ∧ args = arg ∧ taken = count + 1 := by
  unfold readAfterArg at h
  split at h
  · cases h
  · rename_i word more
    obtain ⟨⟨others, counted⟩, hothers, hfound⟩ := bind_eq_ok.mp h
    cases hfound
    exact .inl ⟨word, more, others, counted, rfl, hothers, rfl, rfl⟩
  · rename_i word more
    cases h
    exact .inr ⟨word, more, rfl, rfl, rfl⟩
  · cases h

theorem readCall_eq_ok {node : Node} :
    readCall tokens = .ok (node, count) ↔
      ∃ name paren inner args taken, tokens = ⟨.func, name⟩ :: paren :: inner ∧
        paren.kind = .openParen ∧ readArgs inner.length true inner = .ok (args, taken) ∧
        node = .call name args (readAlias (inner.drop taken)).1.asWord
          (readAlias (inner.drop taken)).1.name ∧
        count = 2 + taken + (readAlias (inner.drop taken)).2 := by
  constructor
  · intro h
    unfold readCall at h
    split at h
    · cases h
    · rename_i token rest
      obtain ⟨kind, name⟩ := token
      dsimp only at h
      split at h
      · rename_i hfunc
        cases rest with
        | nil => cases h
        | cons paren inner =>
          dsimp only at h
          split at h
          · rename_i hparen
            obtain ⟨⟨args, taken⟩, hargs, hfound⟩ := bind_eq_ok.mp h
            cases hfound
            exact ⟨name, paren, inner, args, taken, by rw [hfunc], hparen, hargs, rfl, rfl⟩
          · cases h
      · cases h
  · rintro ⟨name, paren, inner, args, taken, rfl, hparen, hargs, rfl, rfl⟩
    simp only [readCall, hparen, hargs, if_true]
    rfl

/-- The arguments of a call end with a closing parenthesis. -/
theorem readArgs_last {first : Bool} {args : List Node}
    (h : readArgs bound first tokens = .ok (args, count)) :
    ∃ front word more, tokens = front ++ ⟨.closeParen, word⟩ :: more ∧ count = front.length + 1 := by
  induction bound generalizing first tokens args count with
  | zero => cases h
  | succ bound ih =>
    cases tokens with
    | nil => cases h
    | cons token rest =>
      rw [readArgs_succ] at h
      obtain ⟨⟨arg, taken⟩, harg, hafter⟩ := bind_eq_ok.mp h
      have hsplit := List.take_append_drop taken (token :: rest)
      rcases readAfterArg_cases hafter with
        ⟨comma, more, others, counted, hdrop, hothers, rfl, rfl⟩ | ⟨word, more, hdrop, rfl, rfl⟩
      · obtain ⟨front, word, last, rfl, rfl⟩ := ih hothers
        refine ⟨(token :: rest).take taken ++ ⟨.comma, comma⟩ :: front, word, last, ?_, ?_⟩
        · rw [List.append_assoc, List.cons_append, ← hdrop, hsplit]
        · have hlength := congrArg List.length hdrop
          simp only [List.length_drop, List.length_cons] at hlength
          simp only [List.length_append, List.length_take, List.length_cons]
          omega
      · refine ⟨(token :: rest).take taken, word, more, ?_, ?_⟩
        · rw [← hdrop, hsplit]
        · have hlength := congrArg List.length hdrop
          simp only [List.length_drop, List.length_cons] at hlength
          simp only [List.length_take, List.length_cons]
          omega

/-! ### Rows -/

/-- How the rows go on behind a value, `count` tokens after the place where it may stand. -/
def readAfterValue (bound : Nat) (row : List Node) (count : Nat) :
    List Token → Except Fault (List (List Node) × Nat)
  | [] => .error .endOfTokens
  | ⟨.comma, _⟩ :: more => (readRows bound row more).map fun found ↦ (found.1, count + 1 + found.2)
  | ⟨.closeParen, _⟩ :: ⟨.comma, _⟩ :: ⟨.openParen, _⟩ :: more =>
    (readRows bound [] more).map fun found ↦ (row :: found.1, count + 3 + found.2)
  | ⟨.closeParen, _⟩ :: _ => .ok ([row], count)
  | _ :: _ => .error .misplacedToken

theorem readRows_succ (bound : Nat) (row : List Node) (token : Token) (rest : List Token) :
    readRows (bound + 1) row (token :: rest) =
      readAfterValue bound (row ++ (value? token).toList) (value? token).toList.length
        ((token :: rest).drop (value? token).toList.length) := by
  rw [readRows]
  cases value? token
  all_goals simp only [Option.toList_none, Option.toList_some, List.append_nil, List.length_nil,
    List.length_singleton]
  generalize (token :: rest).drop 0 = tokens
  rotate_left
  generalize (token :: rest).drop 1 = tokens
  all_goals
    rcases tokens with _ | ⟨⟨kind, text⟩, more⟩
    · rfl
    · cases kind with
      | comma => exact bind_ok_eq_map
      | closeParen =>
        rcases more with _ | ⟨⟨kind, comma⟩, _ | ⟨⟨other, paren⟩, more⟩⟩
        · rfl
        · cases kind <;> rfl
        · cases kind with
          | comma =>
            cases other with
            | openParen => exact bind_ok_eq_map
            | _ => rfl
          | _ => rfl
      | _ => rfl

theorem readAfterValue_cases {taken : Nat} {row : List Node} {rows : List (List Node)}
    (h : readAfterValue bound row count tokens = .ok (rows, taken)) :
    (∃ word more others counted, tokens = ⟨.comma, word⟩ :: more ∧
        readRows bound row more = .ok (others, counted) ∧ rows = others ∧
        taken = count + 1 + counted) ∨
      (∃ close comma opened more others counted,
        tokens = ⟨.closeParen, close⟩ :: ⟨.comma, comma⟩ :: ⟨.openParen, opened⟩ :: more ∧
        readRows bound [] more = .ok (others, counted) ∧ rows = row :: others ∧
        taken = count + 3 + counted) ∨
      ∃ word more, tokens = ⟨.closeParen, word⟩ :: more ∧ rows = [row] ∧ taken = count := by
  unfold readAfterValue at h
  split at h
  · cases h
  · rename_i word more
    obtain ⟨⟨others, counted⟩, hothers, hfound⟩ := map_eq_ok.mp h
    cases hfound
    exact .inl ⟨word, more, _, counted, rfl, hothers, rfl, rfl⟩
  · rename_i close comma opened more
    obtain ⟨⟨others, counted⟩, hothers, hfound⟩ := map_eq_ok.mp h
    cases hfound
    exact .inr (.inl ⟨close, comma, opened, more, others, counted, rfl, hothers, rfl, rfl⟩)
  · rename_i word more _
    cases h
    exact .inr (.inr ⟨word, more, rfl, rfl, rfl⟩)
  · cases h

/-! ### Columns -/

def readColumnList : List Token → Except Fault (List Node × Nat)
  | [] => .error .endOfTokens
  | ⟨.openParen, _⟩ :: inner => (readColumns inner).map fun found ↦ (found.1, found.2 + 1)
  | _ => .ok ([], 0)

theorem readInsert_eq (statements : List Token → Statements) (insert table : Token)
    (rest : List Token) :
    readInsert statements (insert :: table :: rest) =
      if table.kind = .identifier then
        (readColumnList rest).bind fun columns ↦
          (readSource statements insert.text table.text columns.1 (rest.drop columns.2)).map
            fun found ↦ (found.1, 2 + columns.2 + found.2)
      else .error .misplacedToken := by
  rcases rest with _ | ⟨⟨kind, text⟩, inner⟩
  · rfl
  · cases kind with
    | openParen =>
      simp only [readInsert, readColumnList]
      congr 1
      cases readColumns inner with
      | error fault => rfl
      | ok columns =>
        simp only [bind, Except.bind, Except.map, List.drop_succ_cons]
        cases readSource statements insert.text table.text columns.1 (inner.drop columns.2) with
        | error fault => rfl
        | ok found =>
          simp only [Except.ok.injEq, Prod.mk.injEq, true_and]
          omega
    | _ => rfl

/-! ### Tokens of given kinds -/

def fits : (places : List (Kind → Bool)) → List Token → Bool
  | [], _ => true
  | _ :: _, [] => false
  | place :: places, token :: rest => place token.kind && fits places rest

theorem length_le_of_fits {places : List (Kind → Bool)} (h : fits places tokens = true) :
    places.length ≤ tokens.length := by
  induction places generalizing tokens with
  | nil => exact Nat.zero_le _
  | cons place places ih =>
    cases tokens with
    | nil => cases h
    | cons token rest =>
      rw [fits, Bool.and_eq_true] at h
      exact Nat.succ_le_succ (ih h.2)

def textAt (tokens : List Token) (place : Nat) : String :=
  (tokens[place]?.map Token.text).getD ""

theorem textAt_append {front : List Token} {place : Nat} (h : place < front.length)
    (rest : List Token) : textAt (front ++ rest) place = textAt front place := by
  rw [textAt, textAt, List.getElem?_append_left h]

/-! ### Branches and conditions -/

theorem readBranches_eq (tokens : List Token) :
    readBranches tokens =
      if fits [(· = .whenWord), Kind.isValue, (· = .thenWord), Kind.isValue] tokens then
        (.whenThen (textAt tokens 0) (textAt tokens 1) (textAt tokens 2) (textAt tokens 3) ::
          (readBranches (tokens.drop 4)).1, (readBranches (tokens.drop 4)).2 + 4)
      else if fits [(· = .elseWord), Kind.isValue] tokens then
        (.otherwise (textAt tokens 0) (textAt tokens 1) :: (readBranches (tokens.drop 2)).1,
          (readBranches (tokens.drop 2)).2 + 2)
      else ([], 0) := by
  rw [readBranches.eq_def]
  split
  · simp [fits, textAt]
  · simp [fits, textAt]
  · next hwhen helse =>
    rw [if_neg, if_neg]
    · rcases tokens with _ | ⟨⟨a, s⟩, _ | ⟨b, rest⟩⟩ <;> simp [fits]
      rintro rfl
      exact (helse _ _ _ rfl).elim
    · rcases tokens with _ | ⟨⟨a, s⟩, _ | ⟨b, _ | ⟨⟨c, t⟩, _ | ⟨d, rest⟩⟩⟩⟩ <;> simp [fits]
      rintro rfl - rfl
      exact (hwhen _ _ _ _ _ rfl).elim

def part (token : Token) : Node :=
  match token.kind with
  | .notWord => .not token.text
  | .compare => .operator token.text
  | .betweenWord => .between token.text
  | .link => .link token.text
  | .isWord => .is token.text
  | .nullWord => .null token.text
  | _ => (value? token).getD (.null token.text)

def plainCondition? (places : List (Kind → Bool)) (tokens : List Token) : Option (Node × Nat) :=
  if fits places tokens then
    some (.condition ((tokens.take places.length).map part), places.length)
  else none

def conditionForms : List (List (Kind → Bool)) :=
  [[(· = .notWord), Kind.isValue, (· = .compare), Kind.isValue],
    [Kind.isValue, (· = .betweenWord), Kind.isValue, (· = .link), Kind.isValue],
    [Kind.isValue, (· = .compare), Kind.isValue],
    [Kind.isValue, (· = .isWord), (· = .nullWord)],
    [Kind.isValue, (· = .isWord), (· = .notWord), (· = .nullWord)]]

theorem value?_eq (token : Token) :
    value? token = if token.kind.isValue then some (part token) else none := by
  obtain ⟨kind, text⟩ := token
  cases kind <;> rfl

theorem isValue_of_value? {token : Token} {node : Node} (h : value? token = some node) :
    token.kind.isValue = true := by
  rw [value?_eq] at h
  split at h
  · assumption
  · cases h

@[simp] theorem part_notWord (text : String) : part ⟨.notWord, text⟩ = .not text := rfl

@[simp] theorem part_compare (text : String) : part ⟨.compare, text⟩ = .operator text := rfl

@[simp] theorem part_betweenWord (text : String) : part ⟨.betweenWord, text⟩ = .between text := rfl

@[simp] theorem part_link (text : String) : part ⟨.link, text⟩ = .link text := rfl

@[simp] theorem part_isWord (text : String) : part ⟨.isWord, text⟩ = .is text := rfl

@[simp] theorem part_nullWord (text : String) : part ⟨.nullWord, text⟩ = .null text := rfl

@[simp] theorem part_identifier (text : String) :
    part ⟨.identifier, text⟩ = .plain .identifier text := rfl

theorem negated?_eq (tokens : List Token) :
    negated? tokens =
      plainCondition? [(· = .notWord), Kind.isValue, (· = .compare), Kind.isValue] tokens := by
  unfold negated?
  split
  · next left _ right _ =>
    by_cases hl : left.kind.isValue <;> by_cases hr : right.kind.isValue <;>
      simp [plainCondition?, fits, value?_eq, hl, hr]
  · next hne =>
    rcases tokens with _ | ⟨⟨a, s⟩, _ | ⟨b, _ | ⟨⟨c, t⟩, _ | ⟨d, rest⟩⟩⟩⟩ <;>
      simp [plainCondition?, fits]
    rintro rfl - rfl
    exact (hne _ _ _ _ _ rfl).elim

theorem between?_eq (tokens : List Token) :
    between? tokens = plainCondition?
      [Kind.isValue, (· = .betweenWord), Kind.isValue, (· = .link), Kind.isValue] tokens := by
  unfold between?
  split
  · next left _ low _ high _ =>
    by_cases hl : left.kind.isValue <;> by_cases hm : low.kind.isValue <;>
      by_cases hh : high.kind.isValue <;> simp [plainCondition?, fits, value?_eq, hl, hm, hh]
  · next hne =>
    rcases tokens with _ | ⟨a, _ | ⟨⟨b, s⟩, _ | ⟨c, _ | ⟨⟨d, t⟩, _ | ⟨e, rest⟩⟩⟩⟩⟩ <;>
      simp [plainCondition?, fits]
    rintro - rfl - rfl
    exact (hne _ _ _ _ _ _ rfl).elim

theorem comparison?_eq (tokens : List Token) :
    comparison? tokens = plainCondition? [Kind.isValue, (· = .compare), Kind.isValue] tokens := by
  unfold comparison?
  split
  · next left _ right _ =>
    by_cases hl : left.kind.isValue <;> by_cases hr : right.kind.isValue <;>
      simp [plainCondition?, fits, value?_eq, hl, hr]
  · next hne =>
    rcases tokens with _ | ⟨a, _ | ⟨⟨b, s⟩, _ | ⟨c, rest⟩⟩⟩ <;> simp [plainCondition?, fits]
    rintro - rfl
    exact (hne _ _ _ _ rfl).elim

theorem isNull?_eq (tokens : List Token) :
    isNull? tokens = plainCondition? [Kind.isValue, (· = .isWord), (· = .nullWord)] tokens := by
  unfold isNull?
  split
  · next left _ _ _ =>
    by_cases hl : left.kind.isValue <;> simp [plainCondition?, fits, value?_eq, hl]
  · next hne =>
    rcases tokens with _ | ⟨a, _ | ⟨⟨b, s⟩, _ | ⟨⟨c, t⟩, rest⟩⟩⟩ <;> simp [plainCondition?, fits]
    rintro - rfl rfl
    exact (hne _ _ _ _ rfl).elim

theorem isNotNull?_eq (tokens : List Token) :
    isNotNull? tokens =
      plainCondition? [Kind.isValue, (· = .isWord), (· = .notWord), (· = .nullWord)] tokens := by
  unfold isNotNull?
  split
  · next left _ _ _ _ =>
    by_cases hl : left.kind.isValue <;> simp [plainCondition?, fits, value?_eq, hl]
  · next hne =>
    rcases tokens with _ | ⟨a, _ | ⟨⟨b, s⟩, _ | ⟨⟨c, t⟩, _ | ⟨⟨d, u⟩, rest⟩⟩⟩⟩ <;>
      simp [plainCondition?, fits]
    rintro - rfl rfl rfl
    exact (hne _ _ _ _ _ rfl).elim

theorem simpleCondition?_eq (tokens : List Token) :
    simpleCondition? tokens = conditionForms.findSome? (plainCondition? · tokens) := by
  simp only [simpleCondition?, negated?_eq, between?_eq, comparison?_eq, isNull?_eq, isNotNull?_eq,
    conditionForms, List.findSome?_cons, List.findSome?_nil, Option.orElse_eq_orElse,
    Option.orElse_eq_or]
  repeat' split
  all_goals simp_all

theorem opensMembership_eq (tokens : List Token) :
    opensMembership tokens = fits [Kind.isColumn, (fun kind ↦ kind = .inWord || kind = .compare),
      (· = .openParen), (fun _ ↦ true), (fun _ ↦ true)] tokens := by
  unfold opensMembership
  split
  · simp [fits]
  · next hne =>
    rcases tokens with _ | ⟨a, _ | ⟨b, _ | ⟨⟨c, s⟩, _ | ⟨d, _ | ⟨e, rest⟩⟩⟩⟩⟩ <;> simp [fits]
    rintro - - rfl
    exact (hne _ _ _ _ _ _ rfl).elim

def negatesCall (tokens : List Token) : Bool :=
  fits [(· = .notWord), (· = .func), (fun _ ↦ true), (fun _ ↦ true), (fun _ ↦ true),
    (fun _ ↦ true)] tokens

theorem readCondition_eq (statements : List Token → Statements) (membership : Bool)
    (tokens : List Token) :
    readCondition statements membership tokens =
      match simpleCondition? tokens with
      | some found => .ok found
      | none =>
        if negatesCall tokens then readNegatedCall ((tokens.map Token.text).headD "") tokens.tail
        else if membership then readMembership statements tokens
        else .error .invalidCondition := by
  unfold readCondition
  cases simpleCondition? tokens with
  | some found => rfl
  | none =>
    dsimp only
    split
    · simp [negatesCall, fits]
    · next hne =>
      have hnone : ¬ negatesCall tokens := by
        rcases tokens with _ | ⟨⟨a, s⟩, _ | ⟨⟨b, t⟩, _ | ⟨c, _ | ⟨d, _ | ⟨e, _ | ⟨f, rest⟩⟩⟩⟩⟩⟩ <;>
          simp [negatesCall, fits]
        rintro rfl rfl
        exact hne _ _ _ _ _ _ _ rfl
      rw [if_neg hnone]

/-! ### Comparisons of a join -/

theorem readNameComparison_eq (tokens : List Token) :
    readNameComparison tokens =
      if fits [(· = .identifier), (· = .compare), (· = .identifier)] tokens then
        ([.condition ((tokens.take 3).map part)], 3)
      else ([], 0) := by
  unfold readNameComparison
  split
  · simp [fits]
  · next hne =>
    rw [if_neg]
    rcases tokens with _ | ⟨⟨a, s⟩, _ | ⟨⟨b, t⟩, _ | ⟨⟨c, u⟩, rest⟩⟩⟩ <;> simp [fits]
    rintro rfl rfl rfl
    exact hne _ _ _ _ rfl

theorem readCallOnRight_eq (tokens : List Token) :
    readCallOnRight tokens =
      if fits [(· = .identifier), (· = .compare), (· = .func)] tokens then
        (readCall (tokens.drop 2)).map fun found ↦
          ([.condition ((tokens.take 2).map part ++ [found.1])], found.2 + 2)
      else .ok ([], 0) := by
  unfold readCallOnRight
  split
  · simp only [fits]
    exact bind_ok_eq_map
  · next hne =>
    rw [if_neg]
    rcases tokens with _ | ⟨⟨a, s⟩, _ | ⟨⟨b, t⟩, _ | ⟨⟨c, u⟩, rest⟩⟩⟩ <;> simp [fits]
    rintro rfl rfl rfl
    exact hne _ _ _ _ rfl

def readCompared (call : Node) (count : Nat) (tokens : List Token) : Except Fault (List Node × Nat) :=
  if fits [(· = .compare), (· = .identifier)] tokens then
    .ok ([.condition (call :: (tokens.take 2).map part)], count + 2)
  else if fits [(· = .compare), (· = .func)] tokens then
    (readCall (tokens.drop 1)).map fun found ↦
      ([.condition (call :: (tokens.take 1).map part ++ [found.1])], count + 2 + found.2)
  else .ok ([], 0)

theorem readCallOnLeft_eq (tokens : List Token) :
    readCallOnLeft tokens =
      if fits [(· = .func)] tokens then
        readCall tokens >>= fun found ↦ readCompared found.1 found.2 (tokens.drop found.2)
      else .ok ([], 0) := by
  unfold readCallOnLeft
  split
  · next name rest =>
    rw [if_pos (by simp [fits])]
    congr 1
    funext found
    obtain ⟨found, count⟩ := found
    dsimp only
    generalize (⟨.func, name⟩ :: rest : List Token).drop count = tokens
    unfold readCompared
    split
    · simp [fits]
    · simp only [fits]
      exact bind_ok_eq_map
    · next hname hcall =>
      rcases tokens with _ | ⟨⟨a, s⟩, _ | ⟨⟨b, t⟩, rest⟩⟩
      · rfl
      · simp [fits]
      · rw [if_neg, if_neg] <;> simp only [fits, Bool.and_true, Bool.and_eq_true, decide_eq_true_eq]
        · rintro ⟨rfl, rfl⟩
          exact hcall _ _ _ rfl
        · rintro ⟨rfl, rfl⟩
          exact hname _ _ _ rfl
  · next hne =>
    rw [if_neg]
    rcases tokens with _ | ⟨⟨a, s⟩, rest⟩ <;> simp [fits]
    rintro rfl
    exact hne _ _ rfl

/-! ### Limits -/

def numberAt (tokens : List Token) (place : Nat) : Term :=
  ⟨.number, textAt tokens place, none, none, none⟩

theorem readPlainLimit_eq (tokens : List Token) :
    readPlainLimit tokens =
      if fits [(· = .limitWord), (· = .number)] tokens then
        .ok (.limitClause (numberAt tokens 1) none none, 2)
      else .error (.invalidLimit tokens) := by
  unfold readPlainLimit
  split
  · simp [fits, numberAt, textAt]
  · next hne =>
    rw [if_neg]
    rcases tokens with _ | ⟨⟨a, s⟩, _ | ⟨⟨b, t⟩, rest⟩⟩ <;> simp [fits]
    rintro rfl rfl
    exact hne _ _ _ rfl

theorem readLimit_eq (tokens : List Token) :
    readLimit tokens =
      if fits [(· = .limitWord), (· = .number), (· = .comma), (· = .number)] tokens then
        .ok (.limitClause (numberAt tokens 3) (some (numberAt tokens 1)) none, 4)
      else if fits [(· = .limitWord), (· = .number), (· = .identifier), (· = .number)] tokens ∧
          Text.upper (textAt tokens 2) = "OFFSET" then
        .ok (.limitClause (numberAt tokens 1) (some (numberAt tokens 3)) (some (textAt tokens 2)), 4)
      else readPlainLimit tokens := by
  unfold readLimit
  split
  · simp [fits, numberAt, textAt]
  · simp [fits, numberAt, textAt]
  · next hcomma hoffset =>
    rw [if_neg, if_neg]
    · rcases tokens with _ | ⟨⟨a, s⟩, _ | ⟨⟨b, t⟩, _ | ⟨⟨c, u⟩, _ | ⟨⟨d, v⟩, rest⟩⟩⟩⟩ <;>
        simp [fits]
      rintro rfl rfl rfl rfl
      exact (hoffset _ _ _ _ _ rfl).elim
    · rcases tokens with _ | ⟨⟨a, s⟩, _ | ⟨⟨b, t⟩, _ | ⟨⟨c, u⟩, _ | ⟨⟨d, v⟩, rest⟩⟩⟩⟩ <;>
        simp [fits]
      rintro rfl rfl rfl rfl
      exact hcomma _ _ _ _ _ rfl

end SqlLayout.Read
