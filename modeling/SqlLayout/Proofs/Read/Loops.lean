import SqlLayout.Proofs.Calls
import SqlLayout.Proofs.Counts
import SqlLayout.Proofs.Loop

/-!
# The loops of the readers

Readers that take one item after the other have a bound on the number of tokens, as each turn takes a token.
The bound is never what ends them: every larger one gives the same.

Two loops are not sure to take a token in each turn.  They stay for ever at a token that they have no use
for, and only there the readers say that the reading never ends.
-/

namespace SqlLayout.Read

open Loop

variable {tokens rest : List Token} {token : Token} {bound other : Nat}

/-! ### Bounds -/

theorem readFromParts_congr (hbound : tokens.length ≤ bound) (hother : tokens.length ≤ other) :
    readFromParts bound tokens = readFromParts other tokens := by
  refine congr_of_bounds (fun bound (_ : Unit) ↦ readFromParts bound) ?_ ?_ hbound hother ()
  · intro bound _
    cases bound <;> rfl
  · intro bound other token rest _ ih
    simp only [readFromParts]
    cases hpart : readFromPart (token :: rest) with
    | error fault => rfl
    | ok part =>
      rcases readFromPart_counts hpart with ⟨rfl, -⟩ | ⟨found, count, rfl, hcount, -⟩
      · rfl
      · simp only [bind, Except.bind]
        rw [ih ()]
        simp only [List.length_drop, List.length_cons]
        omega

theorem readAfterValue_congr {row : List Node} {count : Nat}
    (h : ∀ row (more : List Token), more.length < tokens.length →
      readRows bound row more = readRows other row more) :
    readAfterValue bound row count tokens = readAfterValue other row count tokens := by
  unfold readAfterValue
  split
  · rfl
  · rw [h _ _ (Nat.lt_succ_self _)]
  · rw [h]
    simp only [List.length_cons]
    omega
  · rfl
  · rfl

theorem readRows_congr {row : List Node} (hbound : tokens.length ≤ bound) (hother : tokens.length ≤ other) :
    readRows bound row tokens = readRows other row tokens := by
  refine congr_of_bounds readRows ?_ ?_ hbound hother row
  · intro bound row
    cases bound <;> rfl
  · intro bound other token rest row ih
    rw [readRows_succ, readRows_succ]
    apply readAfterValue_congr
    intro row more hmore
    simp only [List.length_drop, List.length_cons] at hmore
    exact ih row more (by omega)

theorem readGroup_bound_congr {found : Node} (hbound : tokens.length ≤ bound)
    (hother : tokens.length ≤ other) :
    readGroup statements bound found tokens = readGroup statements other found tokens := by
  refine congr_of_bounds (readGroup statements) ?_ ?_ hbound hother found
  · intro bound found
    cases bound <;> rfl
  · intro bound other token rest found ih
    simp only [readGroup, fun found ↦ ih found rest (Nat.le_refl _)]
    cases hquery : (statements (token :: rest)).fault with
    | some fault => rfl
    | none =>
      have hall := statements_exhausts _ _ (Nat.le_refl _) hquery
      simp only [List.drop_eq_nil_of_le hall, fun found ↦ ih found [] (Nat.zero_le _)]

/-- Larger bounds than the number of tokens change nothing in what any reader reads from them. -/
structure IsUncut (tokens : List Token) : Prop where
  statements : ∀ bound, tokens.length ≤ bound → readStatements bound tokens = statements tokens
  selectItems : ∀ bound, tokens.length ≤ bound →
    readSelectItems bound tokens = readSelectItems tokens.length tokens
  orderItems : ∀ bound, tokens.length ≤ bound →
    readOrderItems bound tokens = readOrderItems tokens.length tokens
  fromParts : ∀ bound, tokens.length ≤ bound →
    readFromParts bound tokens = readFromParts tokens.length tokens
  joinConditions : ∀ bound, tokens.length ≤ bound →
    readJoinConditions bound tokens = readJoinConditions tokens.length tokens
  args : ∀ first bound, tokens.length ≤ bound →
    readArgs bound first tokens = readArgs tokens.length first tokens
  rows : ∀ row bound, tokens.length ≤ bound →
    readRows bound row tokens = readRows tokens.length row tokens
  linked : ∀ membership bound, tokens.length ≤ bound →
    readLinked Read.statements membership bound tokens =
      readLinked Read.statements membership tokens.length tokens
  group : ∀ found bound, tokens.length ≤ bound →
    readGroup Read.statements bound found tokens = readGroup Read.statements tokens.length found tokens

theorem isUncut (tokens : List Token) : IsUncut tokens where
  statements _ hbound := readStatements_congr hbound (Nat.le_refl _)
  selectItems _ hbound := by
    simp only [readSelectItems_eq_readList]
    exact readList_congr exists_of_comma? hbound (Nat.le_refl _)
  orderItems _ hbound := by
    simp only [readOrderItems_eq_readList]
    exact readList_congr exists_of_comma? hbound (Nat.le_refl _)
  fromParts _ hbound := readFromParts_congr hbound (Nat.le_refl _)
  joinConditions _ hbound := by
    simp only [readJoinConditions_eq_readList]
    exact readList_congr exists_of_link? hbound (Nat.le_refl _)
  args _ _ hbound := by rw [readArgs_eq_unbounded hbound, readArgs_eq_unbounded (Nat.le_refl _)]
  rows _ _ hbound := readRows_congr hbound (Nat.le_refl _)
  linked _ _ hbound := by
    simp only [readLinked_eq_readList]
    exact readList_congr exists_of_link? hbound (Nat.le_refl _)
  group _ _ hbound := readGroup_bound_congr hbound (Nat.le_refl _)

/-! ### Loops that may stay -/

def Mirrors {σ α : Type} (body : σ → Pass σ (Except Fault α)) (state : σ) (outcome : Except Fault α) : Prop :=
  Ends body state outcome ∨ outcome = .error .endless ∧ Spins body state

section Mirrors

variable {σ α : Type} {body : σ → Pass σ (Except Fault α)} {state next : σ} {outcome : Except Fault α}

theorem mirrors_of_done (h : body state = .done outcome) : Mirrors body state outcome :=
  .inl (ends_of_done h)

theorem mirrors_of_self (h : body state = .again state) : Mirrors body state (.error .endless) :=
  .inr ⟨rfl, spins_of_self h⟩

/-- A step that is a pass of its own, or the first part of one, leads to the same outcome. -/
theorem Mirrors.of_step (h : body state = body next ∨ body state = .again next)
    (hnext : Mirrors body next outcome) : Mirrors body state outcome := by
  rcases hnext with hends | ⟨houtcome, hspins⟩
  · rcases h with h | h
    · exact .inl (hends.of_eq h)
    · exact .inl (ends_of_again h hends)
  · rcases h with h | h
    · exact .inr ⟨houtcome, hspins.of_eq h⟩
    · exact .inr ⟨houtcome, spins_of_again h hspins⟩

theorem Mirrors.ends (h : Mirrors body state outcome) (houtcome : outcome ≠ .error .endless) :
    Ends body state outcome :=
  h.resolve_right fun hspins ↦ houtcome hspins.1

end Mirrors

def takeValue (tokens : List Token) : Nat × Node → Except Fault (Nat × Node)
  | (index, found) =>
    match tokens[index]?.bind value? with
    | none => .ok (index, found)
    | some item =>
      match found with
      | .group items => .ok (index + 1, .group (items ++ [item]))
      | _ => .error .missingPart

def skipComma (tokens : List Token) : Nat × Node → Except Fault (Nat × Node)
  | (index, found) =>
    match tokens[index]? with
    | none => .error .endOfTokens
    | some token => .ok (if token.kind = .comma then index + 1 else index, found)

def takeQuery (tokens : List Token) : Nat × Node → Except Fault (Nat × Node)
  | (index, found) =>
    match tokens[index]? with
    | none => .error .endOfTokens
    | some token =>
      if token.kind = .selectWord then
        let query := statements (tokens.drop index)
        match query.fault with
        | some fault => .error fault
        | none => .ok (index + totalCount query.read, .subselect (query.read.map Prod.fst))
      else .ok (index, found)

def Pass.ofOutcome {σ α : Type} : Except Fault σ → Pass σ (Except Fault α)
  | .ok state => .again state
  | .error fault => .done (.error fault)

def groupPass (tokens : List Token) : Nat × Node → Pass (Nat × Node) (Except Fault (Node × Nat))
  | (index, found) =>
    match tokens[index]? with
    | none => .done (.error .endOfTokens)
    | some token =>
      if token.kind = .closeParen then .done (.ok (found, index + 1))
      else
        Pass.ofOutcome
          ((takeValue tokens (index, found)).bind fun state ↦ (skipComma tokens state).bind (takeQuery tokens))

/-- One pass of the loop over the tokens behind the parenthesis of the columns of an INSERT. -/
def columnsPass (tokens : List Token) :
    Nat × List Node → Pass (Nat × List Node) (Except Fault (List Node × Nat))
  | (index, columns) =>
    match tokens[index]? with
    | none => .done (.error .endOfTokens)
    | some token =>
      let (index, columns) :=
        match value? token with
        | some column => (index + 1, columns ++ [column])
        | none => (index, columns)
      match tokens[index]? with
      | none => .done (.error .endOfTokens)
      | some next =>
        match next.kind with
        | .comma => .again (index + 1, columns)
        | .closeParen => .done (.ok (columns, index + 1))
        | _ => .again (index, columns)

theorem getElem?_of_drop {index : Nat} (h : tokens.drop index = token :: rest) :
    tokens[index]? = some token ∧ tokens.drop (index + 1) = rest := by
  refine ⟨by rw [← List.head?_drop, h]; rfl, ?_⟩
  rw [← List.drop_drop, h]
  rfl

theorem getElem?_eq_none_of_drop {index : Nat} (h : tokens.drop index = []) : tokens[index]? = none := by
  rw [← List.head?_drop, h]
  rfl

theorem map_map {α β γ : Type} {outcome : Except Fault α} {f : α → β} {g : β → γ} :
    (outcome.map f).map g = outcome.map fun found ↦ g (f found) := by
  cases outcome <;> rfl

section Columns

variable {index : Nat} {columns : List Node}

theorem columnsPass_of_value {column : Node} (h : tokens.drop index = token :: rest)
    (hvalue : value? token = some column) :
    columnsPass tokens (index, columns) = columnsPass tokens (index + 1, columns ++ [column]) ∨
      columnsPass tokens (index, columns) = .again (index + 1, columns ++ [column]) := by
  obtain ⟨htoken, hrest⟩ := getElem?_of_drop h
  cases hnext : tokens[index + 1]? with
  | none => simp [columnsPass, htoken, hvalue, hnext]
  | some next =>
    cases hother : value? next with
    | none => exact .inl (by simp [columnsPass, htoken, hvalue, hnext, hother])
    | some other =>
      have hkind := isValue_of_value? hother
      refine .inr ?_
      simp only [columnsPass, htoken, hvalue, hnext]
      split
      · next hcomma => simp [hcomma, Kind.isValue] at hkind
      · next hclose => simp [hclose, Kind.isValue] at hkind
      · rfl

theorem columnsPass_of_not_value (h : tokens.drop index = token :: rest) (hvalue : value? token = none) :
    columnsPass tokens (index, columns) =
      match token.kind with
      | .comma => .again (index + 1, columns)
      | .closeParen => .done (.ok (columns, index + 1))
      | _ => .again (index, columns) := by
  obtain ⟨htoken, -⟩ := getElem?_of_drop h
  simp only [columnsPass, htoken, hvalue]

theorem readColumns_of_value {column : Node} (hvalue : value? token = some column) :
    readColumns (token :: rest) =
      (readColumns rest).map fun found ↦ (column :: found.1, found.2 + 1) := by
  rw [readColumns, hvalue]
  exact bind_ok_eq_map

theorem readColumns_of_not_value (hvalue : value? token = none) :
    readColumns (token :: rest) =
      match token.kind with
      | .comma => (readColumns rest).map fun found ↦ (found.1, found.2 + 1)
      | .closeParen => .ok ([], 1)
      | _ => .error .endless := by
  rw [readColumns, hvalue]
  cases hkind : token.kind <;> rfl

/-- The loop over the columns does what their reader says. -/
theorem mirrors_columnsPass (hrest : tokens.drop index = rest) (columns : List Node) :
    Mirrors (columnsPass tokens) (index, columns)
      ((readColumns rest).map fun found ↦ (columns ++ found.1, index + found.2)) := by
  induction rest generalizing index columns with
  | nil => exact mirrors_of_done (by simp only [columnsPass, getElem?_eq_none_of_drop hrest]; rfl)
  | cons token rest ih =>
    have hmore := (getElem?_of_drop hrest).2
    cases hvalue : value? token with
    | some column =>
      have hlater := ih hmore (columns ++ [column])
      rw [readColumns_of_value hvalue, map_map]
      simp only [List.append_assoc, List.singleton_append, Nat.add_assoc, Nat.add_comm 1] at hlater ⊢
      exact .of_step (columnsPass_of_value hrest hvalue) hlater
    | none =>
      have hlater := ih hmore columns
      have hpass : columnsPass tokens (index, columns) = _ := columnsPass_of_not_value hrest hvalue
      rw [readColumns_of_not_value hvalue]
      split at hpass
      · rw [map_map]
        simp only [Nat.add_assoc, Nat.add_comm 1] at hlater ⊢
        exact .of_step (.inr hpass) hlater
      · refine mirrors_of_done (hpass.trans ?_)
        simp [Except.map]
      · exact mirrors_of_self hpass

end Columns

section Groups

variable {index : Nat} {found : Node}

theorem readGroup_of_value {item : Node} (hvalue : value? token = some item) :
    readGroup statements (bound + 1) found (token :: rest) =
      match found with
      | .group items =>
        (readGroup statements bound (.group (items ++ [item])) rest).map fun all ↦ (all.1, all.2 + 1)
      | _ => .error .missingPart := by
  rw [readGroup, hvalue]
  cases found <;> rfl

/-- The statements of a query leave no token for the parenthesis that would close the group. -/
theorem readGroup_of_not_value (hvalue : value? token = none) :
    readGroup statements (bound + 1) found (token :: rest) =
      match token.kind with
      | .comma => (readGroup statements bound found rest).map fun all ↦ (all.1, all.2 + 1)
      | .closeParen => .ok (found, 1)
      | .selectWord => .error ((statements (token :: rest)).fault.getD .endOfTokens)
      | _ => .error .endless := by
  rw [readGroup, hvalue]
  cases token.kind with
  | comma => exact bind_ok_eq_map
  | selectWord =>
    dsimp only
    cases hfault : (statements (token :: rest)).fault with
    | some fault => rfl
    | none =>
      dsimp only
      rw [List.drop_eq_nil_of_le (statements_exhausts _ _ (Nat.le_refl _) hfault)]
      cases bound <;> rfl
  | _ => rfl

/-- What a pass does from an index on where no value is taken. -/
theorem groupPass_of_not_value (h : tokens.drop index = token :: rest) (hvalue : value? token = none)
    (hclose : token.kind ≠ .closeParen) :
    groupPass tokens (index, found) =
      Pass.ofOutcome ((skipComma tokens (index, found)).bind (takeQuery tokens)) := by
  obtain ⟨htoken, -⟩ := getElem?_of_drop h
  simp [groupPass, htoken, hclose, takeValue, hvalue, Except.bind]

theorem groupPass_of_value {items : List Node} {item : Node} (h : tokens.drop index = token :: rest)
    (hvalue : value? token = some item) :
    groupPass tokens (index, .group items) = groupPass tokens (index + 1, .group (items ++ [item])) ∨
      groupPass tokens (index, .group items) = .again (index + 1, .group (items ++ [item])) := by
  obtain ⟨htoken, hrest⟩ := getElem?_of_drop h
  have hclose : token.kind ≠ .closeParen := by
    intro hkind
    simp [value?, hkind, termKind?] at hvalue
  have hpass : groupPass tokens (index, .group items) =
      Pass.ofOutcome
        ((skipComma tokens (index + 1, .group (items ++ [item]))).bind (takeQuery tokens)) := by
    simp [groupPass, htoken, hclose, takeValue, hvalue, Except.bind]
  rw [hpass]
  cases rest with
  | nil =>
    refine .inl ?_
    simp [skipComma, groupPass, getElem?_eq_none_of_drop hrest, Except.bind, Pass.ofOutcome]
  | cons next more =>
    by_cases hnext : value? next = none ∧ next.kind ≠ .closeParen
    · exact .inl (groupPass_of_not_value hrest hnext.1 hnext.2).symm
    · obtain ⟨hnext', -⟩ := getElem?_of_drop hrest
      have hkind : next.kind ≠ .comma ∧ next.kind ≠ .selectWord := by
        constructor <;> intro hkind <;> simp [value?, hkind, termKind?] at hnext
      exact .inr (by simp [skipComma, takeQuery, hnext', hkind, Except.bind, Pass.ofOutcome])

theorem groupPass_of_comma (h : tokens.drop index = token :: rest) (hcomma : token.kind = .comma) :
    groupPass tokens (index, found) = groupPass tokens (index + 1, found) ∨
      groupPass tokens (index, found) = .again (index + 1, found) := by
  obtain ⟨htoken, hrest⟩ := getElem?_of_drop h
  have hpass : groupPass tokens (index, found) = Pass.ofOutcome (takeQuery tokens (index + 1, found)) := by
    rw [groupPass_of_not_value h (by simp [value?, hcomma, termKind?]) (by simp [hcomma])]
    simp [skipComma, htoken, hcomma, Except.bind]
  rw [hpass]
  cases rest with
  | nil => exact .inl (by simp [groupPass, takeQuery, getElem?_eq_none_of_drop hrest, Pass.ofOutcome])
  | cons next more =>
    obtain ⟨hnext, -⟩ := getElem?_of_drop hrest
    by_cases hselect : next.kind = .selectWord
    · refine .inl ?_
      rw [groupPass_of_not_value hrest (by simp [value?, hselect, termKind?]) (by simp [hselect])]
      simp [skipComma, hnext, hselect, Except.bind]
    · exact .inr (by simp [takeQuery, hnext, hselect, Pass.ofOutcome])

theorem mirrors_groupPass_of_select (h : tokens.drop index = token :: rest)
    (hselect : token.kind = .selectWord) :
    Mirrors (groupPass tokens) (index, found)
      (.error ((statements (token :: rest)).fault.getD .endOfTokens)) := by
  obtain ⟨htoken, hrest⟩ := getElem?_of_drop h
  have hpass : groupPass tokens (index, found) = Pass.ofOutcome (takeQuery tokens (index, found)) := by
    rw [groupPass_of_not_value h (by simp [value?, hselect, termKind?]) (by simp [hselect])]
    simp [skipComma, htoken, hselect, Except.bind]
  rw [takeQuery, htoken] at hpass
  simp only [hselect, if_true, h] at hpass
  cases hfault : (statements (token :: rest)).fault with
  | some fault =>
    rw [hfault] at hpass
    exact mirrors_of_done hpass
  | none =>
    rw [hfault] at hpass
    refine .of_step (.inr hpass) (mirrors_of_done ?_)
    have hall := statements_exhausts _ _ (Nat.le_refl _) hfault
    have hend : tokens.length ≤ index + totalCount (statements (token :: rest)).read := by
      have hlength := congrArg List.length h
      rw [List.length_drop] at hlength
      omega
    simp only [groupPass, List.getElem?_eq_none hend]
    rfl

/-- The loop over what a parenthesis holds does what its reader says. -/
theorem mirrors_groupPass (hrest : tokens.drop index = rest) (hbound : rest.length ≤ bound) (found : Node) :
    Mirrors (groupPass tokens) (index, found)
      ((readGroup statements bound found rest).map fun all ↦ (all.1, index + all.2)) := by
  induction bound generalizing index found rest with
  | zero =>
    obtain rfl := List.eq_nil_of_length_eq_zero (Nat.le_zero.mp hbound)
    exact mirrors_of_done (by simp only [groupPass, getElem?_eq_none_of_drop hrest]; rfl)
  | succ bound ih =>
    cases rest with
    | nil => exact mirrors_of_done (by simp only [groupPass, getElem?_eq_none_of_drop hrest]; rfl)
    | cons token rest =>
      obtain ⟨htoken, hmore⟩ := getElem?_of_drop hrest
      have hlater := ih hmore (Nat.le_of_succ_le_succ hbound)
      simp only [Nat.add_assoc, Nat.add_comm 1] at hlater
      cases hvalue : value? token with
      | some item =>
        rw [readGroup_of_value hvalue]
        split
        · rw [map_map]
          exact .of_step (groupPass_of_value hrest hvalue) (hlater _)
        · next hgroup =>
          have hclose : token.kind ≠ .closeParen := by
            intro hkind
            simp [value?, hkind, termKind?] at hvalue
          refine mirrors_of_done ?_
          simp only [groupPass, htoken, hclose, if_false, takeValue, hvalue, Option.bind_some]
          rfl
      | none =>
        rw [readGroup_of_not_value hvalue]
        split
        · next hcomma =>
          rw [map_map]
          exact .of_step (groupPass_of_comma hrest hcomma) (hlater found)
        · next hclose =>
          refine mirrors_of_done ?_
          simp only [groupPass, htoken, hclose, if_true]
          rfl
        · next hselect => exact mirrors_groupPass_of_select hrest hselect
        · next hcomma hclose hselect =>
          refine mirrors_of_self ?_
          rw [groupPass_of_not_value hrest hvalue hclose]
          simp [skipComma, takeQuery, htoken, if_neg hcomma, if_neg hselect, Except.bind, Pass.ofOutcome]

end Groups

theorem mirrors_readColumns (tokens : List Token) :
    Mirrors (columnsPass tokens) (0, []) (readColumns tokens) := by
  have h : Mirrors (columnsPass tokens) (0, []) _ := mirrors_columnsPass List.drop_zero []
  cases hread : readColumns tokens with
  | error fault =>
    rw [hread] at h
    exact h
  | ok found => simpa [hread, Except.map] using h

theorem mirrors_readGroup (tokens : List Token) :
    Mirrors (groupPass tokens) (0, .group []) (readGroup statements tokens.length (.group []) tokens) := by
  have h : Mirrors (groupPass tokens) (0, .group []) _ :=
    mirrors_groupPass List.drop_zero (Nat.le_refl _) (.group [])
  cases hread : readGroup statements tokens.length (.group []) tokens with
  | error fault =>
    rw [hread] at h
    exact h
  | ok found => simpa [hread, Except.map] using h

end SqlLayout.Read
