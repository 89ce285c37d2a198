import SqlLayout.Proofs.Read.Trees

/-!
# Reading without a bound

The bound of the reader of statements is only there to make it end.  Every bound that is not less than the
number of tokens gives the same statements, and so the statements of some tokens are the first one and
the statements of the tokens that it left.
-/

namespace SqlLayout.Read

section Queries

variable {first second : List Token → Statements} {limit : Nat}
  (hsame : ∀ tokens : List Token, tokens.length ≤ limit → first tokens = second tokens)
  {tokens : List Token}

include hsame

theorem readGroup_congr (hlimit : tokens.length ≤ limit) (bound : Nat) (found : Node) :
    readGroup first bound found tokens = readGroup second bound found tokens := by
  induction bound generalizing tokens found with
  | zero => rfl
  | succ bound ih =>
    cases tokens with
    | nil => rfl
    | cons token rest =>
      have hdrop (count : Nat) : ((token :: rest).drop count).length ≤ limit := by
        rw [List.length_drop]
        exact Nat.le_trans (Nat.sub_le _ _) hlimit
      simp only [readGroup, hsame _ hlimit, ih (Nat.le_of_succ_le hlimit),
        fun count ↦ ih (hdrop count)]

theorem readMembership_congr (hlimit : tokens.length ≤ limit) :
    readMembership first tokens = readMembership second tokens := by
  cases tokens with
  | nil => rfl
  | cons left rest =>
    cases rest with
    | nil => rfl
    | cons op inner =>
      have hinner : (inner.drop 1).length ≤ limit := by
        simp only [List.length_cons, List.length_drop] at hlimit ⊢
        omega
      simp only [readMembership, readGroup_congr hsame hinner]

theorem readCondition_congr (hlimit : tokens.length ≤ limit) (membership : Bool) :
    readCondition first membership tokens = readCondition second membership tokens := by
  rw [readCondition_eq, readCondition_eq, readMembership_congr hsame hlimit]

theorem readLinked_congr (hlimit : tokens.length ≤ limit) (membership : Bool) (bound : Nat) :
    readLinked first membership bound tokens = readLinked second membership bound tokens := by
  induction bound generalizing tokens with
  | zero => rfl
  | succ bound ih =>
    cases tokens with
    | nil => rfl
    | cons token rest =>
      rw [readLinked, readLinked, readCondition_congr hsame hlimit]
      congr 1
      funext found
      dsimp only
      split
      · next word more hdrop =>
        rw [ih]
        have hlength := congrArg List.length hdrop
        simp only [List.length_drop, List.length_cons] at hlength hlimit
        omega
      · rfl

theorem readConditions_congr (hlimit : tokens.length ≤ limit) :
    readConditions first tokens = readConditions second tokens :=
  readLinked_congr hsame hlimit _ _

theorem readSource_congr (hlimit : tokens.length ≤ limit) (word table : String)
    (columns : List Node) :
    readSource first word table columns tokens = readSource second word table columns tokens := by
  unfold readSource
  split
  · rfl
  · rfl
  · rw [hsame _ hlimit]
  · rfl

/-- A statement consults the reader of queries only behind its first token. -/
theorem readStatement_congr (hlimit : tokens.length ≤ limit + 1) :
    readStatement first tokens = readStatement second tokens := by
  cases tokens with
  | nil => rfl
  | cons token rest =>
    have hrest : rest.length ≤ limit := Nat.le_of_succ_le_succ hlimit
    obtain ⟨kind, text⟩ := token
    cases kind with
    | whereWord => simp only [readStatement, readWhere, readConditions_congr hsame hrest]
    | havingWord => simp only [readStatement, readHaving, readConditions_congr hsame hrest]
    | insertWord =>
      cases rest with
      | nil => rfl
      | cons table rest =>
        simp only [readStatement, readInsert]
        split
        · split
          · rfl
          · next inner =>
            have hsource (count : Nat) : (inner.drop count).length ≤ limit := by
              simp only [List.length_cons, List.length_drop] at hrest ⊢
              omega
            simp only [fun count ↦ readSource_congr hsame (hsource count)]
          · simp only [readSource_congr hsame (Nat.le_of_succ_le hrest)]
        · rfl
    | _ => rfl

end Queries

section Bounded

variable {bound other : Nat} {tokens : List Token}

/-- Readers that give the same behind the first of some tokens give the same with all bounds that are not
less than the number of tokens. -/
theorem congr_of_bounds {α σ : Type} (read : Nat → σ → List Token → α)
    (hnil : ∀ bound state, read bound state [] = read 0 state [])
    (hcons : ∀ {bound other token rest} state,
      (∀ state (more : List Token), more.length ≤ rest.length →
        read bound state more = read other state more) →
      read (bound + 1) state (token :: rest) = read (other + 1) state (token :: rest))
    (hbound : tokens.length ≤ bound) (hother : tokens.length ≤ other) (state : σ) :
    read bound state tokens = read other state tokens := by
  have hempty {bound other : Nat} (state : σ) : read bound state [] = read other state [] :=
    (hnil bound state).trans (hnil other state).symm
  induction bound generalizing other tokens state with
  | zero =>
    obtain rfl := List.eq_nil_of_length_eq_zero (Nat.le_zero.mp hbound)
    exact hempty state
  | succ bound ih =>
    cases tokens with
    | nil => exact hempty state
    | cons token rest =>
      obtain ⟨other, rfl⟩ : ∃ less, other = less + 1 :=
        Nat.exists_eq_add_of_le' (Nat.le_trans (Nat.le_add_left 1 _) hother)
      rw [List.length_cons] at hbound hother
      exact hcons state fun state more hmore ↦ ih (by omega) (by omega) state

theorem readList_congr {item : List Token → Except Fault (List Node × Nat)}
    {separator : List Token → Option (List Node × List Token)}
    (hseparator : ∀ {tokens between more}, separator tokens = some (between, more) →
      ∃ token, tokens = token :: more)
    (hbound : tokens.length ≤ bound) (hother : tokens.length ≤ other) :
    readList item separator bound tokens = readList item separator other tokens := by
  refine congr_of_bounds (fun bound (_ : Unit) ↦ readList item separator bound) ?_ ?_ hbound hother ()
  · intro bound _
    cases bound <;> rfl
  · intro bound other token rest _ ih
    simp only [readList]
    congr 1
    funext found
    cases hfound : separator ((token :: rest).drop found.2) with
    | none => rfl
    | some separated =>
      obtain ⟨between, more⟩ := separated
      obtain ⟨next, hdrop⟩ := hseparator hfound
      have hlength := congrArg List.length hdrop
      simp only [List.length_drop, List.length_cons] at hlength
      simp only [ih () more (by omega)]

theorem readStatements_congr (hbound : tokens.length ≤ bound) (hother : tokens.length ≤ other) :
    readStatements bound tokens = readStatements other tokens := by
  refine congr_of_bounds (fun bound (_ : Unit) ↦ readStatements bound) ?_ ?_ hbound hother ()
  · intro bound _
    cases bound <;> rfl
  · intro bound other token rest _ ih
    have hsame : readStatement (readStatements bound) (token :: rest) =
        readStatement (readStatements other) (token :: rest) :=
      readStatement_congr (ih ()) (Nat.le_refl (rest.length + 1))
    unfold readStatements
    rw [hsame]
    split
    · rfl
    · next node count hread =>
      have hpos := readStatement_count_pos hread
      rw [ih ()]
      rw [List.length_drop, List.length_cons]
      omega

end Bounded

theorem statements_cons (token : Token) (rest : List Token) :
    statements (token :: rest) =
      match readStatement statements (token :: rest) with
      | .error fault => ⟨[], some fault⟩
      | .ok (node, count) =>
        ⟨(node, count) :: (statements ((token :: rest).drop count)).read,
          (statements ((token :: rest).drop count)).fault⟩ := by
  have hsame : readStatement (readStatements rest.length) (token :: rest) =
      readStatement statements (token :: rest) :=
    readStatement_congr (fun tokens htokens ↦ readStatements_congr htokens (Nat.le_refl _))
      (Nat.le_refl _)
  rw [statements, List.length_cons, readStatements, hsame]
  cases hread : readStatement statements (token :: rest) with
  | error fault => rfl
  | ok found =>
    have hpos := readStatement_count_pos hread
    have hleft : ((token :: rest).drop found.2).length ≤ rest.length := by
      rw [List.length_drop, List.length_cons]
      omega
    simp only [readStatements_congr hleft (Nat.le_refl _)]
    rfl

theorem statements_exhausts (bound : Nat) : Exhausts statements bound :=
  fun tokens _ ↦ readStatements_exhausts tokens.length tokens (Nat.le_refl _)

theorem length_le_totalCount {tokens : List Token} {nodes : List Node}
    (h : parse tokens = .ok nodes) : tokens.length ≤ totalCount (statements tokens).read := by
  apply statements_exhausts _ _ (Nat.le_refl _)
  unfold parse at h
  split at h
  · cases h
  · assumption

theorem parse_nil : parse [] = .ok [] := rfl

/-- The first statement, and the statements of the tokens that it left. -/
theorem parse_cons (token : Token) (rest : List Token) :
    parse (token :: rest) = (readStatement statements (token :: rest)).bind fun found ↦
      (parse ((token :: rest).drop found.2)).map (found.1 :: ·) := by
  rw [parse, statements_cons]
  cases readStatement statements (token :: rest) with
  | error fault => rfl
  | ok found =>
    simp only [Except.bind, parse]
    cases (statements ((token :: rest).drop found.2)).fault <;> rfl

/-- The query of an INSERT is all the statements that are left. -/
theorem readSource_select (word table : String) (columns : List Node) (text : String)
    (rest : List Token) :
    readSource statements word table columns (⟨.selectWord, text⟩ :: rest) =
      (parse (⟨.selectWord, text⟩ :: rest)).map fun query ↦
        (.insertClause word table none columns query,
          totalCount (statements (⟨.selectWord, text⟩ :: rest)).read) := by
  simp only [readSource, parse]
  cases (statements (⟨.selectWord, text⟩ :: rest)).fault <;> rfl

end SqlLayout.Read
