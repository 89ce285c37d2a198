import SqlLayout.Proofs.Read.Tests

/-!
# The number of tokens that a statement takes

A statement takes its first token, and no more tokens than there are, with one exception.  Behind a
comparison of two calls in the conditions of a join one token more is counted, whether there is one or not.
So the count runs past the end of the tokens exactly if the reading gets to such a comparison and nothing
stands behind it.  Then it is one too many, and so is the sum of the counts of all statements.
-/

namespace SqlLayout.Read

variable {tokens : List Token} {node : Node} {nodes : List Node} {count bound limit : Nat}

/-! ### Readers that stay within their tokens -/

theorem Stuck.lt (h : Stuck (tokens.drop count)) : count < tokens.length := by
  obtain ⟨token, more, hdrop, -⟩ := h
  have hlength := congrArg List.length hdrop
  rw [List.length_drop, List.length_cons] at hlength
  omega

theorem readAlias_le (tokens : List Token) : (readAlias tokens).2 ≤ tokens.length := by
  rcases readAlias_last tokens with hnone | ⟨n, hcount, hstuck⟩
  · omega
  · rw [hcount]
    exact hstuck.lt

theorem readCall_le (h : readCall tokens = .ok (node, count)) : count ≤ tokens.length := by
  obtain ⟨n, rfl, hstuck⟩ := readCall_last h
  exact hstuck.lt

theorem readNamed_le (h : readNamed tokens = .ok (node, count)) : count ≤ tokens.length := by
  unfold readNamed at h
  split at h
  · rename_i text rest
    cases h
    exact Nat.succ_le_succ (readAlias_le rest)
  · rename_i text rest
    cases h
    exact Nat.succ_le_succ (readAlias_le rest)
  · cases h
  · cases h

theorem readBranches_le (tokens : List Token) : (readBranches tokens).2 ≤ tokens.length := by
  fun_induction readBranches tokens with
  | case1 _ _ _ _ _ _ _ _ hrest ih =>
    rw [hrest] at ih
    simp only [List.length_cons]
    omega
  | case3 _ _ _ _ _ _ hrest ih =>
    rw [hrest] at ih
    simp only [List.length_cons]
    omega
  | _ => exact Nat.zero_le _

theorem readSelectItem_le (h : readSelectItem tokens = .ok (node, count)) : count ≤ tokens.length := by
  unfold readSelectItem at h
  split at h
  · exact readNamed_le h
  · exact readNamed_le h
  · exact readCall_le h
  · rename_i word rest
    cases h
    exact Nat.succ_le_succ (readBranches_le rest)
  · cases h

theorem readList_le {item : List Token → Except Fault (List Node × Nat)}
    {separator : List Token → Option (List Node × List Token)}
    (hitem : ∀ tokens nodes count, tokens.length ≤ limit → item tokens = .ok (nodes, count) →
      count ≤ tokens.length)
    (hseparator : ∀ tokens between more, separator tokens = some (between, more) →
      ∃ token, tokens = token :: more)
    (hlimit : tokens.length ≤ limit)
    (h : readList item separator bound tokens = .ok (nodes, count)) : count ≤ tokens.length := by
  induction bound generalizing tokens nodes count with
  | zero =>
    cases h
    exact Nat.zero_le _
  | succ bound ih =>
    cases tokens with
    | nil =>
      cases h
      exact Nat.zero_le _
    | cons token rest =>
      obtain ⟨⟨found, taken⟩, hfound, h⟩ := bind_eq_ok.mp h
      have hle := hitem _ _ _ hlimit hfound
      cases hmore : separator ((token :: rest).drop taken) with
      | none =>
        simp only [hmore] at h
        cases h
        exact hle
      | some separated =>
        obtain ⟨between, more⟩ := separated
        simp only [hmore] at h
        obtain ⟨⟨others, counted⟩, hothers, hall⟩ := map_eq_ok.mp h
        cases hall
        obtain ⟨next, hdrop⟩ := hseparator _ _ _ hmore
        have hlength : (token :: rest).length - taken = more.length + 1 := by
          rw [← List.length_drop, hdrop, List.length_cons]
        have hcounted := ih (by omega) hothers
        omega

theorem readSelect_le (h : readSelect tokens = .ok (node, count)) : count ≤ tokens.length := by
  cases tokens with
  | nil => cases h
  | cons token rest =>
    obtain ⟨⟨items, taken⟩, hitems, hfound⟩ := bind_eq_ok.mp h
    cases hfound
    rw [readSelectItems_eq_readList] at hitems
    refine Nat.succ_le_succ (readList_le ?_ (fun _ _ _ ↦ exists_of_comma?) (Nat.le_refl _) hitems)
    intro tokens nodes count _ hitem
    obtain ⟨⟨found, taken⟩, hfound, hpair⟩ := map_eq_ok.mp hitem
    cases hpair
    exact readSelectItem_le hfound

theorem readGroupBy_le (hne : tokens ≠ []) (h : readGroupBy tokens = .ok (node, count)) :
    count ≤ tokens.length := by
  obtain ⟨token, rest, rfl⟩ := List.exists_cons_of_ne_nil hne
  obtain ⟨⟨items, taken⟩, hitems, h⟩ := bind_eq_ok.mp h
  rw [List.drop_succ_cons, List.drop_zero, readGroupItems_eq_readList (Nat.le_refl _)] at hitems
  have hle : taken ≤ rest.length := by
    refine readList_le ?_ (fun _ _ _ ↦ exists_of_comma?) (Nat.le_refl _) hitems
    intro tokens nodes count _ hitem
    unfold groupItem at hitem
    split at hitem
    · cases hitem
    · split at hitem
      · cases hitem
      · cases hitem
        exact Nat.le_add_left _ _
  dsimp only at h
  split at h
  · rename_i word more hdrop
    cases h
    have hlength := congrArg List.length hdrop
    simp only [List.length_drop, List.length_cons] at hlength ⊢
    omega
  · cases h
    exact Nat.succ_le_succ hle

theorem readOrderBy_le (hne : tokens ≠ []) (h : readOrderBy tokens = .ok (node, count)) :
    count ≤ tokens.length := by
  obtain ⟨token, rest, rfl⟩ := List.exists_cons_of_ne_nil hne
  obtain ⟨⟨items, taken⟩, hitems, h⟩ := bind_eq_ok.mp h
  cases h
  rw [List.drop_succ_cons, List.drop_zero, readOrderItems_eq_readList] at hitems
  refine Nat.succ_le_succ (readList_le ?_ (fun _ _ _ ↦ exists_of_comma?) (Nat.le_refl _) hitems)
  intro tokens nodes count _ hitem
  cases tokens with
  | nil => cases hitem
  | cons token rest =>
    rw [orderItem] at hitem
    split at hitem
    · cases hitem
    · cases hitem
      cases rest with
      | nil => simp [sortWord?]
      | cons next rest =>
        simp only [List.length_cons]
        split <;> omega

theorem readLimit_le (h : readLimit tokens = .ok (node, count)) : count ≤ tokens.length := by
  rw [readLimit_eq, readPlainLimit_eq] at h
  split at h
  · rename_i hfits
    cases h
    exact length_le_of_fits hfits
  · split at h
    · rename_i hfits
      cases h
      exact length_le_of_fits hfits.1
    · split at h
      · rename_i hfits
        cases h
        exact length_le_of_fits hfits
      · cases h

theorem readConditions_le {statements : List Token → Statements} (hstatements : Exhausts statements limit)
    (hlimit : tokens.length ≤ limit) (h : readConditions statements tokens = .ok (nodes, count)) :
    count ≤ tokens.length := by
  rw [readConditions, readLinked_eq_readList] at h
  refine readList_le ?_ (fun _ _ _ ↦ exists_of_link?) hlimit h
  intro tokens nodes count hlimit hitem
  obtain ⟨⟨condition, taken⟩, hcondition, hpair⟩ := map_eq_ok.mp hitem
  cases hpair
  rcases readCondition_isWhole_or_stuck hstatements hlimit hcondition with hwhole | hstuck
  · obtain ⟨test, more, -, rfl, rfl, -⟩ := exists_test_of_readCondition hcondition hwhole
    simp
  · exact Nat.le_of_lt hstuck.lt

theorem readNameComparison_le (tokens : List Token) : (readNameComparison tokens).2 ≤ tokens.length := by
  rw [readNameComparison_eq]
  split
  · rename_i hfits
    exact length_le_of_fits hfits
  · exact Nat.zero_le _

theorem readCallOnRight_le (h : readCallOnRight tokens = .ok (nodes, count)) : count ≤ tokens.length := by
  rw [readCallOnRight_eq] at h
  split at h
  · rename_i hfits
    obtain ⟨⟨call, taken⟩, hcall, hpair⟩ := map_eq_ok.mp h
    cases hpair
    have hthree := length_le_of_fits hfits
    have hle := readCall_le hcall
    simp only [List.length_drop, List.length_cons] at hle hthree ⊢
    omega
  · cases h
    exact Nat.zero_le _

theorem readColumnList_le (h : readColumnList tokens = .ok (nodes, count)) : count ≤ tokens.length := by
  rcases readColumnList_cases h with ⟨-, rfl⟩ | ⟨word, inner, taken, rfl, hcolumns, rfl⟩
  · exact Nat.zero_le _
  · obtain ⟨listed, closing, more, rfl, -, -, -, rfl⟩ := readColumns_cases hcolumns
    simp only [List.length_cons, List.length_append]
    omega

/-! ### Readers that can run past the end -/

inductive Reader
  | statements
  | statement
  | parts
  | conditions
  | callOnLeft

inductive Overruns : Reader → List Token → Prop
  /-- A call, a comparison, and a call that takes all the tokens that are left. -/
  | calls {tokens right : List Token} {left call : Node} {op : String} {count : Nat} :
      readCall tokens = .ok (left, count) → tokens.drop count = ⟨.compare, op⟩ :: right →
      readCall right = .ok (call, right.length) → Overruns .callOnLeft tokens
  /-- A comparison with a call on its left is read behind those of the other forms. -/
  | comparisons {tokens : List Token} {right : List Node} {count : Nat} :
      readCallOnRight (tokens.drop (readNameComparison tokens).2) = .ok (right, count) →
      Overruns .callOnLeft (tokens.drop ((readNameComparison tokens).2 + count)) →
      Overruns .conditions tokens
  | link {tokens more : List Token} {found : List Node} {word : String} {count : Nat} :
      readComparisons tokens = .ok (found, count) → tokens.drop count = ⟨.link, word⟩ :: more →
      Overruns .conditions more → Overruns .conditions tokens
  | on {rest : List Token} (word : String) :
      Overruns .conditions rest → Overruns .parts (⟨.onWord, word⟩ :: rest)
  | part {tokens : List Token} {found : List Node} {count : Nat} :
      readFromPart tokens = .ok (some (found, count)) → Overruns .parts (tokens.drop count) →
      Overruns .parts tokens
  | fromClause {rest : List Token} (word : String) :
      Overruns .parts rest → Overruns .statement (⟨.fromWord, word⟩ :: rest)
  /-- The query of an INSERT. -/
  | query {rest more : List Token} {columns : List Node} {count : Nat} {insert table word : String} :
      readColumnList rest = .ok (columns, count) → rest.drop count = ⟨.selectWord, word⟩ :: more →
      Overruns .statements (⟨.selectWord, word⟩ :: more) →
      Overruns .statement (⟨.insertWord, insert⟩ :: ⟨.identifier, table⟩ :: rest)
  | first {tokens : List Token} : Overruns .statement tokens → Overruns .statements tokens
  | next {tokens : List Token} {node : Node} {count : Nat} :
      readStatement statements tokens = .ok (node, count) → Overruns .statements (tokens.drop count) →
      Overruns .statements tokens

/-- A count of no more than the tokens and one, which is more than the tokens exactly if `past` holds. -/
def Counts (tokens : List Token) (past : Prop) (count : Nat) : Prop :=
  count ≤ tokens.length + 1 ∧ (tokens.length < count ↔ past)

theorem counts_of_le {past : Prop} (h : count ≤ tokens.length) (hover : ¬past) :
    Counts tokens past count :=
  ⟨by omega, iff_of_false (by omega) hover⟩

/-- Counts go on behind tokens that were taken. -/
theorem Counts.behind {past : Prop} {taken : Nat} (h : Counts (tokens.drop taken) past count)
    (htaken : taken ≤ tokens.length) : Counts tokens past (taken + count) := by
  obtain ⟨hle, hover⟩ := h
  rw [List.length_drop] at hle hover
  exact ⟨by omega, by rw [← hover]; omega⟩

theorem Counts.congr {past other : Prop} (h : Counts tokens past count) (hiff : past ↔ other) :
    Counts tokens other count :=
  ⟨h.1, h.2.trans hiff⟩

/-- What comes first and what is read behind it.  Behind the end nothing is left to read. -/
theorem Counts.andThen {past later : Prop} {taken : Nat} (h : Counts tokens past taken)
    (hrest : Counts (tokens.drop taken) later count) (hnil : tokens.drop taken = [] → count = 0) :
    Counts tokens (past ∨ later) (taken + count) := by
  by_cases hle : taken ≤ tokens.length
  · refine (hrest.behind hle).congr (or_iff_right fun hpast ↦ ?_).symm
    have hlt := h.2.mpr hpast
    omega
  · have hlast := h.1
    have hzero := hnil (List.drop_eq_nil_of_le (by omega))
    exact ⟨by omega, iff_of_true (by omega) (.inl (h.2.mp (by omega)))⟩

theorem readCompared_counts {call : Node} {taken : Nat} (hcall : readCall tokens = .ok (call, taken))
    (h : readCompared call taken (tokens.drop taken) = .ok (nodes, count)) :
    Counts tokens (Overruns .callOnLeft tokens) count := by
  have hle := readCall_le hcall
  have hright : ∀ {right : List Token} {other : Node} {counted : Nat},
      readCall right = .ok (other, counted) → ∃ name rest, right = ⟨.func, name⟩ :: rest := by
    intro right other counted hright
    obtain ⟨name, paren, inner, args, _, rfl, -⟩ := readCall_eq_ok.mp hright
    exact ⟨name, _, rfl⟩
  have hover : Overruns .callOnLeft tokens ↔ ∃ op right other,
      tokens.drop taken = ⟨.compare, op⟩ :: right ∧ readCall right = .ok (other, right.length) := by
    constructor
    · intro hover
      cases hover with
      | calls hleft hdrop hother =>
        rw [hcall] at hleft
        cases hleft
        exact ⟨_, _, _, hdrop, hother⟩
    · rintro ⟨op, right, other, hdrop, hother⟩
      exact .calls hcall hdrop hother
  rw [hover]
  have hlength := List.length_drop (i := taken) (l := tokens)
  unfold readCompared at h
  split at h
  · rename_i hfits
    cases h
    have htwo := length_le_of_fits hfits
    simp only [List.length_cons, List.length_nil] at htwo
    refine counts_of_le (by omega) ?_
    rintro ⟨op, right, other, hdrop, hother⟩
    obtain ⟨name, rest, rfl⟩ := hright hother
    rw [hdrop] at hfits
    simp [fits] at hfits
  · split at h
    · rename_i hfits
      obtain ⟨⟨other, counted⟩, hother, hfound⟩ := map_eq_ok.mp h
      cases hfound
      obtain ⟨⟨kind, op⟩, right, hdrop⟩ : ∃ token right, tokens.drop taken = token :: right :=
        List.exists_cons_of_ne_nil (by
          rintro hnil
          rw [hnil] at hfits
          cases hfits)
      rw [hdrop] at hlength hother hfits
      obtain rfl : kind = .compare := by
        simp only [fits, Bool.and_eq_true, decide_eq_true_eq] at hfits
        exact hfits.1
      rw [List.drop_succ_cons, List.drop_zero] at hother
      have hcounted := readCall_le hother
      rw [List.length_cons] at hlength
      refine ⟨by omega, fun hlt ↦ ?_, ?_⟩
      · obtain rfl : counted = right.length := by omega
        exact ⟨op, right, other, hdrop, hother⟩
      · rintro ⟨op', right', other', hdrop', hother'⟩
        rw [hdrop] at hdrop'
        obtain ⟨-, rfl⟩ := List.cons.inj hdrop'
        rw [hother] at hother'
        cases hother'
        omega
    · rename_i hnot
      cases h
      refine counts_of_le (Nat.zero_le _) ?_
      rintro ⟨op, right, other, hdrop, hother⟩
      obtain ⟨name, rest, rfl⟩ := hright hother
      rw [hdrop] at hnot
      simp [fits] at hnot

theorem readCallOnLeft_counts (h : readCallOnLeft tokens = .ok (nodes, count)) :
    Counts tokens (Overruns .callOnLeft tokens) count := by
  rw [readCallOnLeft_eq] at h
  split at h
  · obtain ⟨⟨call, taken⟩, hcall, hcompared⟩ := bind_eq_ok.mp h
    exact readCompared_counts hcall hcompared
  · rename_i hfits
    cases h
    refine counts_of_le (Nat.zero_le _) ?_
    intro hover
    cases hover with
    | calls hleft =>
      obtain ⟨name, paren, inner, args, _, rfl, -⟩ := readCall_eq_ok.mp hleft
      simp [fits] at hfits

theorem not_overruns_conditions_nil : ¬Overruns .conditions [] := by
  intro hover
  cases hover with
  | comparisons hright hleft =>
    cases hright
    cases hleft with
    | calls hcall => cases hcall
  | link hfound hdrop =>
    rw [List.drop_nil] at hdrop
    cases hdrop

theorem readComparisons_counts (h : readComparisons tokens = .ok (nodes, count)) :
    ∃ right taken, readCallOnRight (tokens.drop (readNameComparison tokens).2) = .ok (right, taken) ∧
      Counts tokens (Overruns .callOnLeft (tokens.drop ((readNameComparison tokens).2 + taken))) count := by
  have hnames := readNameComparison_le tokens
  unfold readComparisons at h
  generalize readNameComparison tokens = names at h hnames ⊢
  obtain ⟨⟨right, m⟩, hright, h⟩ := bind_eq_ok.mp h
  obtain ⟨⟨left, k⟩, hleft, hfound⟩ := bind_eq_ok.mp h
  cases hfound
  have hm := readCallOnRight_le hright
  rw [List.length_drop] at hm
  exact ⟨right, m, hright, (readCallOnLeft_counts hleft).behind (by omega)⟩

/-- Behind a comparison of two calls at the end there is no link, so that only the last of linked
comparisons can run past the end. -/
theorem readJoinConditions_counts (hbound : tokens.length ≤ bound)
    (h : readJoinConditions bound tokens = .ok (nodes, count)) :
    Counts tokens (Overruns .conditions tokens) count := by
  induction bound generalizing tokens nodes count with
  | zero =>
    obtain rfl := List.eq_nil_of_length_eq_zero (Nat.le_zero.mp hbound)
    cases h
    exact counts_of_le (Nat.le_refl _) not_overruns_conditions_nil
  | succ bound ih =>
    rw [readJoinConditions_succ] at h
    obtain ⟨⟨found, taken⟩, hfound, h⟩ := bind_eq_ok.mp h
    obtain ⟨right, m, hright, hcounts⟩ := readComparisons_counts hfound
    have hover : Overruns .conditions tokens ↔
        Overruns .callOnLeft (tokens.drop ((readNameComparison tokens).2 + m)) ∨
          ∃ word more, tokens.drop taken = ⟨.link, word⟩ :: more ∧ Overruns .conditions more := by
      constructor
      · intro hover
        cases hover with
        | comparisons hright' hleft =>
          rw [hright] at hright'
          cases hright'
          exact .inl hleft
        | link hfound' hdrop hmore =>
          rw [readRemaining] at hfound
          rw [hfound] at hfound'
          cases hfound'
          exact .inr ⟨_, _, hdrop, hmore⟩
      · rintro (hleft | ⟨word, more, hdrop, hmore⟩)
        · exact .comparisons hright hleft
        · exact .link hfound hdrop hmore
    rw [hover]
    dsimp only at h
    cases hlink : behindLink? (tokens.drop taken) with
    | none =>
      simp only [hlink] at h
      cases h
      refine hcounts.congr (or_iff_left ?_).symm
      rintro ⟨word, more, hdrop, -⟩
      rw [hdrop] at hlink
      cases hlink
    | some separated =>
      obtain ⟨word, more⟩ := separated
      simp only [hlink] at h
      obtain ⟨⟨others, counted⟩, hothers, hall⟩ := bind_eq_ok.mp h
      cases hall
      have hdrop := behindLink?_eq_some.mp hlink
      have hlength : tokens.length - taken = more.length + 1 := by
        rw [← List.length_drop, hdrop, List.length_cons]
      have hmore : tokens.drop (taken + 1) = more := by
        rw [← List.drop_drop, hdrop, List.drop_succ_cons, List.drop_zero]
      have hall := ih (by omega) hothers
      rw [← hmore] at hall
      refine (hall.behind (by omega)).congr ?_
      rw [hmore]
      constructor
      · exact fun hmore ↦ .inr ⟨word, more, hdrop, hmore⟩
      · rintro (hleft | ⟨word', more', hdrop', hmore'⟩)
        · have hlt := hcounts.2.mpr hleft
          omega
        · rw [hdrop] at hdrop'
          cases hdrop'
          exact hmore'

/-! ### FROM clauses -/

theorem readFromPart_counts {part : Option (List Node × Nat)} (h : readFromPart tokens = .ok part) :
    (part = none ∧ ∀ word rest, tokens ≠ ⟨.onWord, word⟩ :: rest) ∨
      ∃ found count, part = some (found, count) ∧ 0 < count ∧
        Counts tokens (∃ word rest, tokens = ⟨.onWord, word⟩ :: rest ∧ Overruns .conditions rest) count := by
  cases tokens with
  | nil =>
    cases h
    exact .inl ⟨rfl, by simp⟩
  | cons token rest =>
    obtain ⟨kind, text⟩ := token
    have hnone : kind ≠ .onWord → ¬∃ word rest', (⟨kind, text⟩ :: rest : List Token) =
        ⟨.onWord, word⟩ :: rest' ∧ Overruns .conditions rest' := by
      rintro hkind ⟨word, rest', heq, -⟩
      cases heq
      exact hkind rfl
    cases kind with
    | identifier | number =>
      obtain ⟨⟨node, count⟩, hnamed, hpart⟩ := bind_eq_ok.mp h
      cases hpart
      have hle := readNamed_le hnamed
      have hpos : 0 < count := by
        cases hnamed
        exact Nat.succ_pos _
      exact .inr ⟨_, _, rfl, hpos, counts_of_le hle (hnone (by simp))⟩
    | onWord =>
      obtain ⟨⟨conditions, count⟩, hconditions, hpart⟩ := bind_eq_ok.mp h
      cases hpart
      refine .inr ⟨_, _, rfl, Nat.succ_pos _, ?_⟩
      have hcounts := readJoinConditions_counts (Nat.le_refl _) hconditions
      refine ⟨Nat.succ_le_succ hcounts.1, ?_⟩
      rw [List.length_cons, Nat.succ_lt_succ_iff, hcounts.2]
      constructor
      · exact fun hover ↦ ⟨text, rest, rfl, hover⟩
      · rintro ⟨word, rest', heq, hover⟩
        cases heq
        exact hover
    | join | comma =>
      cases h
      exact .inr ⟨_, _, rfl, Nat.succ_pos _,
        counts_of_le (Nat.le_add_left _ _) (hnone (by simp))⟩
    | _ =>
      cases h
      exact .inl ⟨rfl, by simp⟩

theorem not_overruns_parts (h : readFromPart tokens = .ok none)
    (hon : ∀ word rest, tokens ≠ ⟨.onWord, word⟩ :: rest) : ¬Overruns .parts tokens := by
  intro hover
  cases hover with
  | on word _ => exact hon word _ rfl
  | part hpart _ =>
    rw [h] at hpart
    cases hpart

theorem readFromParts_counts (hbound : tokens.length ≤ bound)
    (h : readFromParts bound tokens = .ok (nodes, count)) :
    Counts tokens (Overruns .parts tokens) count := by
  induction bound generalizing tokens nodes count with
  | zero =>
    obtain rfl := List.eq_nil_of_length_eq_zero (Nat.le_zero.mp hbound)
    cases h
    exact counts_of_le (Nat.le_refl _) (not_overruns_parts rfl (by simp))
  | succ bound ih =>
    obtain ⟨part, hpart, h⟩ := bind_eq_ok.mp h
    rcases readFromPart_counts hpart with ⟨rfl, hon⟩ | ⟨found, taken, rfl, hpos, hcounts⟩
    · cases h
      exact counts_of_le (Nat.zero_le _) (not_overruns_parts hpart hon)
    · obtain ⟨⟨parts, counted⟩, hparts, hall⟩ := bind_eq_ok.mp h
      cases hall
      have hover : Overruns .parts tokens ↔
          (∃ word rest, tokens = ⟨.onWord, word⟩ :: rest ∧ Overruns .conditions rest) ∨
            Overruns .parts (tokens.drop taken) := by
        constructor
        · intro hover
          cases hover with
          | on word hrest => exact .inl ⟨word, _, rfl, hrest⟩
          | part hpart' hrest =>
            rw [hpart] at hpart'
            cases hpart'
            exact .inr hrest
        · rintro (⟨word, rest, rfl, hrest⟩ | hrest)
          · exact .on word hrest
          · exact .part hpart hrest
      rw [hover]
      refine hcounts.andThen (ih (by rw [List.length_drop]; omega) hparts) fun hnil ↦ ?_
      rw [hnil] at hparts
      cases bound <;> cases hparts <;> rfl

/-! ### Statements -/

theorem not_overruns_statement {token : Token} {rest : List Token}
    (hkind : token.kind ≠ .fromWord ∧ token.kind ≠ .insertWord) :
    ¬Overruns .statement (token :: rest) := by
  intro hover
  cases hover with
  | fromClause word _ => exact hkind.1 rfl
  | query => exact hkind.2 rfl

/-- The query of an INSERT is all that is left, so it runs past the end if its statements do. -/
theorem readSource_counts {insert table : String} {columns : List Node}
    (hquery : (statements tokens).fault = none →
      Counts tokens (Overruns .statements tokens) (totalCount (statements tokens).read))
    (h : readSource statements insert table columns tokens = .ok (node, count)) :
    Counts tokens (∃ word more, tokens = ⟨.selectWord, word⟩ :: more ∧ Overruns .statements tokens)
      count := by
  rcases readSource_cases h with ⟨values, paren, rest, rows, taken, rfl, hrows, -, rfl⟩ |
    ⟨word, more, htokens, hfault, -, rfl⟩ | ⟨hselect, -, rfl⟩
  · have hlt := (readRows_last hrows).lt
    refine counts_of_le ?_ (by simp)
    simp only [List.length_cons]
    omega
  · refine (hquery hfault).congr ⟨fun hover ↦ ⟨word, more, htokens, hover⟩, ?_⟩
    rintro ⟨-, -, -, hover⟩
    exact hover
  · refine counts_of_le (Nat.zero_le _) ?_
    rintro ⟨word, more, heq, -⟩
    exact hselect word more heq

theorem readInsert_counts {insert : String} {rest : List Token}
    (hquery : ∀ others : List Token, others.length ≤ rest.length →
      (statements others).fault = none →
      Counts others (Overruns .statements others) (totalCount (statements others).read))
    (h : readInsert statements (⟨.insertWord, insert⟩ :: rest) = .ok (node, count)) :
    Counts (⟨.insertWord, insert⟩ :: rest) (Overruns .statement (⟨.insertWord, insert⟩ :: rest)) count := by
  obtain ⟨_, ⟨kind, table⟩, rest, columns, taken, counted, heq, hkind, hcolumns, hsource, rfl⟩ :=
    readInsert_eq_ok.mp h
  cases heq
  obtain rfl : kind = .identifier := hkind
  have hle := readColumnList_le hcolumns
  have hover : Overruns .statement (⟨.insertWord, insert⟩ :: ⟨.identifier, table⟩ :: rest) ↔
      ∃ word more, rest.drop taken = ⟨.selectWord, word⟩ :: more ∧
        Overruns .statements (rest.drop taken) := by
    constructor
    · intro hover
      cases hover with
      | query hcolumns' hdrop hmore =>
        rw [hcolumns] at hcolumns'
        cases hcolumns'
        exact ⟨_, _, hdrop, hdrop ▸ hmore⟩
    · rintro ⟨word, more, hdrop, hmore⟩
      exact .query hcolumns hdrop (hdrop ▸ hmore)
  rw [hover]
  have hlength : (rest.drop taken).length ≤ rest.length := by
    rw [List.length_drop]
    omega
  have hcounts := readSource_counts (hquery _ (Nat.le_succ_of_le hlength)) hsource
  have hdrop : (⟨.insertWord, insert⟩ :: ⟨.identifier, table⟩ :: rest : List Token).drop
      (2 + taken) = rest.drop taken := by
    rw [Nat.add_comm, List.drop_succ_cons, List.drop_succ_cons]
  rw [← hdrop] at hcounts
  have hall := hcounts.behind (by simp only [List.length_cons]; omega)
  rwa [hdrop] at hall

theorem readStatement_counts
    (hquery : ∀ others : List Token, others.length < tokens.length → (statements others).fault = none →
      Counts others (Overruns .statements others) (totalCount (statements others).read))
    (h : readStatement statements tokens = .ok (node, count)) :
    Counts tokens (Overruns .statement tokens) count := by
  cases tokens with
  | nil => cases h
  | cons token rest =>
    obtain ⟨kind, text⟩ := token
    have hne : (⟨kind, text⟩ :: rest : List Token) ≠ [] := List.cons_ne_nil _ _
    cases kind with
    | fromWord =>
      obtain ⟨⟨parts, taken⟩, hparts, hfound⟩ := bind_eq_ok.mp h
      cases hfound
      have hcounts := readFromParts_counts (Nat.le_refl _) hparts
      refine ⟨Nat.succ_le_succ hcounts.1, ?_⟩
      rw [List.length_cons, Nat.succ_lt_succ_iff, hcounts.2]
      constructor
      · exact .fromClause text
      · intro hover
        cases hover with
        | fromClause _ hrest => exact hrest
    | insertWord =>
      exact readInsert_counts (fun others hlength ↦ hquery others (Nat.lt_succ_of_le hlength)) h
    | whereWord | havingWord =>
      obtain ⟨⟨conditions, taken⟩, hconditions, hfound⟩ := bind_eq_ok.mp h
      cases hfound
      have hle := readConditions_le (statements_exhausts rest.length) (Nat.le_refl _) hconditions
      exact counts_of_le (Nat.succ_le_succ hle) (not_overruns_statement (by simp))
    | groupWord => exact counts_of_le (readGroupBy_le hne h) (not_overruns_statement (by simp))
    | orderWord => exact counts_of_le (readOrderBy_le hne h) (not_overruns_statement (by simp))
    | func => exact counts_of_le (readCall_le h) (not_overruns_statement (by simp))
    | limitWord => exact counts_of_le (readLimit_le h) (not_overruns_statement (by simp))
    | selectWord => exact counts_of_le (readSelect_le h) (not_overruns_statement (by simp))
    | semicolon =>
      cases h
      exact counts_of_le (Nat.le_add_left _ _) (not_overruns_statement (by simp))
    | _ => cases h

/-- The counts of all statements add up to the tokens, or to one more. -/
theorem statements_counts (h : (statements tokens).fault = none) :
    Counts tokens (Overruns .statements tokens) (totalCount (statements tokens).read) := by
  induction hlength : tokens.length using Nat.strongRecOn generalizing tokens with
  | ind length ih =>
  subst hlength
  cases tokens with
  | nil =>
    refine counts_of_le (Nat.le_refl _) ?_
    intro hover
    cases hover with
    | first hfirst => cases hfirst
    | next hread _ => cases hread
  | cons token rest =>
    have hexhausts := statements_exhausts _ _ (Nat.le_refl _) h
    rw [statements_cons] at h hexhausts ⊢
    cases hread : readStatement statements (token :: rest) with
    | error fault =>
      rw [hread] at h
      cases h
    | ok found =>
      obtain ⟨node, count⟩ := found
      simp only [hread] at h hexhausts ⊢
      have hcounts := readStatement_counts (fun others hothers hfault ↦ ih _ hothers hfault rfl) hread
      have hpos := readStatement_count_pos hread
      have hover : Overruns .statements (token :: rest) ↔ Overruns .statement (token :: rest) ∨
          Overruns .statements ((token :: rest).drop count) := by
        constructor
        · intro hover
          cases hover with
          | first hfirst => exact .inl hfirst
          | next hread' hnext =>
            rw [hread] at hread'
            cases hread'
            exact .inr hnext
        · rintro (hfirst | hnext)
          · exact .first hfirst
          · exact .next hread hnext
      have htotal : totalCount ((node, count) :: (statements ((token :: rest).drop count)).read) =
          count + totalCount (statements ((token :: rest).drop count)).read := rfl
      rw [hover, htotal]
      have hshort : ((token :: rest).drop count).length < (token :: rest).length := by
        rw [List.length_drop, List.length_cons]
        omega
      refine hcounts.andThen (ih _ hshort h rfl) fun hnil ↦ ?_
      rw [hnil]
      rfl

/-- A statement takes at least one token, and no more than there are and one, which is one too many exactly
if it runs past the end.  The statements of a list of tokens together take all of them, or one too many
exactly if the last one runs past the end. -/
theorem count_le_iff_not_overruns (tokens : List Token) :
    (∀ node count, readStatement statements tokens = .ok (node, count) →
      1 ≤ count ∧ count ≤ tokens.length + 1 ∧
        (count ≤ tokens.length ↔ ¬Overruns .statement tokens)) ∧
    ((statements tokens).fault = none →
      tokens.length ≤ totalCount (statements tokens).read ∧
        totalCount (statements tokens).read ≤ tokens.length + 1 ∧
        (totalCount (statements tokens).read = tokens.length ↔ ¬Overruns .statements tokens)) := by
  constructor
  · intro node count h
    obtain ⟨hle, hover⟩ := readStatement_counts (fun others _ ↦ statements_counts) h
    exact ⟨readStatement_count_pos h, hle, by rw [← hover]; omega⟩
  · intro h
    obtain ⟨hle, hover⟩ := statements_counts h
    have hall := statements_exhausts _ _ (Nat.le_refl _) h
    exact ⟨hall, hle, by rw [← hover]; omega⟩

/-- `from a join b on f(x) = g(y)` -/
def joinByCalls : List Token :=
  [⟨.fromWord, "from"⟩, ⟨.identifier, "a"⟩, ⟨.join, "join"⟩, ⟨.identifier, "b"⟩, ⟨.onWord, "on"⟩,
    ⟨.func, "f"⟩, ⟨.openParen, "("⟩, ⟨.identifier, "x"⟩, ⟨.closeParen, ")"⟩, ⟨.compare, "="⟩,
    ⟨.func, "g"⟩, ⟨.openParen, "("⟩, ⟨.identifier, "y"⟩, ⟨.closeParen, ")"⟩]

def joinByCallsNode : Node :=
  .fromClause "from" [.plain .identifier "a", .join "join", .plain .identifier "b",
    .onClause "on" [.condition [.call "f" [.plain .identifier "x"] none none, .operator "=",
      .call "g" [.plain .identifier "y"] none none]]]

/-- With a semicolon behind the comparison, the count is right: it covers the semicolon. -/
theorem count_le_joinByCalls_semicolon :
    readStatement statements (joinByCalls ++ [⟨.semicolon, ";"⟩]) = .ok (joinByCallsNode, 15) ∧
      ¬Overruns .statement (joinByCalls ++ [⟨.semicolon, ";"⟩]) ∧
      (statements (joinByCalls ++ [⟨.semicolon, ";"⟩])).fault = none ∧
      ¬Overruns .statements (joinByCalls ++ [⟨.semicolon, ";"⟩]) := by
  obtain ⟨hone, hall⟩ := count_le_iff_not_overruns (joinByCalls ++ [⟨.semicolon, ";"⟩])
  have hread : readStatement statements (joinByCalls ++ [⟨.semicolon, ";"⟩]) =
      .ok (joinByCallsNode, 15) := rfl
  exact ⟨hread, (hone _ _ hread).2.2.mp (Nat.le_refl _), rfl, (hall rfl).2.2.mp rfl⟩

/-- Without one, the count is one too many. -/
theorem count_joinByCalls :
    joinByCalls.length = 14 ∧ readStatement statements joinByCalls = .ok (joinByCallsNode, 15) ∧
      (statements joinByCalls).fault = none ∧ totalCount (statements joinByCalls).read = 15 :=
  ⟨rfl, rfl, rfl, rfl⟩

end SqlLayout.Read
