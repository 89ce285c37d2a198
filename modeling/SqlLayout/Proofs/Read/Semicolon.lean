import SqlLayout.Proofs.Read.Bounds

/-!
# Reading up to a semicolon

A reader that succeeds in front of a semicolon has not seen what stands behind it.  So where the tokens
that follow the semicolon are others, it finds the same and takes as many tokens.
-/

namespace SqlLayout

def Node.comparesCalls : Node → Bool
  | condition [call .., operator _, call ..] => true
  | _ => false

def Node.joinsByCalls : Node → Bool
  | onClause _ parts => parts.any comparesCalls
  | _ => false

namespace Read

open Node

variable {bound other limit : Nat} {xs : List Token}

/-- How two lists of tokens go on behind the same front: the first with a semicolon, and the second with
the same semicolon and more. -/
inductive Seam : List Token → List Token → Prop
  | semicolon (text : String) (others : List Token) :
      Seam [⟨.semicolon, text⟩] (⟨.semicolon, text⟩ :: others)

theorem Seam.append_ne_nil {t u : List Token} (h : Seam t u) (xs : List Token) :
    xs ++ t ≠ [] ∧ xs ++ u ≠ [] := by
  cases h
  exact ⟨List.append_ne_nil_of_right_ne_nil _ (List.cons_ne_nil _ _),
    List.append_ne_nil_of_right_ne_nil _ (List.cons_ne_nil _ _)⟩

/-- Where the first outcome is a good one that took no more tokens than the limit, the second is the
same. -/
def SettlesIf {α : Type} (good : α → Prop) (limit : Nat) (first second : Except Fault (α × Nat)) :
    Prop :=
  ∀ found count, first = .ok (found, count) → good found →
    count ≤ limit ∧ second = .ok (found, count)

/-- Whatever the first outcome is, if it is no fault, it took no more tokens than the limit, and the second
is the same. -/
abbrev Settles {α : Type} (limit : Nat) (first second : Except Fault (α × Nat)) : Prop :=
  SettlesIf (fun _ ↦ True) limit first second

section Outcomes

variable {α β : Type} {good : α → Prop} {other : β → Prop} {limit goal : Nat}
  {first second : Except Fault (α × Nat)}

theorem settles_error {fault : Fault} : SettlesIf good limit (.error fault) second := by
  intro found count h
  cases h

theorem settles_ok {found : α} {count : Nat} (h : count ≤ limit) :
    SettlesIf good limit (.ok (found, count)) (.ok (found, count)) := by
  intro found count heq _
  cases heq
  exact ⟨h, rfl⟩

theorem SettlesIf.mono {better : α → Prop} (h : SettlesIf good limit first second)
    (hgood : ∀ found, better found → good found) : SettlesIf better limit first second :=
  fun found count heq hfound ↦ h found count heq (hgood found hfound)

theorem SettlesIf.bind {f g : α × Nat → Except Fault (β × Nat)} (h : Settles limit first second)
    (hnext : ∀ found count, count ≤ limit →
      SettlesIf other goal (f (found, count)) (g (found, count))) :
    SettlesIf other goal (first >>= f) (second >>= g) := by
  intro result taken heq hresult
  obtain ⟨⟨found, count⟩, hfirst, hlast⟩ := bind_eq_ok.mp heq
  obtain ⟨hcount, rfl⟩ := h found count hfirst trivial
  exact hnext found count hcount result taken hlast hresult

theorem SettlesIf.map {f g : α × Nat → β × Nat} (h : SettlesIf good limit first second)
    (hnext : ∀ found count, count ≤ limit → f (found, count) = g (found, count) ∧
      (f (found, count)).2 ≤ goal)
    (hgood : ∀ found count, other (f (found, count)).1 → good found) :
    SettlesIf other goal (first.map f) (second.map g) := by
  intro result taken heq hresult
  obtain ⟨⟨found, count⟩, rfl, hlast⟩ := map_eq_ok.mp heq
  have hfound : good found := hgood found count (by rw [hlast]; exact hresult)
  obtain ⟨hcount, rfl⟩ := h found count rfl hfound
  obtain ⟨hsame, hle⟩ := hnext found count hcount
  rw [hlast] at hle hsame
  exact ⟨hle, by simp only [Except.map, ← hsame]⟩

end Outcomes

def SeparatesAt (separator : List Token → Option (List Node × List Token)) (t u : List Token) : Prop :=
  ∀ xs : List Token, (separator (xs ++ t) = none ∧ separator (xs ++ u) = none) ∨
    ∃ between token more, xs = token :: more ∧ separator (xs ++ t) = some (between, more ++ t) ∧
      separator (xs ++ u) = some (between, more ++ u)

section Seams

variable {t u : List Token} (hseam : Seam t u)

include hseam

/-! ### Values, calls and items -/

theorem aliasName?_seam (xs : List Token) : aliasName? (xs ++ t) = aliasName? (xs ++ u) := by
  cases xs with
  | nil => cases hseam; rfl
  | cons token rest => rfl

theorem readAlias_seam (xs : List Token) :
    readAlias (xs ++ t) = readAlias (xs ++ u) ∧ (readAlias (xs ++ u)).2 ≤ xs.length := by
  cases xs with
  | nil => cases hseam; exact ⟨rfl, Nat.zero_le _⟩
  | cons token rest =>
    by_cases hkind : token.kind = .asWord
    · obtain ⟨kind, text⟩ := token
      obtain rfl : kind = .asWord := hkind
      simp only [List.cons_append, readAlias, aliasName?_seam hseam rest]
      refine ⟨trivial, ?_⟩
      cases rest with
      | nil => cases hseam; exact Nat.le_refl _
      | cons name rest =>
        cases aliasName? (name :: rest ++ u) with
        | none => exact Nat.le_add_left _ _
        | some name => exact Nat.le_add_left _ _
    · simp only [List.cons_append, readAlias_of_ne hkind, aliasName?]
      refine ⟨trivial, ?_⟩
      split
      · exact Nat.le_add_left _ _
      · exact Nat.zero_le _

theorem readNamed_settles (xs : List Token) :
    Settles xs.length (readNamed (xs ++ t)) (readNamed (xs ++ u)) := by
  cases xs with
  | nil => cases hseam; exact settles_error
  | cons token rest =>
    obtain ⟨kind, text⟩ := token
    obtain ⟨halias, hcount⟩ := readAlias_seam hseam rest
    cases kind with
    | identifier | number =>
      simp only [List.cons_append, readNamed, halias]
      exact settles_ok (Nat.succ_le_succ hcount)
    | _ => exact settles_error

theorem readAfterArg_settles (hargs : ∀ xs : List Token, xs.length ≤ limit →
      Settles xs.length (readArgs bound false (xs ++ t)) (readArgs other false (xs ++ u))) (arg : List Node)
    (count : Nat) (hxs : xs.length ≤ limit + 1) :
    Settles (count + xs.length) (readAfterArg bound arg count (xs ++ t))
      (readAfterArg other arg count (xs ++ u)) := by
  cases xs with
  | nil => cases hseam; exact settles_error
  | cons token rest =>
    obtain ⟨kind, text⟩ := token
    cases kind with
    | comma =>
      apply SettlesIf.bind (hargs rest (Nat.le_of_succ_le_succ hxs))
      intro args taken htaken
      apply settles_ok
      rw [List.length_cons]
      omega
    | closeParen =>
      apply settles_ok
      rw [List.length_cons]
      omega
    | _ => exact settles_error

theorem readArgs_settles (first : Bool) (hother : xs.length ≤ other) :
    Settles xs.length (readArgs bound first (xs ++ t)) (readArgs other first (xs ++ u)) := by
  induction bound generalizing other first xs with
  | zero => exact settles_error
  | succ bound ih =>
    cases xs with
    | nil => cases hseam; cases first <;> exact settles_error
    | cons token rest =>
      obtain ⟨other, rfl⟩ : ∃ less, other = less + 1 := Nat.exists_eq_add_of_le' (by
        rw [List.length_cons] at hother
        omega)
      have hlength : rest.length ≤ other := Nat.le_of_succ_le_succ hother
      have harg : Settles (token :: rest).length (readArg bound first token (rest ++ t))
          (readArg other first token (rest ++ u)) := by
        unfold readArg
        cases value? token with
        | some node => exact settles_ok (Nat.le_add_left _ _)
        | none =>
          dsimp only
          split
          · cases rest with
            | nil => cases hseam; exact settles_error
            | cons paren inner =>
              simp only [List.cons_append]
              split
              · apply (ih true (Nat.le_of_succ_le hlength)).map
                · intro args taken htaken
                  obtain ⟨halias, hcount⟩ := readAlias_seam hseam (inner.drop taken)
                  rw [List.drop_append_of_le_length htaken,
                    List.drop_append_of_le_length htaken, halias]
                  refine ⟨rfl, ?_⟩
                  rw [List.length_drop] at hcount
                  simp only [List.length_cons]
                  omega
                · exact fun _ _ _ ↦ trivial
              · exact settles_error
          · split
            · exact settles_error
            · exact settles_ok (Nat.zero_le _)
      rw [List.cons_append, readArgs_succ, List.cons_append, readArgs_succ]
      apply SettlesIf.bind harg
      intro arg count hcount
      rw [← List.cons_append, ← List.cons_append, List.drop_append_of_le_length hcount,
        List.drop_append_of_le_length hcount]
      have hdrop : ((token :: rest).drop count).length ≤ rest.length + 1 := by
        rw [List.length_drop, List.length_cons]
        exact Nat.sub_le _ _
      have hafter := readAfterArg_settles hseam
        (fun xs hxs ↦ ih false (Nat.le_trans hxs hlength)) arg count hdrop
      rw [List.length_drop, Nat.add_sub_cancel' hcount] at hafter
      exact hafter

theorem readCall_settles (xs : List Token) :
    Settles xs.length (readCall (xs ++ t)) (readCall (xs ++ u)) := by
  cases xs with
  | nil => cases hseam; exact settles_error
  | cons token rest =>
    simp only [List.cons_append, readCall]
    split
    · cases rest with
      | nil => cases hseam; exact settles_error
      | cons paren inner =>
        simp only [List.cons_append]
        split
        · have hlength : inner.length ≤ (inner ++ u).length := by
            rw [List.length_append]
            exact Nat.le_add_right _ _
          apply SettlesIf.bind (readArgs_settles hseam true hlength)
          intro args taken htaken
          obtain ⟨halias, hcount⟩ := readAlias_seam hseam (inner.drop taken)
          simp only [List.drop_append_of_le_length htaken, halias]
          apply settles_ok
          rw [List.length_drop] at hcount
          simp only [List.length_cons]
          omega
        · exact settles_error
    · exact settles_error

/-! ### Lists of items -/

theorem comma?_separatesAt : SeparatesAt comma? t u := by
  intro xs
  cases xs with
  | nil => cases hseam; exact .inl ⟨rfl, rfl⟩
  | cons token more =>
    obtain ⟨kind, text⟩ := token
    cases kind with
    | comma => exact .inr ⟨_, _, more, rfl, rfl, rfl⟩
    | _ => exact .inl ⟨rfl, rfl⟩

theorem link?_separatesAt : SeparatesAt link? t u := by
  intro xs
  cases xs with
  | nil => cases hseam; exact .inl ⟨rfl, rfl⟩
  | cons token more =>
    obtain ⟨kind, text⟩ := token
    cases kind with
    | link => exact .inr ⟨_, _, more, rfl, rfl, rfl⟩
    | _ => exact .inl ⟨rfl, rfl⟩

theorem readList_settlesIf (good : Node → Prop) {item other : List Token → Except Fault (List Node × Nat)}
    {separator : List Token → Option (List Node × List Token)} (hseparator : SeparatesAt separator t u)
    (hitem : ∀ ys, ys <:+ xs → SettlesIf (∀ node ∈ ·, good node) ys.length (item (ys ++ t))
      (other (ys ++ u))) (hbound : (xs ++ t).length ≤ bound) (hlimit : (xs ++ u).length ≤ limit) :
    SettlesIf (∀ node ∈ ·, good node) xs.length (readList item separator bound (xs ++ t))
      (readList other separator limit (xs ++ u)) := by
  induction bound generalizing limit xs with
  | zero =>
    have hempty := List.eq_nil_of_length_eq_zero (Nat.le_zero.mp hbound)
    exact absurd hempty (hseam.append_ne_nil xs).1
  | succ bound ih =>
    obtain ⟨hfirst, hsecond⟩ := hseam.append_ne_nil xs
    obtain ⟨limit, rfl⟩ : ∃ less, limit = less + 1 :=
      Nat.exists_eq_add_of_le' (Nat.le_trans (List.length_pos_iff.mpr hsecond) hlimit)
    rw [readList_of_ne hfirst, readList_of_ne hsecond]
    intro found count heq hgood
    obtain ⟨⟨nodes, taken⟩, hfirst, hrest⟩ := bind_eq_ok.mp heq
    cases hfound : separator ((xs ++ t).drop taken) with
    | none =>
      simp only [hfound] at hrest
      cases hrest
      obtain ⟨hle, hsecond⟩ := hitem xs List.suffix_rfl _ _ hfirst hgood
      rw [List.drop_append_of_le_length hle] at hfound
      rcases hseparator (xs.drop count) with ⟨-, hnone⟩ | ⟨_, _, _, -, hsome, -⟩
      · refine ⟨hle, ?_⟩
        simp only [hsecond, Except.bind, List.drop_append_of_le_length hle, hnone]
      · rw [hfound] at hsome
        cases hsome
    | some separated =>
      obtain ⟨between, more⟩ := separated
      simp only [hfound] at hrest
      obtain ⟨⟨others, counted⟩, hothers, hall⟩ := map_eq_ok.mp hrest
      cases hall
      simp only [List.forall_mem_append] at hgood
      obtain ⟨hle, hsecond⟩ := hitem xs List.suffix_rfl _ _ hfirst hgood.1.1
      rw [List.drop_append_of_le_length hle] at hfound
      rcases hseparator (xs.drop taken) with ⟨hnone, -⟩ | ⟨_, token, rest, hdrop, hsome, hsome'⟩
      · rw [hfound] at hnone
        cases hnone
      · -- The separator stands in the front, so that what follows it is a shorter one.
        rw [hfound] at hsome
        cases hsome
        have hlength : xs.length - taken = rest.length + 1 := by
          rw [← List.length_drop, hdrop, List.length_cons]
        have hsuffix : rest <:+ xs :=
          (List.suffix_cons token rest).trans (hdrop ▸ List.drop_suffix taken xs)
        have hmore := ih (fun ys hys ↦ hitem ys (hys.trans hsuffix))
          (show (rest ++ t).length ≤ bound by
            rw [List.length_append] at hbound ⊢
            omega)
          (show (rest ++ u).length ≤ limit by
            rw [List.length_append] at hlimit ⊢
            omega)
        obtain ⟨hcounted, hsame⟩ := hmore others counted hothers hgood.2
        refine ⟨by omega, ?_⟩
        simp only [hsecond, Except.bind, List.drop_append_of_le_length hle, hsome', hsame,
          Except.map]

theorem readList_settles {item other : List Token → Except Fault (List Node × Nat)}
    {separator : List Token → Option (List Node × List Token)} (hseparator : SeparatesAt separator t u)
    (hitem : ∀ ys, ys <:+ xs → Settles ys.length (item (ys ++ t)) (other (ys ++ u)))
    (hbound : (xs ++ t).length ≤ bound) (hlimit : (xs ++ u).length ≤ limit) :
    Settles xs.length (readList item separator bound (xs ++ t))
      (readList other separator limit (xs ++ u)) := by
  have hlist := readList_settlesIf hseam (fun _ ↦ True) hseparator
    (fun ys hys ↦ (hitem ys hys).mono fun _ _ ↦ trivial) hbound hlimit
  exact hlist.mono fun _ _ _ _ ↦ trivial

theorem fits_seam {places : List (Kind → Bool)}
    (hplaces : places.all (fun place ↦ !place .semicolon) = true) (xs : List Token) :
    fits places (xs ++ t) = fits places (xs ++ u) := by
  induction places generalizing xs with
  | nil => rfl
  | cons place places ih =>
    simp only [List.all_cons, Bool.and_eq_true, Bool.not_eq_true'] at hplaces
    cases xs with
    | nil =>
      cases hseam
      simp [fits, hplaces.1]
    | cons token rest => simp only [List.cons_append, fits, ih hplaces.2]

theorem length_le_of_fits_seam {places : List (Kind → Bool)}
    (hplaces : places.all (fun place ↦ !place .semicolon) = true) (h : fits places (xs ++ u) = true) :
    places.length ≤ xs.length := by
  induction places generalizing xs with
  | nil => exact Nat.zero_le _
  | cons place places ih =>
    simp only [List.all_cons, Bool.and_eq_true, Bool.not_eq_true'] at hplaces
    cases xs with
    | nil =>
      cases hseam
      simp [fits, hplaces.1] at h
    | cons token rest =>
      simp only [List.cons_append, fits, Bool.and_eq_true] at h
      exact Nat.succ_le_succ (ih hplaces.2 h.2)

theorem readBranches_seam (xs : List Token) :
    readBranches (xs ++ t) = readBranches (xs ++ u) ∧ (readBranches (xs ++ u)).2 ≤ xs.length := by
  rw [readBranches_eq (xs ++ t), readBranches_eq (xs ++ u), fits_seam hseam rfl, fits_seam hseam rfl]
  split
  · next hfits =>
    have hle : 4 ≤ xs.length := length_le_of_fits_seam hseam rfl hfits
    obtain ⟨hmore, hcount⟩ := readBranches_seam (xs.drop 4)
    rw [List.length_drop] at hcount
    simp only [textAt_append (show 0 < xs.length by omega), textAt_append (show 1 < xs.length by omega),
      textAt_append (show 2 < xs.length by omega), textAt_append (show 3 < xs.length by omega),
      List.drop_append_of_le_length hle, hmore]
    exact ⟨trivial, by omega⟩
  · split
    · next hfits =>
      have hle : 2 ≤ xs.length := length_le_of_fits_seam hseam rfl hfits
      obtain ⟨hmore, hcount⟩ := readBranches_seam (xs.drop 2)
      rw [List.length_drop] at hcount
      simp only [textAt_append (show 0 < xs.length by omega),
        textAt_append (show 1 < xs.length by omega), List.drop_append_of_le_length hle, hmore]
      exact ⟨trivial, by omega⟩
    · exact ⟨rfl, Nat.zero_le _⟩
  termination_by xs.length

theorem readSelectItem_settles (xs : List Token) :
    Settles xs.length (readSelectItem (xs ++ t)) (readSelectItem (xs ++ u)) := by
  cases xs with
  | nil => cases hseam; exact settles_error
  | cons token rest =>
    obtain ⟨kind, text⟩ := token
    cases kind with
    | identifier => exact readNamed_settles hseam (⟨.identifier, text⟩ :: rest)
    | number => exact readNamed_settles hseam (⟨.number, text⟩ :: rest)
    | func => exact readCall_settles hseam (⟨.func, text⟩ :: rest)
    | caseWord =>
      obtain ⟨hbranches, hcount⟩ := readBranches_seam hseam rest
      simp only [List.cons_append, readSelectItem, readCase, hbranches]
      exact settles_ok (Nat.succ_le_succ hcount)
    | _ => exact settles_error

omit hseam in
theorem settles_single {first second : Except Fault (Node × Nat)} (h : Settles limit first second) :
    Settles limit (first.map single) (second.map single) :=
  h.map (fun _ _ hcount ↦ ⟨rfl, hcount⟩) fun _ _ _ ↦ trivial

theorem selectItem_settles (xs : List Token) :
    Settles xs.length (selectItem (xs ++ t)) (selectItem (xs ++ u)) :=
  settles_single (readSelectItem_settles hseam xs)

theorem readSelect_settles (token : Token) (rest : List Token) :
    Settles (rest.length + 1) (readSelect (token :: (rest ++ t)))
      (readSelect (token :: (rest ++ u))) := by
  simp only [readSelect, readSelectItems_eq_readList]
  apply SettlesIf.bind (readList_settles hseam (comma?_separatesAt hseam)
    (fun ys _ ↦ selectItem_settles hseam ys) (Nat.le_refl _) (Nat.le_refl _))
  intro items count hcount
  exact settles_ok (Nat.succ_le_succ hcount)

theorem groupItem_settles (xs : List Token) :
    Settles xs.length (groupItem (xs ++ t)) (groupItem (xs ++ u)) := by
  cases xs with
  | nil => cases hseam; exact settles_error
  | cons token rest =>
    simp only [List.cons_append, groupItem]
    split
    · exact settles_error
    · exact settles_ok (Nat.le_add_left _ _)

theorem readGroupBy_settles (token : Token) (rest : List Token) :
    Settles (rest.length + 1) (readGroupBy (token :: (rest ++ t)))
      (readGroupBy (token :: (rest ++ u))) := by
  unfold readGroupBy
  simp only [List.drop_succ_cons, List.drop_zero]
  rw [readGroupItems_eq_readList (Nat.le_refl _), readGroupItems_eq_readList (Nat.le_refl _)]
  apply SettlesIf.bind (readList_settles hseam (comma?_separatesAt hseam)
    (fun ys _ ↦ groupItem_settles hseam ys) (Nat.le_refl _) (Nat.le_refl _))
  intro items count hcount
  simp only [List.drop_append_of_le_length hcount]
  have hlength := List.length_drop (i := count) (l := rest)
  cases hleft : rest.drop count with
  | nil =>
    cases hseam
    exact settles_ok (Nat.succ_le_succ hcount)
  | cons next more =>
    obtain ⟨kind, text⟩ := next
    cases kind with
    | rollupWord =>
      rw [hleft, List.length_cons] at hlength
      apply settles_ok
      omega
    | _ => exact settles_ok (Nat.succ_le_succ hcount)

theorem sortWord?_seam (xs : List Token) :
    sortWord? (xs ++ t) = sortWord? (xs ++ u) ∧ ((sortWord? (xs ++ u)).isSome → 0 < xs.length) := by
  cases xs with
  | nil => cases hseam; exact ⟨rfl, nofun⟩
  | cons token rest =>
    obtain ⟨kind, text⟩ := token
    refine ⟨?_, fun _ ↦ Nat.zero_lt_succ _⟩
    cases kind <;> rfl

theorem orderItem_settles (xs : List Token) :
    Settles xs.length (orderItem (xs ++ t)) (orderItem (xs ++ u)) := by
  cases xs with
  | nil => cases hseam; exact settles_error
  | cons token rest =>
    obtain ⟨hsort, hlength⟩ := sortWord?_seam hseam rest
    simp only [List.cons_append, orderItem, hsort]
    split
    · exact settles_error
    · apply settles_ok
      split
      · next hsome => exact Nat.succ_le_succ (hlength hsome)
      · exact Nat.le_add_left _ _

theorem readOrderBy_settles (token : Token) (rest : List Token) :
    Settles (rest.length + 1) (readOrderBy (token :: (rest ++ t)))
      (readOrderBy (token :: (rest ++ u))) := by
  unfold readOrderBy
  simp only [List.drop_succ_cons, List.drop_zero, readOrderItems_eq_readList]
  apply SettlesIf.bind (readList_settles hseam (comma?_separatesAt hseam)
    (fun ys _ ↦ orderItem_settles hseam ys) (Nat.le_succ _) (Nat.le_succ _))
  intro items count hcount
  exact settles_ok (Nat.succ_le_succ hcount)

theorem readPlainLimit_settles (xs : List Token) :
    Settles xs.length (readPlainLimit (xs ++ t)) (readPlainLimit (xs ++ u)) := by
  rw [readPlainLimit_eq, readPlainLimit_eq, fits_seam hseam rfl]
  split
  · next hfits =>
    have hle : 2 ≤ xs.length := length_le_of_fits_seam hseam rfl hfits
    simp only [numberAt, textAt_append (show 1 < xs.length from hle)]
    exact settles_ok hle
  · exact settles_error

theorem readLimit_settles (xs : List Token) :
    Settles xs.length (readLimit (xs ++ t)) (readLimit (xs ++ u)) := by
  rw [readLimit_eq, readLimit_eq, fits_seam hseam rfl, fits_seam hseam rfl]
  split
  · next hfits =>
    have hle : 4 ≤ xs.length := length_le_of_fits_seam hseam rfl hfits
    simp only [numberAt, textAt_append (show 1 < xs.length by omega),
      textAt_append (show 3 < xs.length from hle)]
    exact settles_ok hle
  · by_cases hfits :
        fits [(· = .limitWord), (· = .number), (· = .identifier), (· = .number)] (xs ++ u)
    · have hle : 4 ≤ xs.length := length_le_of_fits_seam hseam rfl hfits
      simp only [numberAt, textAt_append (show 1 < xs.length by omega),
        textAt_append (show 2 < xs.length by omega), textAt_append (show 3 < xs.length from hle)]
      split
      · exact settles_ok hle
      · exact readPlainLimit_settles hseam xs
    · simp only [hfits, false_and, if_false, Bool.false_eq_true]
      exact readPlainLimit_settles hseam xs

/-! ### Conditions -/

theorem plainCondition?_seam {places : List (Kind → Bool)}
    (hplaces : places.all (fun place ↦ !place .semicolon) = true) (xs : List Token) :
    plainCondition? places (xs ++ t) = plainCondition? places (xs ++ u) := by
  unfold plainCondition?
  rw [fits_seam hseam hplaces]
  split
  · next hfits =>
    have hle := length_le_of_fits_seam hseam hplaces hfits
    rw [List.take_append_of_le_length hle, List.take_append_of_le_length hle]
  · rfl

theorem simpleCondition?_seam (xs : List Token) :
    simpleCondition? (xs ++ t) = simpleCondition? (xs ++ u) := by
  rw [simpleCondition?_eq, simpleCondition?_eq]
  simp only [conditionForms, List.findSome?_cons, List.findSome?_nil]
  rw [plainCondition?_seam hseam rfl, plainCondition?_seam hseam rfl, plainCondition?_seam hseam rfl,
    plainCondition?_seam hseam rfl, plainCondition?_seam hseam rfl]

theorem simpleCondition?_le {node : Node} {count : Nat}
    (h : simpleCondition? (xs ++ u) = some (node, count)) :
    count ≤ xs.length := by
  rw [simpleCondition?_eq] at h
  obtain ⟨places, hplaces, hsome⟩ := List.exists_of_findSome?_eq_some h
  unfold plainCondition? at hsome
  split at hsome
  · next hfits =>
    cases hsome
    apply length_le_of_fits_seam hseam _ hfits
    have hall : conditionForms.all (·.all fun place ↦ !place .semicolon) = true := rfl
    exact List.all_eq_true.mp hall places hplaces
  · cases hsome

theorem readGroup_settles (found : Node) (hlimit : xs.length ≤ limit) :
    Settles xs.length (readGroup statements bound found (xs ++ t))
      (readGroup statements limit found (xs ++ u)) := by
  induction bound generalizing limit found xs with
  | zero => exact settles_error
  | succ bound ih =>
    cases xs with
    | nil => cases hseam; exact settles_error
    | cons token rest =>
      obtain ⟨limit, rfl⟩ : ∃ less, limit = less + 1 :=
        Nat.exists_eq_add_of_le' (Nat.le_trans (Nat.le_add_left 1 _) hlimit)
      have hrest : rest.length ≤ limit := Nat.le_of_succ_le_succ hlimit
      have hnext (found : Node) : Settles (rest.length + 1)
          (readGroup statements bound found (rest ++ t) >>= fun all ↦ .ok (all.1, all.2 + 1))
          (readGroup statements limit found (rest ++ u) >>= fun all ↦ .ok (all.1, all.2 + 1)) := by
        apply SettlesIf.bind (ih found hrest)
        intro all count hcount
        exact settles_ok (Nat.succ_le_succ hcount)
      simp only [List.cons_append, readGroup]
      cases value? token with
      | some item =>
        cases found with
        | group items => exact hnext _
        | _ => exact settles_error
      | none =>
        dsimp only
        split
        · exact settles_ok (Nat.le_add_left _ _)
        · exact hnext found
        · -- The statements of a query leave no token for the parenthesis.
          split
          · exact settles_error
          · next hfault =>
            have hall := statements_exhausts _ _ (Nat.le_refl _) hfault
            rw [List.drop_eq_nil_of_le hall]
            cases bound <;> exact settles_error
        · exact settles_error

/-- A membership test takes its second and third token unseen, but behind the semicolon there is none. -/
theorem readMembership_settles (xs : List Token) :
    Settles xs.length (readMembership statements (xs ++ t)) (readMembership statements (xs ++ u)) := by
  rcases xs with _ | ⟨left, _ | ⟨op, _ | ⟨paren, inner⟩⟩⟩
  · cases hseam
    exact settles_error
  · cases hseam
    simp only [List.cons_append, List.nil_append, readMembership]
    cases readOperand left <;> exact settles_error
  · cases hseam
    simp only [List.cons_append, List.nil_append, readMembership]
    cases readOperand left <;> exact settles_error
  · simp only [List.cons_append, readMembership]
    cases readOperand left with
    | error fault => exact settles_error
    | ok operand =>
      have hlength : inner.length ≤ (paren :: (inner ++ u)).length := by
        rw [List.length_cons, List.length_append]
        omega
      apply SettlesIf.bind (readGroup_settles hseam (.group []) hlength)
      intro found count hcount
      exact settles_ok (Nat.add_le_add_right hcount 3)

theorem opensMembership_of_seam (h : opensMembership (xs ++ t) = true) :
    opensMembership (xs ++ u) = true := by
  rw [opensMembership_eq] at h ⊢
  cases hseam
  rcases xs with _ | ⟨a, _ | ⟨b, _ | ⟨c, _ | ⟨d, _ | ⟨e, rest⟩⟩⟩⟩⟩ <;> simp_all [fits]

def NegatesNoCall (tokens : List Token) : Prop :=
  ¬ [Kind.notWord, .func] <:+: tokens.map Token.kind

omit hseam in
theorem NegatesNoCall.suffix {ys : List Token} (h : NegatesNoCall xs) (hys : ys <:+ xs) : NegatesNoCall ys :=
  fun hpair ↦ h (List.IsInfix.trans hpair (hys.map Token.kind).isInfix)

omit hseam in
theorem NegatesNoCall.negatesCall_eq_false (h : NegatesNoCall xs) (text : String) (others : List Token) :
    negatesCall (xs ++ ⟨.semicolon, text⟩ :: others) = false := by
  rcases xs with _ | ⟨a, _ | ⟨b, rest⟩⟩
  · simp [negatesCall, fits]
  · simp [negatesCall, fits]
  · apply Bool.eq_false_iff.mpr
    intro hcall
    simp only [negatesCall, fits, List.cons_append, Bool.and_eq_true, decide_eq_true_eq] at hcall
    apply h
    rw [List.map_cons, List.map_cons, hcall.1, hcall.2.1]
    exact List.infix_append [] _ _

theorem readCondition_settles (hcalls : NegatesNoCall xs) {membership other : Bool}
    (hmembership : membership = true → other = true) :
    Settles xs.length (readCondition statements membership (xs ++ t))
      (readCondition statements other (xs ++ u)) := by
  have hnegated : negatesCall (xs ++ t) = false ∧ negatesCall (xs ++ u) = false := by
    cases hseam
    exact ⟨hcalls.negatesCall_eq_false _ _, hcalls.negatesCall_eq_false _ _⟩
  rw [readCondition_eq, readCondition_eq, simpleCondition?_seam hseam, hnegated.1, hnegated.2]
  cases hsimple : simpleCondition? (xs ++ u) with
  | some found => exact settles_ok (simpleCondition?_le hseam hsimple)
  | none =>
    cases membership with
    | false => exact settles_error
    | true =>
      rw [hmembership rfl]
      exact readMembership_settles hseam xs

theorem readConditions_settles (hcalls : NegatesNoCall xs) :
    Settles xs.length (readConditions statements (xs ++ t)) (readConditions statements (xs ++ u)) := by
  unfold readConditions
  rw [readLinked_eq_readList, readLinked_eq_readList]
  apply readList_settles hseam (link?_separatesAt hseam) _ (Nat.le_refl _) (Nat.le_refl _)
  intro ys hys
  exact settles_single (readCondition_settles hseam (hcalls.suffix hys)
    (opensMembership_of_seam hseam))

theorem readWhere_settles (token : Token) {rest : List Token} (hcalls : NegatesNoCall rest) :
    Settles (rest.length + 1) (readWhere statements (token :: (rest ++ t)))
      (readWhere statements (token :: (rest ++ u))) := by
  apply SettlesIf.bind (readConditions_settles hseam hcalls)
  intro conditions count hcount
  exact settles_ok (Nat.succ_le_succ hcount)

theorem readHaving_settles (token : Token) {rest : List Token} (hcalls : NegatesNoCall rest) :
    Settles (rest.length + 1) (readHaving statements (token :: (rest ++ t)))
      (readHaving statements (token :: (rest ++ u))) := by
  apply SettlesIf.bind (readConditions_settles hseam hcalls)
  intro conditions count hcount
  exact settles_ok (Nat.succ_le_succ hcount)

/-! ### Joins -/

theorem readNameComparison_seam (xs : List Token) :
    readNameComparison (xs ++ t) = readNameComparison (xs ++ u) ∧
      (readNameComparison (xs ++ u)).2 ≤ xs.length := by
  rw [readNameComparison_eq, readNameComparison_eq, fits_seam hseam rfl]
  split
  · next hfits =>
    have hle : 3 ≤ xs.length := length_le_of_fits_seam hseam rfl hfits
    rw [List.take_append_of_le_length hle, List.take_append_of_le_length hle]
    exact ⟨rfl, hle⟩
  · exact ⟨rfl, Nat.zero_le _⟩

theorem readCallOnRight_settles (xs : List Token) :
    Settles xs.length (readCallOnRight (xs ++ t)) (readCallOnRight (xs ++ u)) := by
  rw [readCallOnRight_eq, readCallOnRight_eq, fits_seam hseam rfl]
  split
  · next hfits =>
    have hle : 3 ≤ xs.length := length_le_of_fits_seam hseam rfl hfits
    rw [List.drop_append_of_le_length (Nat.le_of_succ_le hle),
      List.drop_append_of_le_length (Nat.le_of_succ_le hle),
      List.take_append_of_le_length (Nat.le_of_succ_le hle),
      List.take_append_of_le_length (Nat.le_of_succ_le hle)]
    apply (readCall_settles hseam (xs.drop 2)).map
    · intro call count hcount
      rw [List.length_drop] at hcount
      exact ⟨rfl, by omega⟩
    · exact fun _ _ _ ↦ trivial
  · exact settles_ok (Nat.zero_le _)

theorem readCompared_settles {call : Node} (hcall : call.isCall = true) (count : Nat)
    (xs : List Token) :
    SettlesIf (∀ node ∈ ·, node.comparesCalls = false) (count + xs.length)
      (readCompared call count (xs ++ t)) (readCompared call count (xs ++ u)) := by
  unfold readCompared
  rw [fits_seam hseam rfl, fits_seam hseam rfl]
  split
  · next hfits =>
    have hle : 2 ≤ xs.length := length_le_of_fits_seam hseam rfl hfits
    rw [List.take_append_of_le_length hle, List.take_append_of_le_length hle]
    exact settles_ok (Nat.add_le_add_left hle count)
  · split
    · next hfits =>
      -- Two calls are compared, which is no good outcome.
      intro found taken heq hgood
      obtain ⟨⟨other, counted⟩, hother, hfound⟩ := map_eq_ok.mp heq
      cases hfound
      have hle : 2 ≤ xs.length := length_le_of_fits_seam hseam rfl hfits
      rcases xs with _ | ⟨⟨kind, text⟩, rest⟩
      · cases hle
      · simp only [List.cons_append, fits, Bool.and_eq_true, decide_eq_true_eq] at hfits
        obtain rfl : kind = .compare := hfits.1
        have hright := (readCall_wellBuilt hother).1
        have hcompares := hgood _ (List.mem_singleton_self _)
        cases call <;> cases hcall
        cases other <;> cases hright
        cases hcompares
    · exact settles_ok (Nat.zero_le _)

theorem readCallOnLeft_settles (xs : List Token) :
    SettlesIf (∀ node ∈ ·, node.comparesCalls = false) xs.length (readCallOnLeft (xs ++ t))
      (readCallOnLeft (xs ++ u)) := by
  rw [readCallOnLeft_eq, readCallOnLeft_eq, fits_seam hseam rfl]
  split
  · intro found taken heq hgood
    obtain ⟨⟨call, count⟩, hcall, hlast⟩ := bind_eq_ok.mp heq
    obtain ⟨hle, hsecond⟩ := readCall_settles hseam xs call count hcall trivial
    rw [List.drop_append_of_le_length hle] at hlast
    obtain ⟨htaken, hsame⟩ := readCompared_settles hseam (readCall_wellBuilt hcall).1 count
      (xs.drop count) found taken hlast hgood
    rw [List.length_drop] at htaken
    refine ⟨by omega, bind_eq_ok.mpr ⟨_, hsecond, ?_⟩⟩
    rw [List.drop_append_of_le_length hle]
    exact hsame
  · exact settles_ok (Nat.zero_le _)

theorem readComparisons_settles (xs : List Token) :
    SettlesIf (∀ node ∈ ·, node.comparesCalls = false) xs.length (readComparisons (xs ++ t))
      (readComparisons (xs ++ u)) := by
  obtain ⟨hnames, hn⟩ := readNameComparison_seam hseam xs
  unfold readComparisons
  rw [hnames]
  dsimp only
  rw [List.drop_append_of_le_length hn, List.drop_append_of_le_length hn]
  apply SettlesIf.bind (readCallOnRight_settles hseam _)
  intro right m hm
  have hnm : (readNameComparison (xs ++ u)).2 + m ≤ xs.length := by
    rw [List.length_drop] at hm
    omega
  dsimp only
  rw [List.drop_append_of_le_length hnm, List.drop_append_of_le_length hnm]
  intro found taken heq hgood
  obtain ⟨⟨left, k⟩, hleft, hlast⟩ := bind_eq_ok.mp heq
  cases hlast
  obtain ⟨hk, hsecond⟩ := readCallOnLeft_settles hseam _ left k hleft
    (fun node hnode ↦ hgood node (List.mem_append_right _ hnode))
  rw [List.length_drop] at hk
  exact ⟨by omega, bind_eq_ok.mpr ⟨_, hsecond, rfl⟩⟩

theorem readJoinConditions_settles (xs : List Token) :
    SettlesIf (∀ node ∈ ·, node.comparesCalls = false) xs.length
      (readJoinConditions (xs ++ t).length (xs ++ t))
      (readJoinConditions (xs ++ u).length (xs ++ u)) := by
  rw [readJoinConditions_eq_readList, readJoinConditions_eq_readList]
  exact readList_settlesIf hseam _ (link?_separatesAt hseam)
    (fun ys _ ↦ readComparisons_settles hseam ys) (Nat.le_refl _) (Nat.le_refl _)

/-- A part of a FROM clause that is found in front of the semicolon, or that there is none. -/
theorem readFromPart_settles (xs : List Token) {part : Option (List Node × Nat)}
    (h : readFromPart (xs ++ t) = .ok part)
    (hgood : ∀ found ∈ part, ∀ node ∈ found.1, node.joinsByCalls = false) :
    readFromPart (xs ++ u) = .ok part ∧ ∀ found ∈ part, 0 < found.2 ∧ found.2 ≤ xs.length := by
  cases xs with
  | nil =>
    cases hseam
    cases h
    exact ⟨rfl, by simp⟩
  | cons token rest =>
    obtain ⟨kind, text⟩ := token
    cases kind with
    | identifier | number =>
      obtain ⟨⟨node, count⟩, hnamed, hpart⟩ := bind_eq_ok.mp h
      cases hpart
      obtain ⟨hle, hsecond⟩ := readNamed_settles hseam (_ :: rest) node count hnamed trivial
      refine ⟨bind_eq_ok.mpr ⟨_, hsecond, rfl⟩, ?_⟩
      cases hnamed
      rintro found ⟨⟩
      exact ⟨Nat.succ_pos _, hle⟩
    | onWord =>
      obtain ⟨⟨conditions, count⟩, hconditions, hpart⟩ := bind_eq_ok.mp h
      cases hpart
      obtain ⟨hle, hsecond⟩ := readJoinConditions_settles hseam rest conditions count hconditions
        (by simpa [joinsByCalls] using hgood)
      refine ⟨bind_eq_ok.mpr ⟨_, hsecond, rfl⟩, ?_⟩
      rintro found ⟨⟩
      exact ⟨Nat.succ_pos _, Nat.succ_le_succ hle⟩
    | join | comma =>
      cases h
      refine ⟨rfl, ?_⟩
      simp
    | _ =>
      cases h
      exact ⟨rfl, by simp⟩


theorem readFromParts_settles (hbound : (xs ++ t).length ≤ bound) (hlimit : (xs ++ u).length ≤ limit) :
    SettlesIf (∀ node ∈ ·, node.joinsByCalls = false) xs.length (readFromParts bound (xs ++ t))
      (readFromParts limit (xs ++ u)) := by
  induction bound generalizing limit xs with
  | zero =>
    have hempty := List.eq_nil_of_length_eq_zero (Nat.le_zero.mp hbound)
    exact absurd hempty (hseam.append_ne_nil xs).1
  | succ bound ih =>
    obtain ⟨hfirst, hsecond⟩ := hseam.append_ne_nil xs
    obtain ⟨limit, rfl⟩ : ∃ less, limit = less + 1 :=
      Nat.exists_eq_add_of_le' (Nat.le_trans (List.length_pos_iff.mpr hsecond) hlimit)
    intro found taken heq hgood
    obtain ⟨part, hpart, hrest⟩ := bind_eq_ok.mp heq
    cases part with
    | none =>
      cases hrest
      obtain ⟨hsecond, -⟩ := readFromPart_settles hseam xs hpart (by simp)
      exact ⟨Nat.zero_le _, bind_eq_ok.mpr ⟨_, hsecond, rfl⟩⟩
    | some part =>
      obtain ⟨⟨parts, counted⟩, hparts, hall⟩ := bind_eq_ok.mp hrest
      cases hall
      rw [List.forall_mem_append] at hgood
      obtain ⟨hsecond, hcount⟩ := readFromPart_settles hseam xs hpart (by simpa using hgood.1)
      obtain ⟨hpos, hle⟩ := hcount part rfl
      rw [List.length_append] at hbound hlimit
      rw [List.drop_append_of_le_length hle] at hparts
      have hmore : SettlesIf (∀ node ∈ ·, node.joinsByCalls = false) (xs.drop part.2).length
          (readFromParts bound (xs.drop part.2 ++ t))
          (readFromParts limit (xs.drop part.2 ++ u)) := by
        apply ih <;> rw [List.length_append, List.length_drop] <;> omega
      obtain ⟨hcounted, hsame⟩ := hmore parts counted hparts hgood.2
      rw [List.length_drop] at hcounted
      refine ⟨by omega, bind_eq_ok.mpr ⟨_, hsecond, bind_eq_ok.mpr ⟨(parts, counted), ?_, rfl⟩⟩⟩
      rw [List.drop_append_of_le_length hle]
      exact hsame

theorem readFrom_settles (token : Token) (rest : List Token) :
    SettlesIf (∀ part ∈ ·.children, part.joinsByCalls = false) (rest.length + 1)
      (readFrom (token :: (rest ++ t))) (readFrom (token :: (rest ++ u))) := by
  intro node count heq hgood
  obtain ⟨⟨parts, taken⟩, hparts, hnode⟩ := bind_eq_ok.mp heq
  cases hnode
  obtain ⟨hle, hsecond⟩ := readFromParts_settles hseam (Nat.le_refl _) (Nat.le_refl _) parts taken
    hparts hgood
  exact ⟨Nat.succ_le_succ hle, bind_eq_ok.mpr ⟨_, hsecond, rfl⟩⟩

/-! ### Rows and queries of an INSERT -/

theorem readColumns_settles (xs : List Token) :
    Settles xs.length (readColumns (xs ++ t)) (readColumns (xs ++ u)) := by
  induction xs with
  | nil => cases hseam; exact settles_error
  | cons token rest ih =>
    simp only [List.cons_append, readColumns]
    split
    · apply SettlesIf.bind ih
      intro columns count hcount
      exact settles_ok (Nat.succ_le_succ hcount)
    · split
      · exact settles_ok (Nat.le_add_left _ _)
      · apply SettlesIf.bind ih
        intro columns count hcount
        exact settles_ok (Nat.succ_le_succ hcount)
      · exact settles_error

theorem readAfterValue_settles (hrows : ∀ row (xs : List Token), xs.length ≤ limit →
      Settles xs.length (readRows bound row (xs ++ t)) (readRows other row (xs ++ u))) (row : List Node)
    (count : Nat) (hxs : xs.length ≤ limit + 1) :
    Settles (count + xs.length) (readAfterValue bound row count (xs ++ t))
      (readAfterValue other row count (xs ++ u)) := by
  cases xs with
  | nil => cases hseam; exact settles_error
  | cons token rest =>
    obtain ⟨kind, text⟩ := token
    cases kind with
    | comma =>
      apply (hrows row rest (Nat.le_of_succ_le_succ hxs)).map
      · intro rows taken htaken
        rw [List.length_cons]
        exact ⟨rfl, by dsimp only; omega⟩
      · exact fun _ _ _ ↦ trivial
    | closeParen =>
      have hlast : Settles (count + (⟨.closeParen, text⟩ :: rest : List Token).length)
          (.ok ([row], count)) (.ok ([row], count)) := settles_ok (Nat.le_add_right _ _)
      rcases rest with _ | ⟨⟨kind, comma⟩, _ | ⟨⟨kind', paren⟩, more⟩⟩
      · cases hseam; exact hlast
      · cases hseam; cases kind <;> exact hlast
      · cases kind with
        | comma =>
          cases kind' with
          | openParen =>
            have hmore : more.length ≤ limit := by
              simp only [List.length_cons] at hxs
              omega
            apply (hrows [] more hmore).map
            · intro rows taken htaken
              simp only [List.length_cons]
              exact ⟨trivial, by omega⟩
            · exact fun _ _ _ ↦ trivial
          | _ => exact hlast
        | _ => exact hlast
    | _ => exact settles_error

theorem readRows_settles (row : List Node) (hlimit : xs.length ≤ limit) :
    Settles xs.length (readRows bound row (xs ++ t)) (readRows limit row (xs ++ u)) := by
  induction bound generalizing limit row xs with
  | zero => exact settles_error
  | succ bound ih =>
    cases xs with
    | nil =>
      cases hseam
      rw [List.nil_append, readRows_succ]
      exact settles_error
    | cons token rest =>
      obtain ⟨limit, rfl⟩ : ∃ less, limit = less + 1 :=
        Nat.exists_eq_add_of_le' (Nat.le_trans (Nat.le_add_left 1 _) hlimit)
      have hcount : (value? token).toList.length ≤ (token :: rest).length := by
        cases value? token <;> simp
      rw [List.cons_append, readRows_succ, List.cons_append, readRows_succ]
      rw [← List.cons_append, ← List.cons_append, List.drop_append_of_le_length hcount,
        List.drop_append_of_le_length hcount]
      have hdrop : ((token :: rest).drop (value? token).toList.length).length ≤ limit + 1 := by
        rw [List.length_drop]
        exact Nat.le_trans (Nat.sub_le _ _) hlimit
      have hafter := readAfterValue_settles hseam (fun row xs hxs ↦ ih row hxs)
        (row ++ (value? token).toList) (value? token).toList.length hdrop
      rw [List.length_drop, Nat.add_sub_cancel' hcount] at hafter
      exact hafter

theorem readColumnList_settles (xs : List Token) :
    Settles xs.length (readColumnList (xs ++ t)) (readColumnList (xs ++ u)) := by
  cases xs with
  | nil => cases hseam; exact settles_ok (Nat.zero_le _)
  | cons token inner =>
    obtain ⟨kind, text⟩ := token
    cases kind with
    | openParen =>
      apply (readColumns_settles hseam inner).map
      · exact fun columns count hcount ↦ ⟨rfl, Nat.succ_le_succ hcount⟩
      · exact fun _ _ _ ↦ trivial
    | _ => exact settles_ok (Nat.zero_le _)

end Seams

end Read

end SqlLayout
