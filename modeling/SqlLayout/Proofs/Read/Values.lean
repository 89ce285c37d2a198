import SqlLayout.Proofs.Regular
import SqlLayout.Proofs.Text.UpperCase
import SqlLayout.Read.Items

/-!
# Reading values back

The readers of values, calls and items give back what the tokens spell, in upper case, and take exactly
these tokens.  They look one token ahead, so each lemma says what the next token must not be.
-/

namespace SqlLayout

open Text Token Spelling Regular

/-- Whether no alias starts with tokens of this kind. -/
def Kind.endsAlias (kind : Kind) : Bool :=
  kind ≠ .asWord && !kind.isValue

/-- Whether an item of a list ends in front of tokens of this kind. -/
def Kind.endsItem (kind : Kind) : Bool :=
  kind = .comma || kind.startsClause

def Token.opens (test : Kind → Bool) (tokens : List Token) : Bool :=
  tokens.head?.all fun token ↦ test token.kind

@[simp] theorem Token.opens_cons (test : Kind → Bool) (token : Token) (tokens : List Token) :
    opens test (token :: tokens) = test token.kind := rfl

theorem Token.opens_of_forall {p q : Kind → Bool} (hpq : ∀ kind, p kind = true → q kind = true)
    {tokens : List Token} (h : opens p tokens = true) : opens q tokens = true := by
  cases tokens with
  | nil => rfl
  | cons token tokens => exact hpq token.kind h

theorem Kind.endsItem_of_startsClause {kind : Kind} (h : kind.startsClause = true) :
    kind.endsItem = true := by
  simp [endsItem, h]

theorem Kind.endsAlias_of_endsItem {kind : Kind} (h : kind.endsItem = true) :
    kind.endsAlias = true := by
  cases kind <;> first | rfl | simp [endsItem, startsClause] at h

namespace Read

variable {rest : List Token} {t : Term} {bound : Nat} {args : List Node} {item : Node}

/-! ### Values and aliases -/

theorem aliasName?_of_opens (h : opens Kind.endsAlias rest = true) : aliasName? rest = none := by
  cases rest with
  | nil => rfl
  | cons token rest =>
    simp only [opens_cons, Kind.endsAlias, Bool.and_eq_true, Bool.not_eq_true'] at h
    simp [aliasName?, h.2]

theorem readAlias_of_ne {token : Token} (h : token.kind ≠ .asWord) :
    readAlias (token :: rest) =
      match aliasName? (token :: rest) with
      | some name => (⟨none, some name⟩, 1)
      | none => (⟨none, none⟩, 0) := by
  obtain ⟨kind, text⟩ := token
  cases kind <;> first | rfl | exact absurd rfl h

theorem readAlias_of_opens (h : opens Kind.endsAlias rest = true) : readAlias rest = (⟨none, none⟩, 0) := by
  cases rest with
  | nil => rfl
  | cons token rest =>
    have hname := aliasName?_of_opens h
    simp only [opens_cons, Kind.endsAlias, Bool.and_eq_true, decide_eq_true_eq] at h
    rw [readAlias_of_ne h.1, hname]

theorem readAlias_aliasTokens {asWord aliasName : Option String} (halias : isAlias asWord aliasName = true)
    (hrest : aliasName = none → opens Kind.endsAlias rest = true) :
    readAlias (aliasTokens asWord aliasName ++ rest) =
      (⟨asWord.map upper, aliasName⟩, (aliasTokens asWord aliasName).length) := by
  cases aliasName with
  | none =>
    have hnone := hrest rfl
    cases asWord with
    | none => simpa [aliasTokens] using readAlias_of_opens hnone
    | some word => simp [aliasTokens, readAlias, aliasName?_of_opens hnone]
  | some name =>
    have hvalue : (ofValue name).kind.isValue = true := by
      simp only [isAlias, Bool.and_eq_true] at halias
      simpa using halias.2
    have hname : ∀ rest, aliasName? (ofValue name :: rest) = some name := fun _ ↦ if_pos hvalue
    cases asWord with
    | none =>
      have hne : (ofValue name).kind ≠ .asWord := by
        intro h
        simp [h, Kind.isValue] at hvalue
      simp [aliasTokens, readAlias_of_ne hne, hname]
    | some word => simp [aliasTokens, readAlias, hname]

/-- A plain term is in upper case. -/
theorem upperCased_of_isPlain (ht : t.isPlain = true) : (Node.term t).upperCased = .term t := by
  obtain ⟨kind, text, aliasName, asWord, sort⟩ := t
  simp only [Term.isPlain, Bool.and_eq_true, Option.isNone_iff_eq_none] at ht
  obtain ⟨⟨rfl, rfl⟩, rfl⟩ := ht
  rfl

theorem plain_of_isPlain (ht : t.isPlain = true) : Node.plain t.kind t.text = .term t := by
  obtain ⟨kind, text, aliasName, asWord, sort⟩ := t
  simp only [Term.isPlain, Bool.and_eq_true, Option.isNone_iff_eq_none] at ht
  obtain ⟨⟨rfl, rfl⟩, rfl⟩ := ht
  rfl

theorem value?_termToken (ht : t.isPlain = true) : value? (termToken t) = some (Node.term t).upperCased := by
  rw [upperCased_of_isPlain ht, ← plain_of_isPlain ht]
  cases h : t.kind <;> simp [value?, termToken, TermKind.tokenKind, termKind?, h]

theorem readNamed_namedTokens (ht : isNamed t = true)
    (hrest : t.aliasName = none → opens Kind.endsAlias rest = true) :
    readNamed (namedTokens t ++ rest) = .ok ((Node.term t).upperCased, (namedTokens t).length) := by
  obtain ⟨kind, text, aliasName, asWord, sort⟩ := t
  simp only [isNamed, Bool.and_eq_true, decide_eq_true_eq, Option.isNone_iff_eq_none] at ht
  obtain ⟨⟨hkind, rfl⟩, halias⟩ := ht
  have hread := readAlias_aliasTokens halias hrest
  cases kind with
  | str => exact absurd rfl hkind
  | identifier =>
    simp [namedTokens, termToken, TermKind.tokenKind, readNamed, hread, Node.upperCased]
  | number => simp [namedTokens, termToken, TermKind.tokenKind, readNamed, hread, Node.upperCased]

/-! ### Calls -/

/-- What is read behind an argument that `count` tokens were taken for. -/
def readAfterArg (bound : Nat) (arg : List Node) (count : Nat) :
    List Token → Except Fault (List Node × Nat)
  | [] => .error .endOfTokens
  | ⟨.comma, _⟩ :: more => do
    let (args, taken) ← readArgs bound false more
    .ok (arg ++ args, count + 1 + taken)
  | ⟨.closeParen, _⟩ :: _ => .ok (arg, count + 1)
  | _ :: _ => .error .invalidCall

theorem readArgs_of_value {first : Bool} {token : Token} {node : Node} (h : value? token = some node) :
    readArgs (bound + 1) first (token :: rest) = readAfterArg bound [node] 1 rest := by
  simp only [readArgs, h]
  rfl

theorem readArgs_of_call {count taken : Nat} (first : Bool) (name : String) {inner : List Token}
    {found : Alias} (hargs : readArgs bound true inner = .ok (args, count))
    (halias : readAlias (inner.drop count) = (found, taken)) :
    readArgs (bound + 1) first (⟨.func, name⟩ :: openParen :: inner) =
      readAfterArg bound [.call name args found.asWord found.name] (2 + count + taken)
        (inner.drop (count + taken)) := by
  have hdrop : (⟨.func, name⟩ :: openParen :: inner : List Token).drop (2 + count + taken) =
      inner.drop (count + taken) := by
    rw [Nat.add_assoc, Nat.add_comm]
    rfl
  rw [← hdrop, readArgs]
  simp only [value?, termKind?, Option.map_none, openParen, if_pos, hargs, halias, bind, Except.bind]
  rfl

theorem readAfterArg_more (count : Nat) (arg : Node) {more : List Node}
    (hmore : more ≠ [] → readArgs bound false (argTokens more ++ closeParen :: rest) =
      .ok (Node.upperCasedEach more, (argTokens more).length + 1)) :
    readAfterArg bound [arg] count (commaBefore more ++ (argTokens more ++ closeParen :: rest)) =
      .ok (arg :: Node.upperCasedEach more,
        count + (commaBefore more ++ argTokens more).length + 1) := by
  cases more with
  | nil => rfl
  | cons next more =>
    have hread := hmore (List.cons_ne_nil next more)
    simp only [commaBefore, List.isEmpty_cons, Bool.false_eq_true, if_false, List.cons_append,
      List.nil_append, comma, readAfterArg, hread]
    simp only [bind, Except.bind, List.length_cons]
    congr 2
    omega

theorem drop_length_succ {α : Type} (xs : List α) (x : α) (ys : List α) :
    (xs ++ x :: ys).drop (xs.length + 1) = ys := by
  simp

theorem readArgs_argTokens {args : List Node} (hargs : areArgs args = true) {bound : Nat}
    (hbound : (argTokens args).length < bound) (first : Bool) (rest : List Token) :
    readArgs bound first (argTokens args ++ closeParen :: rest) =
      .ok (Node.upperCasedEach args, (argTokens args).length + 1) := by
  obtain ⟨bound, rfl⟩ : ∃ n, bound = n + 1 := ⟨bound - 1, by omega⟩
  cases args with
  | nil =>
    simp only [argTokens, List.nil_append, readArgs, value?, termKind?, closeParen]
    cases first <;> rfl
  | cons arg more =>
    simp only [areArgs, Bool.and_eq_true] at hargs
    simp only [argTokens, List.length_append] at hbound
    -- The recursion is on the arguments: the later ones here, the inner ones below.
    have hmore : more ≠ [] → readArgs bound false (argTokens more ++ closeParen :: rest) =
        .ok (Node.upperCasedEach more, (argTokens more).length + 1) := fun hne ↦ by
      refine readArgs_argTokens hargs.2 ?_ false rest
      simp [commaBefore, hne] at hbound
      omega
    have hafter := fun node count ↦ readAfterArg_more count node hmore
    cases arg with
    | term t =>
      have hvalue := value?_termToken (t := t) hargs.1
      simp only [argTokens, callTokens, List.cons_append, List.nil_append, List.append_assoc]
      rw [readArgs_of_value hvalue, hafter]
      simp [Node.upperCasedEach]
      omega
    | call name inner asWord aliasName =>
      simp only [isArg, Bool.and_eq_true] at hargs
      simp only [callTokens, List.length_cons, List.length_append] at hbound
      have hinner : readArgs bound true (argTokens inner ++ closeParen ::
          (aliasTokens asWord aliasName ++
            (commaBefore more ++ (argTokens more ++ closeParen :: rest)))) = _ :=
        readArgs_argTokens hargs.1.1.1 (by omega) true _
      have halias : readAlias (aliasTokens asWord aliasName ++
          (commaBefore more ++ (argTokens more ++ closeParen :: rest))) = _ :=
        readAlias_aliasTokens hargs.1.2 fun _ ↦ by cases more <;> rfl
      rw [← drop_length_succ (argTokens inner) closeParen (aliasTokens asWord aliasName ++ _)]
        at halias
      have hcall := readArgs_of_call first (upper name) hinner halias
      rw [← List.drop_drop, drop_length_succ, List.drop_left, hafter] at hcall
      simp only [argTokens, callTokens, List.cons_append, List.append_assoc]
      rw [hcall]
      simp [Node.upperCasedEach, Node.upperCased]
      omega
    | _ => simp [isArg] at hargs

theorem readCall_callTokens (name : String) {asWord aliasName : Option String}
    (h : isArg (.call name args asWord aliasName) = true) (hrest : opens Kind.endsAlias rest = true) :
    readCall (callTokens (.call name args asWord aliasName) ++ rest) =
      .ok ((Node.call name args asWord aliasName).upperCased,
        (callTokens (.call name args asWord aliasName)).length) := by
  simp only [isArg, Bool.and_eq_true] at h
  have hargs : readArgs
      (argTokens args ++ closeParen :: (aliasTokens asWord aliasName ++ rest)).length true
      (argTokens args ++ closeParen :: (aliasTokens asWord aliasName ++ rest)) = _ :=
    readArgs_argTokens h.1.1 (by simp) true _
  have halias := readAlias_aliasTokens h.2 fun _ ↦ hrest
  simp only [callTokens, List.cons_append, List.append_assoc, readCall, if_pos, openParen, hargs]
  simp [bind, Except.bind, halias, Node.upperCased]
  omega

/-! ### Items -/

theorem readBranches_branchTokens {branches : List Node} (hbranches : branches.all isBranch = true)
    (hrest : opens Kind.endsItem rest = true) :
    readBranches (branches.flatMap branchTokens ++ rest) =
      (Node.upperCasedEach branches, (branches.flatMap branchTokens).length) := by
  induction branches with
  | nil =>
    cases rest with
    | nil => rfl
    | cons token rest =>
      obtain ⟨kind, text⟩ := token
      cases kind <;> first | rfl | simp [Kind.endsItem, Kind.startsClause] at hrest
  | cons branch branches ih =>
    simp only [List.all_cons, Bool.and_eq_true] at hbranches
    have hmore := ih hbranches.2
    cases branch with
    | whenThen whenWord tested thenWord result =>
      simp only [isBranch, isValueText, Bool.and_eq_true] at hbranches
      simp [branchTokens, readBranches, hbranches.1.1.1.2, hbranches.1.2, hmore,
        Node.upperCasedEach, Node.upperCased, -List.length_flatMap]
    | otherwise elseWord result =>
      simp only [isBranch, isValueText, Bool.and_eq_true] at hbranches
      simp [branchTokens, readBranches, hbranches.1.2, hmore, Node.upperCasedEach,
        Node.upperCased, -List.length_flatMap]
    | _ => simp [isBranch] at hbranches

theorem readSelectItem_itemTokens (hitem : isItem item = true) (hrest : opens Kind.endsItem rest = true) :
    readSelectItem (itemTokens item ++ rest) = .ok (item.upperCased, (itemTokens item).length) := by
  have halias := opens_of_forall (fun _ ↦ Kind.endsAlias_of_endsItem) hrest
  cases item with
  | term t =>
    have hread := readNamed_namedTokens hitem fun _ ↦ halias
    rw [itemTokens, ← hread]
    obtain ⟨kind, text, aliasName, asWord, sort⟩ := t
    cases kind with
    | str => simp [isItem, isNamed] at hitem
    | identifier => rfl
    | number => rfl
  | call name args asWord aliasName => exact readCall_callTokens name hitem halias
  | caseOf word branches =>
    have hread := readBranches_branchTokens hitem hrest
    simp [itemTokens, readSelectItem, readCase, hread, Node.upperCased, -List.length_flatMap]
  | _ => simp [isItem] at hitem

theorem itemTokens_ne_nil (hitem : isItem item = true) : itemTokens item ≠ [] := by
  cases item with
  | term t => simp [itemTokens, namedTokens]
  | call name args asWord aliasName => simp [itemTokens, callTokens]
  | caseOf word branches => simp [itemTokens]
  | _ => simp [isItem] at hitem

def behindComma? : List Token → Option (List Token)
  | ⟨.comma, _⟩ :: more => some more
  | _ => none

theorem behindComma?_of_opens (h : opens (· ≠ .comma) rest = true) : behindComma? rest = none := by
  cases rest with
  | nil => rfl
  | cons token rest =>
    obtain ⟨kind, text⟩ := token
    cases kind <;> first | rfl | cases h

theorem opens_ne_comma (h : opens Kind.startsClause rest = true) : opens (· ≠ .comma) rest = true :=
  opens_of_forall (fun kind hkind ↦ by cases kind <;> first | rfl | cases hkind) h

theorem readSelectItems_succ {count : Nat} {tokens : List Token} (hne : tokens ≠ [])
    (hread : readSelectItem tokens = .ok (item, count)) :
    readSelectItems (bound + 1) tokens =
      match behindComma? (tokens.drop count) with
      | some more => do
        let (items, taken) ← readSelectItems bound more
        .ok (item :: items, count + 1 + taken)
      | none => .ok ([item], count) := by
  cases tokens with
  | nil => exact absurd rfl hne
  | cons token rest =>
    simp only [readSelectItems, hread, bind, Except.bind]
    cases hdrop : (token :: rest).drop count with
    | nil => rfl
    | cons next more =>
      obtain ⟨kind, text⟩ := next
      cases kind <;> rfl

/-- What follows an item of a list ends it. -/
theorem opens_commaBefore {more : List Node} {tokens : List Token} (hempty : more = [] → tokens = [])
    (hrest : opens Kind.startsClause rest = true) :
    opens Kind.endsItem (commaBefore more ++ (tokens ++ rest)) = true := by
  cases more with
  | nil =>
    rw [hempty rfl]
    exact opens_of_forall (fun _ ↦ Kind.endsItem_of_startsClause) hrest
  | cons next more => rfl

theorem readSelectItems_separated {items : List Node} (hne : items ≠ []) (hitems : items.all isItem = true)
    (hrest : opens Kind.startsClause rest = true) (hbound : (separated itemTokens items).length ≤ bound) :
    readSelectItems bound (separated itemTokens items ++ rest) =
      .ok (Node.upperCasedEach items, (separated itemTokens items).length) := by
  induction items generalizing bound with
  | nil => exact absurd rfl hne
  | cons item more ih =>
    simp only [List.all_cons, Bool.and_eq_true] at hitems
    have hitem := itemTokens_ne_nil hitems.1
    have hlength := List.length_pos_iff.mpr hitem
    simp only [separated, List.length_append] at hbound
    obtain ⟨bound, rfl⟩ : ∃ n, bound = n + 1 := ⟨bound - 1, by omega⟩
    have hread : readSelectItem (itemTokens item ++
        (commaBefore more ++ (separated itemTokens more ++ rest))) = _ :=
      readSelectItem_itemTokens hitems.1 (opens_commaBefore (by rintro rfl; rfl) hrest)
    simp only [separated, List.append_assoc]
    rw [readSelectItems_succ (List.append_ne_nil_of_left_ne_nil hitem _) hread, List.drop_left]
    cases more with
    | nil =>
      simp [separated, commaBefore, behindComma?_of_opens (opens_ne_comma hrest),
        Node.upperCasedEach]
    | cons next more =>
      have hmore : readSelectItems bound (separated itemTokens (next :: more) ++ rest) = _ :=
        ih (List.cons_ne_nil next more) hitems.2 (by simp [commaBefore] at hbound; omega)
      simp only [commaBefore, comma, List.isEmpty_cons, Bool.false_eq_true, if_false,
        List.cons_append, List.nil_append, behindComma?, hmore]
      simp [bind, Except.bind, Node.upperCasedEach]
      omega

theorem readSelect_statementTokens (word : String) {items : List Node}
    (hclause : isStatement (.selectClause word items) = true) (hrest : opens Kind.startsClause rest = true) :
    readSelect (statementTokens (.selectClause word items) ++ rest) =
      .ok ((Node.selectClause word items).upperCased,
        (statementTokens (.selectClause word items)).length) := by
  simp only [isStatement, Bool.and_eq_true, Bool.not_eq_true', List.isEmpty_eq_false_iff] at hclause
  have hitems : readSelectItems (separated itemTokens items ++ rest).length
      (separated itemTokens items ++ rest) = _ :=
    readSelectItems_separated hclause.1 hclause.2 hrest (by simp)
  simp only [statementTokens, List.cons_append, readSelect, hitems]
  rfl

end Read

end SqlLayout
