import SqlLayout.Proofs.From

/-!
# The conditions of a join

The conditions behind an ON are kept, calls of any depth with them, but every link between them is
written AND.  So their lines are read back as the conditions exactly if no link is an OR, provided that
the tokens can be told apart where blanks stand between them.
-/

namespace SqlLayout

open Text Token Spelling Regular Read Layout

variable {tokens : List Token}

/-! ### The tokens of conditions -/

/-- The tokens of an argument: a value, or a call with a comma between each two arguments. -/
inductive Argument : List Token → Prop
  | value {token : Token} : token.kind.isValue = true → Argument [token]
  | call {name : String} {args : List (List Token)} : (∀ arg ∈ args, Argument arg) →
      Argument (⟨.func, name⟩ :: openParen :: ([comma].intercalate args ++ [closeParen]))

def IsCallTokens (tokens : List Token) : Prop :=
  Argument tokens ∧ tokens.head?.map Token.kind = some .func

inductive ComparisonTokens : List Token → Prop
  | names {left op right : Token} :
      left.kind = .identifier → op.kind = .compare → right.kind = .identifier →
      ComparisonTokens [left, op, right]
  | callOnRight {left op : Token} {right : List Token} :
      left.kind = .identifier → op.kind = .compare → IsCallTokens right →
      ComparisonTokens (left :: op :: right)
  | callOnLeft {left : List Token} {op right : Token} :
      IsCallTokens left → op.kind = .compare → right.kind = .identifier →
      ComparisonTokens (left ++ [op, right])

inductive LinkedTokens : List Token → Prop
  | one {tokens : List Token} : ComparisonTokens tokens → LinkedTokens tokens
  | more {tokens rest : List Token} {link : Token} :
      ComparisonTokens tokens → link.kind = .link → LinkedTokens rest →
      LinkedTokens (tokens ++ link :: rest)

def Token.conjoined (token : Token) : Token :=
  if token.kind = .link then ⟨.link, "AND"⟩ else token.shout

def Node.conjoined : Node → Node
  | .link _ => .link "AND"
  | node => node

/-! ### Arguments -/

def Kind.isInArgument (kind : Kind) : Bool :=
  kind.isValue || kind = .func || kind = .openParen || kind = .closeParen || kind = .comma

theorem mem_intercalate {separator token : Token} {lists : List (List Token)}
    (h : token ∈ [separator].intercalate lists) : token = separator ∨ ∃ list ∈ lists, token ∈ list := by
  induction lists with
  | nil => cases h
  | cons list rest ih =>
    cases rest with
    | nil => exact .inr ⟨list, by simp, by simpa using h⟩
    | cons next rest =>
      rw [List.intercalate_cons_cons, List.append_assoc, List.mem_append, List.mem_append,
        List.mem_singleton] at h
      rcases h with h | h | h
      · exact .inr ⟨list, by simp, h⟩
      · exact .inl h
      · rcases ih h with h | ⟨found, hfound, h⟩
        · exact .inl h
        · exact .inr ⟨found, List.mem_cons_of_mem _ hfound, h⟩

theorem Argument.isInArgument (h : Argument tokens) : ∀ token ∈ tokens, token.kind.isInArgument = true := by
  induction h with
  | value hvalue => simp [Kind.isInArgument, hvalue]
  | call _ ih =>
    intro token htoken
    simp only [List.mem_cons, List.mem_append, List.not_mem_nil, or_false] at htoken
    rcases htoken with rfl | rfl | htoken | rfl
    · rfl
    · rfl
    · rcases mem_intercalate htoken with rfl | ⟨arg, harg, htoken⟩
      · rfl
      · exact ih arg harg token htoken
    · rfl

theorem exists_termToken {token : Token} (h : token.kind.isValue = true) :
    ∃ kind : TermKind, termToken ⟨kind, token.text, none, none, none⟩ = token.shout := by
  rw [shout_of_isValue h]
  obtain ⟨kind, text⟩ := token
  cases kind with
  | identifier => exact ⟨.identifier, rfl⟩
  | number => exact ⟨.number, rfl⟩
  | str => exact ⟨.str, rfl⟩
  | _ => cases h

theorem exists_argTokens {args : List (List Token)}
    (h : ∀ arg ∈ args, ∃ node, isArg node = true ∧ arg.map shout = callTokens node) :
    ∃ nodes, nodes.length = args.length ∧ areArgs nodes = true ∧
      ([comma].intercalate args).map shout = argTokens nodes := by
  have hcomma : comma.shout = comma := by decide +kernel
  induction args with
  | nil => exact ⟨[], rfl, rfl, rfl⟩
  | cons arg rest ih =>
    obtain ⟨⟨node, hnode, harg⟩, hrest⟩ := List.forall_mem_cons.mp h
    obtain ⟨nodes, hlength, hnodes, htokens⟩ := ih hrest
    refine ⟨node :: nodes, by simp [hlength], by simp [areArgs, hnode, hnodes], ?_⟩
    cases rest with
    | nil =>
      obtain rfl := List.eq_nil_of_length_eq_zero hlength
      simp [argTokens, Spelling.commaBefore, harg]
    | cons next rest =>
      obtain ⟨other, nodes, rfl⟩ := List.exists_cons_of_length_eq_add_one hlength
      have hargs : argTokens (node :: other :: nodes) =
          callTokens node ++ [comma] ++ argTokens (other :: nodes) := by
        rw [argTokens]
        rfl
      rw [List.intercalate_cons_cons, List.map_append, List.map_append, harg, htokens, hargs,
        List.map_singleton, hcomma]

/-- An argument is read as a value or a call. -/
theorem Argument.exists_callTokens (h : Argument tokens) :
    ∃ node, isArg node = true ∧ tokens.map shout = callTokens node := by
  have hopen : openParen.shout = openParen := by decide +kernel
  have hclose : closeParen.shout = closeParen := by decide +kernel
  induction h with
  | value hvalue =>
    obtain ⟨kind, hkind⟩ := exists_termToken hvalue
    exact ⟨.plain kind _, rfl, by rw [Node.plain, callTokens, hkind, List.map_singleton]⟩
  | @call name args _ ih =>
    obtain ⟨nodes, -, hnodes, htokens⟩ := exists_argTokens ih
    refine ⟨.call name nodes none none, by simp [isArg, hnodes, isAlias], ?_⟩
    have hname : Token.shout ⟨.func, name⟩ = ⟨.func, upper name⟩ := shout_of_not_isValue rfl
    simp [callTokens, htokens, hopen, hclose, hname, aliasTokens]

theorem IsCallTokens.exists_isCall (h : IsCallTokens tokens) :
    ∃ node, isCall node = true ∧ tokens.map shout = partTokens node := by
  obtain ⟨hargument, hhead⟩ := h
  obtain ⟨node, hnode, htokens⟩ := hargument.exists_callTokens
  cases node with
  | call name args asWord aliasName => exact ⟨.call name args asWord aliasName, hnode, htokens⟩
  | term t =>
    have hkind : (tokens.map shout).head?.map Token.kind = some .func := by
      rw [List.head?_map, Option.map_map, ← hhead]
      exact congrArg (Option.map · tokens.head?) (funext kind_shout)
    rw [htokens, callTokens] at hkind
    exact absurd (Option.some.inj hkind) (by cases htoken : t.kind <;> simp [termToken, htoken, TermKind.tokenKind])
  | _ => cases hnode

/-! ### Conditions -/

theorem ComparisonTokens.exists_comparison (h : ComparisonTokens tokens)
    (hsound : ∀ token ∈ tokens, token.isSound = true) :
    ∃ left op right next, upper op ≠ "IN" ∧ Comparison 0 next left right ∧
      tokens.map shout = conditionTokens (.condition [left, .operator op, right]) := by
  have hop : ∀ {op : Token}, op ∈ tokens → op.kind = .compare →
      upper op.text ≠ "IN" ∧ partTokens (.operator op.text) = [op.shout] := fun hmem hkind ↦
    partTokens_of_compare (isWhole_of_isSound (hsound _ hmem) (by simp [hkind])) hkind
  cases h with
  | @names left op right hleft hcompare hright =>
    obtain ⟨hin, htoken⟩ := hop (by simp) hcompare
    refine ⟨.plain .identifier left.text, op.text, .plain .identifier right.text, 1, hin,
      .names rfl rfl, ?_⟩
    simp [conditionTokens, htoken, partTokens_of_identifier hleft, partTokens_of_identifier hright]
  | @callOnRight left op right hleft hcompare hright =>
    obtain ⟨hin, htoken⟩ := hop (by simp) hcompare
    obtain ⟨node, hcall, htokens⟩ := hright.exists_isCall
    refine ⟨.plain .identifier left.text, op.text, node, 2, hin, .callOnRight (by decide) rfl hcall, ?_⟩
    simp [conditionTokens, htoken, partTokens_of_identifier hleft, htokens]
  | @callOnLeft left op right hleft hcompare hright =>
    obtain ⟨hin, htoken⟩ := hop (by simp) hcompare
    obtain ⟨node, hcall, htokens⟩ := hleft.exists_isCall
    refine ⟨node, op.text, .plain .identifier right.text, 3, hin, .callOnLeft (by decide) hcall rfl, ?_⟩
    simp [conditionTokens, htoken, partTokens_of_identifier hright, htokens]

theorem ComparisonTokens.kind_ne (h : ComparisonTokens tokens) :
    ∀ token ∈ tokens, token.kind ≠ .insertWord ∧ token.kind ≠ .link := by
  have hcall : ∀ {tokens : List Token}, IsCallTokens tokens →
      ∀ token ∈ tokens, token.kind ≠ .insertWord ∧ token.kind ≠ .link := by
    intro tokens hcall token htoken
    have hkind := hcall.1.isInArgument token htoken
    constructor <;> (intro heq; rw [heq] at hkind; cases hkind)
  cases h with
  | names hleft hop hright => simp [hleft, hop, hright]
  | callOnRight hleft hop hright =>
    rw [List.forall_mem_cons, List.forall_mem_cons]
    exact ⟨by simp [hleft], by simp [hop], hcall hright⟩
  | callOnLeft hleft hop hright =>
    rw [List.forall_mem_append]
    exact ⟨hcall hleft, by simp [hop, hright]⟩

theorem map_conjoined_of_forall (h : ∀ token ∈ tokens, token.kind ≠ .link) :
    tokens.map Token.conjoined = tokens.map shout :=
  List.map_congr_left fun token htoken ↦ if_neg (h token htoken)

/-- Conditions that tokens are those of: their tokens in upper case, with and without their links made ANDs,
and whether the links are ANDs already. -/
structure IsReadAs (tokens : List Token) (conditions : List Node) : Prop where
  linked : LinkedComparisons conditions
  map_shout : tokens.map shout = conditions.flatMap conditionTokens
  map_conjoined : tokens.map Token.conjoined = (conditions.map Node.conjoined).flatMap conditionTokens
  areAnds_iff : AreAnds conditions ↔ ∀ token ∈ tokens, token.kind = .link → upper token.text = "AND"

theorem LinkedTokens.exists_isReadAs (h : LinkedTokens tokens)
    (hsound : ∀ token ∈ tokens, token.isSound = true) : ∃ conditions, IsReadAs tokens conditions := by
  have hand : upper "AND" = "AND" := by decide
  induction h with
  | one hcomparison =>
    obtain ⟨left, op, right, next, hin, hform, htokens⟩ := hcomparison.exists_comparison hsound
    have hlinks := fun token htoken ↦ (hcomparison.kind_ne token htoken).2
    refine ⟨[.condition [left, .operator op, right]], .one hin hform, by simp [htokens], ?_, ?_⟩
    · simp [map_conjoined_of_forall hlinks, htokens, Node.conjoined]
    · exact iff_of_true (by simp [AreAnds]) fun token htoken hkind ↦ absurd hkind (hlinks token htoken)
  | @more tokens rest link hcomparison hlink _ ih =>
    rw [List.forall_mem_append, List.forall_mem_cons] at hsound
    obtain ⟨hfirst, hsoundLink, hrest⟩ := hsound
    obtain ⟨conditions, hread⟩ := ih hrest
    obtain ⟨left, op, right, next, hin, hform, htokens⟩ := hcomparison.exists_comparison hfirst
    have hlinks := fun token htoken ↦ (hcomparison.kind_ne token htoken).2
    have hwhole := isWhole_of_isSound hsoundLink (by simp [hlink])
    have hshout : link.shout = ⟨.link, upper link.text⟩ := by
      rw [shout_of_not_isValue (by rw [hlink]; rfl), hlink]
    have hconjoined : link.conjoined = ⟨.link, "AND"⟩ := if_pos hlink
    refine ⟨.condition [left, .operator op, right] :: .link link.text :: conditions,
      .more hin hform (upper_text_of_link hwhole hlink) hread.linked, ?_, ?_, ?_⟩
    · simp [htokens, hread.map_shout, hshout, conditionTokens_link]
    · simp [map_conjoined_of_forall hlinks, htokens, hread.map_conjoined, hconjoined, Node.conjoined,
        conditionTokens_link, hand]
    · rw [List.forall_mem_append, List.forall_mem_cons, ← hread.areAnds_iff, areAnds_cons_iff]
      constructor
      · rintro ⟨hword, hands⟩
        exact ⟨fun token htoken hkind ↦ absurd hkind (hlinks token htoken), fun _ ↦ hword, hands⟩
      · rintro ⟨-, hword, hands⟩
        exact ⟨hword hlink, hands⟩

theorem LinkedTokens.kind_ne_insertWord (h : LinkedTokens tokens) :
    ∀ token ∈ tokens, token.kind ≠ .insertWord := by
  induction h with
  | one hcomparison => exact fun token htoken ↦ (hcomparison.kind_ne token htoken).1
  | more hcomparison hlink _ ih =>
    rw [List.forall_mem_append, List.forall_mem_cons]
    exact ⟨fun token htoken ↦ (hcomparison.kind_ne token htoken).1, by simp [hlink], ih⟩

/-! ### The layout of conditions -/

theorem linkedComparisons_conjoined {conditions : List Node} (h : LinkedComparisons conditions) :
    LinkedComparisons (conditions.map Node.conjoined) := by
  induction h with
  | one hin hform => exact .one hin hform
  | more hin hform _ _ ih => exact .more hin hform (by decide) ih

theorem areAnds_conjoined (conditions : List Node) : AreAnds (conditions.map Node.conjoined) := by
  intro word hword
  obtain ⟨node, -, hnode⟩ := List.mem_map.mp hword
  cases node <;> cases hnode
  decide

/-- The edits of conditions do not look at the words of their links. -/
theorem joinConditionEdits_conjoined (indent : Int) (newLine : Bool) (conditions : List Node) :
    joinConditionEdits indent newLine (conditions.map Node.conjoined) =
      joinConditionEdits indent newLine conditions := by
  induction conditions generalizing newLine with
  | nil => rfl
  | cons node rest ih => cases node <;> simp [Node.conjoined, joinConditionEdits, ih]

theorem lines_style_conjoined (indent : Int) (first t : Term) (word onWord : String)
    (conditions : List Node) :
    (style indent [.fromClause "FROM" (.term first :: [FromPart.joinOn word t onWord
        (conditions.map Node.conjoined)].flatMap FromPart.nodes)]).map Styled.lines =
      (style indent [.fromClause "FROM" (.term first :: [FromPart.joinOn word t onWord
        conditions].flatMap FromPart.nodes)]).map Styled.lines := by
  have hparts : fromParts indent (.term first :: [FromPart.joinOn word t onWord
      (conditions.map Node.conjoined)].flatMap FromPart.nodes) =
      fromParts indent (.term first :: [FromPart.joinOn word t onWord
        conditions].flatMap FromPart.nodes) := by
    simp [FromPart.nodes, fromParts, startsWithJoin, startsWithOn, joinConditionEdits_conjoined]
  refine lines_style_of_alike indent ?_
  simp only [Layout.statements, statement, fromClause, hparts]
  exact ((Draft.Alike.refl _).bind fun _ _ ↦ Draft.alike_pure _ _).bind fun _ _ ↦
    (Draft.Alike.refl _).bind fun _ _ ↦ (Draft.Alike.refl _).bind fun _ _ ↦ Draft.alike_pure _ _

theorem clauseTokens_joinOn (first t : Term) (word onWord : String) : ∃ front, ∀ conditions,
    clauseTokens first [.joinOn word t onWord conditions] =
      front ++ conditions.flatMap conditionTokens :=
  ⟨⟨.fromWord, "FROM"⟩ :: (namedTokens first ++ ⟨.join, upper word⟩ :: (namedTokens t ++
    [⟨.onWord, upper onWord⟩])), fun _ ↦ by simp [clauseTokens, FromPart.tokens]⟩

theorem map_conjoined_clause {keyword word onWord : Token} {first second : TableTokens}
    {conditions : List Token} {nodes : List Node} (hkeyword : keyword.kind = .fromWord)
    (hfirst : first.isRead = true) (hword : word.kind = .join) (hsecond : second.isRead = true)
    (hon : onWord.kind = .onWord) (hread : IsReadAs conditions nodes)
    (hshout : (keyword :: (first.tokens ++ word :: (second.tokens ++ onWord :: conditions))).map shout =
      clauseTokens first.term [.joinOn word.text second.term onWord.text nodes]) :
    (keyword :: (first.tokens ++ word :: (second.tokens ++ onWord :: conditions))).map Token.conjoined =
      clauseTokens first.term [.joinOn word.text second.term onWord.text (nodes.map Node.conjoined)] := by
  obtain ⟨front, hfront⟩ := clauseTokens_joinOn first.term second.term word.text onWord.text
  have hsplit : keyword :: (first.tokens ++ word :: (second.tokens ++ onWord :: conditions)) =
      (keyword :: (first.tokens ++ word :: (second.tokens ++ [onWord]))) ++ conditions := by simp
  have hlinks : ∀ token ∈ keyword :: (first.tokens ++ word :: (second.tokens ++ [onWord])),
      token.kind ≠ .link := by
    simp only [List.forall_mem_cons, List.forall_mem_append]
    exact ⟨by simp [hkeyword], TableTokens.kind_ne_of_mem_tokens hfirst (by decide) rfl, by simp [hword],
      TableTokens.kind_ne_of_mem_tokens hsecond (by decide) rfl, by simp [hon]⟩
  rw [hsplit, List.map_append, hread.map_shout, hfront] at hshout
  rw [hsplit, List.map_append, map_conjoined_of_forall hlinks, List.append_cancel_right hshout,
    hread.map_conjoined, hfront]

/-- The lines of a join give its tokens with AND for every link, wherever these can be told apart on one
line.  So they give its tokens again, up to upper case, exactly if all links are ANDs. -/
theorem tokensOf_lines_join_iff {sql : String} {tokens conditions : List Token}
    {keyword word onWord : Token} {first second : TableTokens} (htokens : tokensOf sql = .ok tokens)
    (hform : tokens =
      keyword :: (first.tokens ++ word :: (second.tokens ++ onWord :: conditions)))
    (hkeyword : keyword.kind = .fromWord) (hfirst : first.isRead = true) (hword : word.kind = .join)
    (hsecond : second.isRead = true) (hon : onWord.kind = .onWord)
    (hconditions : LinkedTokens conditions) (indent : Int) :
    ∃ nodes styled, parse tokens = .ok nodes ∧ style indent nodes = .ok styled ∧
      (tokensOf ("\n".intercalate styled.lines) = .ok (tokens.map Token.conjoined) ↔
        tokensOf (oneLine (tokens.map Token.conjoined)) = .ok (tokens.map Token.conjoined)) ∧
      (tokensOf ("\n".intercalate styled.lines) = .ok (tokens.map shout) ↔
        (∀ token ∈ conditions, token.kind = .link → upper token.text = "AND") ∧
          tokensOf (oneLine (tokens.map shout)) = .ok (tokens.map shout)) := by
  subst hform
  have hinsert : ∀ token ∈ word :: (second.tokens ++ onWord :: conditions),
      token.kind ≠ .insertWord := by
    simp only [List.forall_mem_cons, List.forall_mem_append]
    exact ⟨by simp [hword], TableTokens.kind_ne_of_mem_tokens hsecond (by decide) rfl, by simp [hon],
      hconditions.kind_ne_insertWord⟩
  have hsound := isSound_of_tokensOf htokens hkeyword hfirst hinsert
  obtain ⟨nodes, hread⟩ := hconditions.exists_isReadAs fun token htoken ↦ hsound token (by simp [htoken])
  obtain ⟨hjoin, hregular⟩ := map_shout_joinedOn hword hsecond hon
    (fun token htoken ↦ hsound token (List.mem_cons_of_mem _ (List.mem_append_right _ htoken)))
    hread.linked hread.map_shout
  obtain ⟨hshout, hisTable⟩ := map_shout_clause hkeyword hfirst hsound
    (hjoin.trans (List.flatMap_singleton FromPart.tokens _).symm)
  have hconjoined := map_conjoined_clause hkeyword hfirst hword hsecond hon hread hshout
  have hregularAnds : ∀ part ∈ [FromPart.joinOn word.text second.term onWord.text
      (nodes.map Node.conjoined)], part.IsRegular := List.forall_mem_singleton.mpr
    ⟨hregular.1, hregular.2.1, hregular.2.2.1, linkedComparisons_conjoined hread.linked⟩
  rw [← List.forall_mem_singleton (p := FromPart.IsRegular)] at hregular
  obtain ⟨trees, styled, hparse, hstyled, hlines⟩ :=
    exists_style_of_map_shout hisTable hregular hshout indent
  refine ⟨trees, styled, hparse, hstyled, ?_, ?_⟩
  · rw [hconjoined, tokensOf_lines_iff_areKept hisTable hregularAnds
      ((lines_style_conjoined indent _ _ _ _ _).trans hlines)]
    exact and_iff_right ⟨areAnds_conjoined nodes, rfl⟩
  · rw [hshout, tokensOf_lines_iff_areKept hisTable hregular hlines, ← hread.areAnds_iff]
    simp [AreKept]

/-- The tokens of a comparison with a call inside a call and of one with a call on its left. -/
def calledTokens : List Token :=
  [⟨.identifier, "a.k"⟩, ⟨.compare, "="⟩, ⟨.func, "max"⟩, openParen, ⟨.identifier, "y.k"⟩, comma,
    ⟨.func, "f"⟩, openParen, closeParen, closeParen, ⟨.link, "and"⟩, ⟨.func, "lower"⟩, openParen,
    ⟨.identifier, "y.n"⟩, closeParen, ⟨.compare, "like"⟩, ⟨.identifier, "a.n"⟩]

theorem linkedTokens_calledTokens : LinkedTokens calledTokens := by
  have hinner : ∀ arg ∈ [[⟨.identifier, "y.k"⟩], [⟨.func, "f"⟩, openParen, closeParen]], Argument arg :=
    List.forall_mem_cons.mpr ⟨.value rfl, List.forall_mem_singleton.mpr
      (Argument.call (List.forall_mem_nil _))⟩
  have hright : IsCallTokens [⟨.func, "max"⟩, openParen, ⟨.identifier, "y.k"⟩, comma, ⟨.func, "f"⟩,
      openParen, closeParen, closeParen] := ⟨.call hinner, rfl⟩
  have hleft : IsCallTokens [⟨.func, "lower"⟩, openParen, ⟨.identifier, "y.n"⟩, closeParen] :=
    ⟨@Argument.call "lower" [[⟨.identifier, "y.n"⟩]] (List.forall_mem_singleton.mpr (.value rfl)), rfl⟩
  exact .more (.callOnRight rfl rfl hright) rfl (.one (.callOnLeft hleft rfl rfl))

def joinTokens : List Token :=
  [⟨.fromWord, "from"⟩, ⟨.identifier, "a"⟩, ⟨.join, "inner join"⟩, ⟨.identifier, "b"⟩, ⟨.asWord, "as"⟩,
    ⟨.identifier, "y"⟩, ⟨.onWord, "on"⟩] ++ calledTokens

theorem tokensOf_lines_join_iff_called :
    tokensOf "from a inner join b as y on a.k = max(y.k, f()) and lower(y.n) like a.n" = .ok joinTokens ∧
      LinkedTokens calledTokens ∧
      ∃ nodes styled, parse joinTokens = .ok nodes ∧ style 0 nodes = .ok styled ∧
        tokensOf ("\n".intercalate styled.lines) = .ok (joinTokens.map shout) := by
  have htokens : tokensOf "from a inner join b as y on a.k = max(y.k, f()) and lower(y.n) like a.n" =
      .ok joinTokens := tokensOf_of_tokenize (by decide +kernel)
  have hform : joinTokens = ⟨.fromWord, "from"⟩ :: (TableTokens.tokens ⟨⟨.identifier, "a"⟩, none, none⟩ ++
      ⟨.join, "inner join"⟩ :: (TableTokens.tokens
        ⟨⟨.identifier, "b"⟩, some ⟨.asWord, "as"⟩, some ⟨.identifier, "y"⟩⟩ ++
          ⟨.onWord, "on"⟩ :: calledTokens)) := rfl
  have hands : ∀ token ∈ calledTokens, token.kind = .link → upper token.text = "AND" := by
    decide +kernel
  have hline : tokensOf (oneLine (joinTokens.map shout)) = .ok (joinTokens.map shout) :=
    tokensOf_of_tokenize (by decide +kernel)
  obtain ⟨nodes, styled, hparse, hstyled, -, hiff⟩ := tokensOf_lines_join_iff htokens hform rfl
    (by decide) rfl (by decide) rfl linkedTokens_calledTokens 0
  exact ⟨htokens, linkedTokens_calledTokens, nodes, styled, hparse, hstyled, hiff.mpr ⟨hands, hline⟩⟩

/-- An OR between conditions comes out as an AND. -/
theorem tokensOf_lines_join_or :
    ∃ tokens nodes styled, tokensOf "from a join b on a.x = b.x or a.y = b.y" = .ok tokens ∧
      parse tokens = .ok nodes ∧ style 0 nodes = .ok styled ∧
      styled.lines = ["FROM", "    a", "    JOIN b ON", "        a.x = b.x", "        AND a.y = b.y"] ∧
      tokensOf ("\n".intercalate styled.lines) ≠ .ok (tokens.map shout) := by
  have hcut : tokenize "from a join b on a.x = b.x or a.y = b.y" = ⟨[⟨.fromWord, "from"⟩,
      ⟨.identifier, "a"⟩, ⟨.join, "join"⟩, ⟨.identifier, "b"⟩, ⟨.onWord, "on"⟩, ⟨.identifier, "a.x"⟩,
      ⟨.compare, "="⟩, ⟨.identifier, "b.x"⟩, ⟨.link, "or"⟩, ⟨.identifier, "a.y"⟩, ⟨.compare, "="⟩,
      ⟨.identifier, "b.y"⟩], none⟩ := by decide +kernel
  have hagain : tokenize ("\n".intercalate
      ["FROM", "    a", "    JOIN b ON", "        a.x = b.x", "        AND a.y = b.y"]) =
      ⟨[⟨.fromWord, "FROM"⟩, ⟨.identifier, "a"⟩, ⟨.join, "JOIN"⟩, ⟨.identifier, "b"⟩, ⟨.onWord, "ON"⟩,
        ⟨.identifier, "a.x"⟩, ⟨.compare, "="⟩, ⟨.identifier, "b.x"⟩, ⟨.link, "AND"⟩,
        ⟨.identifier, "a.y"⟩, ⟨.compare, "="⟩, ⟨.identifier, "b.y"⟩], none⟩ := by decide +kernel
  refine ⟨_, [.fromClause "from" [.plain .identifier "a", .join "join", .plain .identifier "b",
      .onClause "on" [.condition [.plain .identifier "a.x", .operator "=", .plain .identifier "b.x"],
        .link "or", .condition [.plain .identifier "a.y", .operator "=", .plain .identifier "b.y"]]]],
    ⟨["FROM", "    a", "    JOIN b ON", "        a.x = b.x", "        AND a.y = b.y"], _⟩,
    tokensOf_of_tokenize hcut, rfl, rfl, rfl, ?_⟩
  rw [tokensOf_of_tokenize hagain]
  exact fun h ↦ absurd (Except.ok.inj h) (by decide +kernel)

end SqlLayout
