import SqlLayout.Proofs.Layout.Tables
import SqlLayout.Proofs.LetterCase
import SqlLayout.Proofs.RoundTrip

/-!
# The tables of a FROM clause

The layout of a FROM clause is read back as the clause exactly if no part follows the conditions of an ON,
no comma follows the table of a join and all links are ANDs, provided that the tokens can be told apart
where blanks stand between them.  That is not always so: a table named left in front of a JOIN is read as a
LEFT JOIN, however the clause is laid out.
-/

namespace SqlLayout

open Text Token Spelling Regular Read Layout

variable {parts : List FromPart}

theorem Token.shout_shout (token : Token) : token.shout.shout = token.shout := by
  by_cases h : token.kind.isValue = true
  · rw [shout_of_isValue h, shout_of_isValue h]
  · rw [Bool.not_eq_true] at h
    simp [shout, h]

/-! ### The words of a clause -/

theorem Text.isInfix_of_mem_piecesFrom {piece found text : List Char}
    (h : found ∈ piecesFrom piece text) : found <:+: piece ++ text := by
  induction text generalizing piece with
  | nil =>
    unfold piecesFrom at h
    split at h
    · cases h
    · simp only [List.mem_singleton.mp h, List.append_nil, List.infix_rfl]
  | cons c text ih =>
    have hbehind : found ∈ piecesFrom [] text → found <:+: piece ++ c :: text := fun hmem ↦
      (ih hmem).trans ⟨piece ++ [c], [], by simp⟩
    unfold piecesFrom at h
    split at h
    · split at h
      · exact hbehind h
      · rcases List.mem_cons.mp h with rfl | hmem
        · exact (List.prefix_append found (c :: text)).isInfix
        · exact hbehind hmem
    · simpa using ih h

theorem Text.upper_isInfix_of_mem_pieces {word piece : String} (h : piece ∈ pieces word) :
    (upper piece).toList <:+: (upper word).toList := by
  obtain ⟨found, hfound, rfl⟩ := List.mem_map.mp h
  obtain ⟨before, behind, hword⟩ := isInfix_of_mem_piecesFrom hfound
  rw [List.nil_append] at hword
  simp only [upper, String.toList_ofList, ← hword, List.flatMap_append]
  exact List.infix_append _ _ _

namespace Token

variable {token : Token}

theorem isJoin_of_isWhole (h : token.isWhole = true) (hkind : token.kind = .join) :
    FromPart.IsJoin token.text := by
  obtain ⟨-, -, -, -, -, htoken⟩ := exists_of_isWhole h
  rcases kind_of_ofWord htoken with hword | hnumber | hplain
  · rcases Kind.mem_of_ofWord? hword with hmem | ⟨-, last, hlast, hupper⟩
    · exact absurd hmem (by rw [hkind]; decide)
    · rw [FromPart.IsJoin, ← hupper]
      exact upper_isInfix_of_mem_pieces hlast
  · cases hkind.symm.trans hnumber
  · exact absurd (plainKind_mem token.text) (by rw [← hplain, hkind]; decide)

theorem ofValue_of_isWhole (h : token.isWhole = true) (hkind : token.kind.isValue = true) :
    ofValue token.text = token := by
  obtain ⟨-, -, -, -, -, htoken⟩ := exists_of_isWhole h
  have hkeywords : ∀ kind ∈ Kind.keywords.map Prod.snd, kind.isValue = false := by decide
  cases hword : Kind.ofWord? token.text with
  | none => exact (eq_ofValue hword htoken).symm
  | some kind =>
    rw [kind_of_ofWord? htoken hword] at hkind
    rcases Kind.mem_of_ofWord? hword with hmem | ⟨rfl, -⟩
    · cases hkind.symm.trans (hkeywords kind hmem)
    · cases hkind

theorem shout_of_identifier (h : token.kind = .identifier) : token.shout = ⟨.identifier, token.text⟩ := by
  rw [shout_of_isValue (by rw [h]; rfl), ← h]

end Token

/-! ### Well-built clauses -/

theorem wellBuilt_of_linked {conditions : List Node} (h : LinkedComparisons conditions) :
    ∀ part ∈ conditions, IsJoinPart part ∧ WellBuilt part := by
  induction h with
  | one _ hform =>
    obtain ⟨hleft, hright⟩ := wellBuilt_of_regular_operand hform
    rw [List.forall_mem_singleton]
    exact isJoinPart_comparison _ hleft hright
  | more _ hform _ _ ih =>
    obtain ⟨hleft, hright⟩ := wellBuilt_of_regular_operand hform
    rw [List.forall_mem_cons, List.forall_mem_cons]
    exact ⟨isJoinPart_comparison _ hleft hright, ⟨.link _, Node.everywhere_leaf trivial rfl⟩, ih⟩

theorem wellBuilt_of_isRegular {part : FromPart} (h : part.IsRegular) :
    ∀ node ∈ part.nodes, node.isFromPart = true ∧ WellBuilt node := by
  have hterm : ∀ t, (Node.term t).isFromPart = true ∧ WellBuilt (.term t) := fun _ ↦
    ⟨rfl, Node.everywhere_leaf trivial rfl⟩
  have hjoin : ∀ word, (Node.join word).isFromPart = true ∧ WellBuilt (.join word) := fun _ ↦
    ⟨rfl, Node.everywhere_leaf trivial rfl⟩
  cases part with
  | table t => exact List.forall_mem_singleton.mpr (hterm t)
  | join word t =>
    exact List.forall_mem_cons.mpr ⟨hjoin word, List.forall_mem_singleton.mpr (hterm t)⟩
  | joinOn word t onWord conditions =>
    have hlinked := wellBuilt_of_linked h.2.2.2
    have hon : WellBuilt (.onClause onWord conditions) := wellBuilt_iff.mpr
      ⟨fun part hpart ↦ (hlinked part hpart).1, fun part hpart ↦ (hlinked part hpart).2⟩
    exact List.forall_mem_cons.mpr ⟨hjoin word, List.forall_mem_cons.mpr
      ⟨hterm t, List.forall_mem_singleton.mpr ⟨rfl, hon⟩⟩⟩

theorem wellBuilt_fromClause (first : Term) (hparts : ∀ part ∈ parts, part.IsRegular) (word : String) :
    WellBuilt (.fromClause word (.term first :: parts.flatMap FromPart.nodes)) := by
  have hnodes : ∀ node ∈ Node.term first :: parts.flatMap FromPart.nodes,
      node.isFromPart = true ∧ WellBuilt node := by
    refine List.forall_mem_cons.mpr ⟨⟨rfl, Node.everywhere_leaf trivial rfl⟩, fun node hnode ↦ ?_⟩
    obtain ⟨part, hpart, hmem⟩ := List.mem_flatMap.mp hnode
    exact wellBuilt_of_isRegular (hparts part hpart) node hmem
  exact wellBuilt_iff.mpr ⟨fun node hnode ↦ (hnodes node hnode).1, fun node hnode ↦ (hnodes node hnode).2⟩

/-! ### The lines of a clause -/

/-- Tokens that are those of a FROM clause up to upper case have the lines of the clause. -/
theorem exists_style_of_map_shout {tokens : List Token} {first : Term} (hfirst : FromPart.IsTable first)
    (hparts : ∀ part ∈ parts, part.IsRegular) (htokens : tokens.map shout = clauseTokens first parts)
    (indent : Int) :
    ∃ nodes styled, parse tokens = .ok nodes ∧ style indent nodes = .ok styled ∧
      (style indent [.fromClause "FROM" (.term first :: parts.flatMap FromPart.nodes)]).map
        Styled.lines = .ok styled.lines := by
  have hread := parse_clauseTokens hfirst hparts
  have hsame : tokens.map shout = (clauseTokens first parts).map shout := by
    rw [← htokens, List.map_map]
    exact List.map_congr_left fun token _ ↦ (shout_shout token).symm
  have hagree := parse_agree_of_map_shout hsame
  rw [hread] at hagree
  cases hparse : parse tokens with
  | error fault =>
    rw [hparse] at hagree
    cases hagree
  | ok nodes =>
    rw [hparse] at hagree
    cases hagree with
    | ok hnodes =>
      have hclause : ∀ node ∈ [Node.fromClause "FROM" (.term first :: parts.flatMap FromPart.nodes)],
          node.isStatement = true ∧ WellBuilt node :=
        List.forall_mem_singleton.mpr ⟨rfl, wellBuilt_fromClause first hparts "FROM"⟩
      have hlines := (lines_style_of_sameNodes indent (wellBuilt_of_parse hparse)
        (wellBuilt_of_parse hread) hnodes).trans (lines_style_of_wellBuilt indent hclause)
      obtain ⟨laid, hlaid, -⟩ := exists_style_from indent hfirst hparts "FROM"
      rw [hlaid] at hlines ⊢
      obtain ⟨styled, hstyled, hsame⟩ := map_eq_ok.mp hlines
      exact ⟨nodes, styled, rfl, hstyled, congrArg Except.ok hsame.symm⟩

/-- The lines of a FROM clause give its tokens again exactly if the layout keeps all its parts and the
tokens can be told apart on one line. -/
theorem tokensOf_lines_iff_areKept {first : Term} {indent : Int} {lines : List String}
    (hfirst : FromPart.IsTable first) (hparts : ∀ part ∈ parts, part.IsRegular)
    (hlines : (style indent [.fromClause "FROM" (.term first :: parts.flatMap FromPart.nodes)]).map
      Styled.lines = .ok lines) :
    tokensOf ("\n".intercalate lines) = .ok (clauseTokens first parts) ↔
      AreKept parts ∧ tokensOf (oneLine (clauseTokens first parts)) = .ok (clauseTokens first parts) := by
  obtain ⟨laid, hlaid, hmarks, hwritten⟩ := exists_style_from indent hfirst hparts "FROM"
  rw [hlaid] at hlines
  obtain rfl : laid.lines = lines := Except.ok.inj hlines
  exact tokensOf_iff_kept (fun token htoken ↦ kind_ne_of_mem_clauseTokens hparts htoken) hmarks hwritten

/-! ### The tokens of a clause -/

structure TableTokens where
  name : Token
  asWord : Option Token
  aliasName : Option Token

namespace TableTokens

variable {table : TableTokens}

def tokens (table : TableTokens) : List Token :=
  table.name :: (table.asWord.toList ++ table.aliasName.toList)

def isRead (table : TableTokens) : Bool :=
  table.name.kind = .identifier && table.asWord.all (·.kind = .asWord) &&
    table.aliasName.all (·.kind.isValue)

def term (table : TableTokens) : Term :=
  ⟨.identifier, table.name.text, table.aliasName.map Token.text, table.asWord.map Token.text, none⟩

theorem kinds_of_isRead (h : table.isRead = true) :
    table.name.kind = .identifier ∧ (∀ word ∈ table.asWord, word.kind = .asWord) ∧
      ∀ value ∈ table.aliasName, value.kind.isValue = true := by
  simp only [isRead, Bool.and_eq_true, decide_eq_true_eq, Option.all_eq_true] at h
  exact ⟨h.1.1, h.1.2, h.2⟩

theorem mem_tokens_iff {token : Token} :
    token ∈ table.tokens ↔ token = table.name ∨ token ∈ table.asWord ∨ token ∈ table.aliasName := by
  simp [tokens]

theorem map_shout_tokens (hread : table.isRead = true)
    (hsound : ∀ token ∈ table.tokens, token.isSound = true) :
    table.tokens.map shout = namedTokens table.term ∧ FromPart.IsTable table.term := by
  obtain ⟨hname, hwords, hvalues⟩ := kinds_of_isRead hread
  have hword : ∀ word ∈ table.asWord,
      word.shout = ⟨.asWord, upper word.text⟩ ∧ upper word.text = "AS" := by
    intro word hmem
    have hkind := hwords word hmem
    have hwhole := isWhole_of_isSound (hsound word (mem_tokens_iff.mpr (.inr (.inl hmem)))) (by simp [hkind])
    rw [shout_of_not_isValue (by rw [hkind]; rfl), hkind,
      upper_text_of_isPlainKeyword hwhole (by rw [hkind]; rfl), hkind]
    exact ⟨rfl, rfl⟩
  have hvalue : ∀ value ∈ table.aliasName, ofValue value.text = value.shout := by
    intro value hmem
    have hkind := hvalues value hmem
    have hwhole := isWhole_of_isSound (hsound value (mem_tokens_iff.mpr (.inr (.inr hmem))))
      (by rintro hfunc; rw [hfunc] at hkind; cases hkind)
    rw [ofValue_of_isWhole hwhole hkind, shout_of_isValue hkind]
  constructor
  · rw [tokens, namedTokens, List.map_cons, shout_of_identifier hname, List.map_append, aliasTokens]
    refine congrArg (_ :: ·) (congrArg₂ (· ++ ·) ?_ ?_)
    · rw [term, Option.map_map, Option.toList_map]
      exact List.map_congr_left fun word hmem ↦ (hword word (Option.mem_toList.mp hmem)).1
    · rw [term, Option.map_map, Option.toList_map]
      exact List.map_congr_left fun value hmem ↦ (hvalue value (Option.mem_toList.mp hmem)).symm
  · refine ⟨rfl, ?_⟩
    simp only [isNamed, isAlias, term, Option.all_map, Bool.and_eq_true, Option.all_eq_true]
    refine ⟨by simp, fun word hmem ↦ by simp [(hword word hmem).2], fun value hmem ↦ ?_⟩
    simp [hvalue value hmem, hvalues value hmem]

theorem kind_ne_of_mem_tokens (hread : table.isRead = true) {kind : Kind} (hword : kind ≠ .asWord)
    (hvalue : kind.isValue = false) : ∀ token ∈ table.tokens, token.kind ≠ kind := by
  obtain ⟨hname, hwords, hvalues⟩ := kinds_of_isRead hread
  rintro token htoken rfl
  rcases mem_tokens_iff.mp htoken with rfl | hmem | hmem
  · rw [hname] at hvalue
    cases hvalue
  · exact hword (hwords token hmem)
  · cases (hvalues token hmem).symm.trans hvalue

end TableTokens

inductive PartTokens where
  /-- A comma and a table. -/
  | listed (separator : Token) (table : TableTokens)
  /-- A join and its table. -/
  | joined (word : Token) (table : TableTokens)
  /-- A join, its table and a comparison of two names behind an ON. -/
  | joinedOn (word : Token) (table : TableTokens) (onWord left op right : Token)

theorem partTokens_of_identifier {token : Token} (h : token.kind = .identifier) :
    partTokens (.plain .identifier token.text) = [token.shout] := by
  rw [shout_of_identifier h]
  rfl

theorem partTokens_of_compare {token : Token} (hwhole : token.isWhole = true) (hkind : token.kind = .compare) :
    upper token.text ≠ "IN" ∧ partTokens (.operator token.text) = [token.shout] := by
  have hmem := upper_text_of_compare hwhole hkind
  have hin : upper token.text ≠ "IN" := fun heq ↦ absurd (heq ▸ hmem) (by decide)
  refine ⟨hin, ?_⟩
  rw [shout_of_not_isValue (by rw [hkind]; rfl), hkind, partTokens, if_neg hin]

/-- A join and its table are read as such. -/
theorem map_shout_joined {word : Token} {table : TableTokens} (hword : word.kind = .join)
    (htable : table.isRead = true) (hsound : ∀ token ∈ word :: table.tokens, token.isSound = true) :
    (word :: table.tokens).map shout = (FromPart.join word.text table.term).tokens ∧
      (FromPart.join word.text table.term).IsRegular := by
  rw [List.forall_mem_cons] at hsound
  obtain ⟨hshout, hisTable⟩ := TableTokens.map_shout_tokens htable hsound.2
  refine ⟨?_, isJoin_of_isWhole (isWhole_of_isSound hsound.1 (by simp [hword])) hword, hisTable⟩
  rw [List.map_cons, hshout, shout_of_not_isValue (by rw [hword]; rfl), hword, FromPart.tokens]

/-- A join, its table and conditions behind an ON are read as such. -/
theorem map_shout_joinedOn {word onWord : Token} {table : TableTokens} {tokens : List Token}
    {conditions : List Node} (hword : word.kind = .join) (htable : table.isRead = true)
    (hon : onWord.kind = .onWord)
    (hsound : ∀ token ∈ word :: (table.tokens ++ onWord :: tokens), token.isSound = true)
    (hlinked : LinkedComparisons conditions)
    (htokens : tokens.map shout = conditions.flatMap conditionTokens) :
    (word :: (table.tokens ++ onWord :: tokens)).map shout =
        (FromPart.joinOn word.text table.term onWord.text conditions).tokens ∧
      (FromPart.joinOn word.text table.term onWord.text conditions).IsRegular := by
  rw [← List.cons_append, List.forall_mem_append] at hsound
  obtain ⟨hshout, hisJoin, hisTable⟩ := map_shout_joined hword htable hsound.1
  have hwhole := isWhole_of_isSound (hsound.2 onWord List.mem_cons_self) (by simp [hon])
  have hupper := upper_text_of_isPlainKeyword hwhole (by rw [hon]; rfl)
  rw [hon] at hupper
  refine ⟨?_, hisJoin, hisTable, hupper, hlinked⟩
  rw [← List.cons_append, List.map_append, hshout, List.map_cons, htokens,
    shout_of_not_isValue (by rw [hon]; rfl), hon]
  rfl

namespace PartTokens

def tokens : PartTokens → List Token
  | listed separator table => separator :: table.tokens
  | joined word table => word :: table.tokens
  | joinedOn word table onWord left op right =>
    word :: (table.tokens ++ [onWord, left, op, right])

def isRead : PartTokens → Bool
  | listed separator table => separator.kind = .comma && table.isRead
  | joined word table => word.kind = .join && table.isRead
  | joinedOn word table onWord left op right =>
    word.kind = .join && table.isRead && onWord.kind = .onWord && left.kind = .identifier &&
      op.kind = .compare && right.kind = .identifier

def part : PartTokens → FromPart
  | listed _ table => .table table.term
  | joined word table => .join word.text table.term
  | joinedOn word table onWord left op right =>
    .joinOn word.text table.term onWord.text
      [.condition [.plain .identifier left.text, .operator op.text, .plain .identifier right.text]]

/-- Whether a part may stand in front of another: the table of a join in front of another join, and
conditions in front of nothing. -/
def precedes : PartTokens → PartTokens → Bool
  | listed .., _ => true
  | joined .., listed .. => false
  | joined .., _ => true
  | joinedOn .., _ => false

theorem map_shout_tokens {part : PartTokens} (hread : part.isRead = true)
    (hsound : ∀ token ∈ part.tokens, token.isSound = true) :
    part.tokens.map shout = part.part.tokens ∧ part.part.IsRegular := by
  cases part with
  | listed separator table =>
    simp only [isRead, Bool.and_eq_true, decide_eq_true_eq] at hread
    simp only [tokens, List.forall_mem_cons] at hsound
    have hwhole := isWhole_of_isSound hsound.1 (by simp [hread.1])
    have hcomma : separator.shout = comma := by
      rw [shout_of_isSign hwhole (by rw [hread.1]; rfl), hread.1]
      rfl
    obtain ⟨hshout, htable⟩ := TableTokens.map_shout_tokens hread.2 hsound.2
    exact ⟨by rw [tokens, List.map_cons, hcomma, hshout]; rfl, htable⟩
  | joined word table =>
    simp only [isRead, Bool.and_eq_true, decide_eq_true_eq] at hread
    exact map_shout_joined hread.1 hread.2 hsound
  | joinedOn word table onWord left op right =>
    simp only [isRead, Bool.and_eq_true, decide_eq_true_eq] at hread
    obtain ⟨⟨⟨⟨⟨hkind, htable⟩, hon⟩, hleft⟩, hop⟩, hright⟩ := hread
    have hsoundOp : op.isSound = true := hsound op (by simp [tokens])
    obtain ⟨hin, hshoutOp⟩ := partTokens_of_compare (isWhole_of_isSound hsoundOp (by simp [hop])) hop
    refine map_shout_joinedOn hkind htable hon hsound (.one hin (.names rfl rfl)) ?_
    simp [conditionTokens, hshoutOp, partTokens_of_identifier hleft, partTokens_of_identifier hright]

theorem kind_ne_insertWord {part : PartTokens} (hread : part.isRead = true) :
    ∀ token ∈ part.tokens, token.kind ≠ .insertWord := by
  cases part with
  | listed separator table =>
    simp only [isRead, Bool.and_eq_true, decide_eq_true_eq] at hread
    exact List.forall_mem_cons.mpr
      ⟨by simp [hread.1], TableTokens.kind_ne_of_mem_tokens hread.2 (by decide) rfl⟩
  | joined word table =>
    simp only [isRead, Bool.and_eq_true, decide_eq_true_eq] at hread
    exact List.forall_mem_cons.mpr
      ⟨by simp [hread.1], TableTokens.kind_ne_of_mem_tokens hread.2 (by decide) rfl⟩
  | joinedOn word table onWord left op right =>
    simp only [isRead, Bool.and_eq_true, decide_eq_true_eq] at hread
    obtain ⟨⟨⟨⟨⟨hkind, htable⟩, hon⟩, hleft⟩, hop⟩, hright⟩ := hread
    refine List.forall_mem_cons.mpr ⟨by simp [hkind], List.forall_mem_append.mpr
      ⟨TableTokens.kind_ne_of_mem_tokens htable (by decide) rfl, ?_⟩⟩
    simp [hon, hleft, hop, hright]

theorem map_shout_flatMap {parts : List PartTokens} (hread : ∀ part ∈ parts, part.isRead = true)
    (hsound : ∀ token ∈ parts.flatMap tokens, token.isSound = true) :
    (parts.flatMap tokens).map shout = (parts.map part).flatMap FromPart.tokens ∧
      ∀ read ∈ parts.map part, read.IsRegular := by
  have hpart : ∀ part ∈ parts, part.tokens.map shout = part.part.tokens ∧ part.part.IsRegular :=
    fun part hpart ↦ map_shout_tokens (hread part hpart)
      fun token htoken ↦ hsound token (List.mem_flatMap.mpr ⟨part, hpart, htoken⟩)
  rw [List.map_flatMap, List.flatMap_map, List.forall_mem_map]
  exact ⟨List.flatMap_congr fun part hmem ↦ (hpart part hmem).1, fun part hmem ↦ (hpart part hmem).2⟩

theorem areKept_iff {parts : List PartTokens} :
    AreKept (parts.map PartTokens.part) ↔ parts.IsChain (precedes · · = true) := by
  induction parts with
  | nil => simp [AreKept]
  | cons first parts ih =>
    cases parts with
    | nil => cases first <;> simp [AreKept, part, startsWithTable, AreAnds]
    | cons second parts =>
      rw [List.isChain_cons_cons, ← ih]
      cases first <;> cases second <;>
        simp [AreKept, part, precedes, startsWithTable]

end PartTokens

/-- Tokens that start with FROM and a table are those of a clause, up to upper case, if the rest of them are
those of its parts. -/
theorem map_shout_clause {keyword : Token} {first : TableTokens} {rest : List Token}
    (hkeyword : keyword.kind = .fromWord) (hfirst : first.isRead = true)
    (hsound : ∀ token ∈ keyword :: (first.tokens ++ rest), token.isSound = true)
    (hrest : rest.map shout = parts.flatMap FromPart.tokens) :
    (keyword :: (first.tokens ++ rest)).map shout = clauseTokens first.term parts ∧
      FromPart.IsTable first.term := by
  rw [List.forall_mem_cons, List.forall_mem_append] at hsound
  obtain ⟨hsoundKeyword, hsoundFirst, -⟩ := hsound
  obtain ⟨hshoutFirst, hisTable⟩ := TableTokens.map_shout_tokens hfirst hsoundFirst
  have hshout : keyword.shout = ⟨.fromWord, "FROM"⟩ := by
    rw [shout_of_isPlainKeyword (isWhole_of_isSound hsoundKeyword (by simp [hkeyword]))
      (by rw [hkeyword]; rfl), hkeyword]
    rfl
  refine ⟨?_, hisTable⟩
  rw [List.map_cons, List.map_append, hshout, hshoutFirst, hrest, clauseTokens]

/-- The tokens of a text that start with FROM and a table can be written, if nothing is inserted. -/
theorem isSound_of_tokensOf {sql : String} {keyword : Token} {first : TableTokens} {rest : List Token}
    (htokens : tokensOf sql = .ok (keyword :: (first.tokens ++ rest)))
    (hkeyword : keyword.kind = .fromWord) (hfirst : first.isRead = true)
    (hinsert : ∀ token ∈ rest, token.kind ≠ .insertWord) :
    ∀ token ∈ keyword :: (first.tokens ++ rest), token.isSound = true := by
  refine isSound_of_taken (taken_of_tokensOf htokens) ?_
  rw [List.forall_mem_cons, List.forall_mem_append]
  exact ⟨by simp [hkeyword], TableTokens.kind_ne_of_mem_tokens hfirst (by decide) rfl, hinsert⟩

/-- The lines of a FROM clause give its tokens again, up to upper case, exactly if no comma follows the table
of a join, nothing follows the comparison behind an ON, and the tokens are told apart on one line. -/
theorem tokensOf_lines_from_iff {sql : String} {tokens : List Token} {keyword : Token}
    {first : TableTokens} {parts : List PartTokens} (htokens : tokensOf sql = .ok tokens)
    (hform : tokens = keyword :: (first.tokens ++ parts.flatMap PartTokens.tokens))
    (hkeyword : keyword.kind = .fromWord) (hfirst : first.isRead = true)
    (hparts : parts.all PartTokens.isRead = true) (indent : Int) :
    ∃ nodes styled, parse tokens = .ok nodes ∧ style indent nodes = .ok styled ∧
      (tokensOf ("\n".intercalate styled.lines) = .ok (tokens.map shout) ↔
        parts.IsChain (PartTokens.precedes · · = true) ∧
          tokensOf (oneLine (tokens.map shout)) = .ok (tokens.map shout)) := by
  subst hform
  rw [List.all_eq_true] at hparts
  have hsound := isSound_of_tokensOf htokens hkeyword hfirst
    (List.forall_mem_flatMap.mpr fun part hpart ↦ PartTokens.kind_ne_insertWord (hparts part hpart))
  obtain ⟨hrest, hregular⟩ := PartTokens.map_shout_flatMap hparts
    fun token htoken ↦ hsound token (by simp [htoken])
  obtain ⟨hshout, hisTable⟩ := map_shout_clause hkeyword hfirst hsound hrest
  obtain ⟨nodes, styled, hparse, hstyled, hlines⟩ :=
    exists_style_of_map_shout hisTable hregular hshout indent
  refine ⟨nodes, styled, hparse, hstyled, ?_⟩
  rw [hshout, ← PartTokens.areKept_iff]
  exact tokensOf_lines_iff_areKept hisTable hregular hlines

/-- The tokens of a clause with an alias behind AS, one without, a join alone and a join with a condition. -/
def joinedTokens : List Token :=
  [⟨.fromWord, "from"⟩, ⟨.identifier, "a"⟩, ⟨.asWord, "as"⟩, ⟨.identifier, "x"⟩, ⟨.comma, ","⟩,
    ⟨.identifier, "b"⟩, ⟨.identifier, "y"⟩, ⟨.join, "left join"⟩, ⟨.identifier, "c"⟩, ⟨.join, "join"⟩,
    ⟨.identifier, "d"⟩, ⟨.onWord, "on"⟩, ⟨.identifier, "x.k"⟩, ⟨.compare, "like"⟩, ⟨.identifier, "d.k"⟩]

def joinedParts : List PartTokens :=
  [.listed ⟨.comma, ","⟩ ⟨⟨.identifier, "b"⟩, none, some ⟨.identifier, "y"⟩⟩,
    .joined ⟨.join, "left join"⟩ ⟨⟨.identifier, "c"⟩, none, none⟩,
    .joinedOn ⟨.join, "join"⟩ ⟨⟨.identifier, "d"⟩, none, none⟩ ⟨.onWord, "on"⟩ ⟨.identifier, "x.k"⟩
      ⟨.compare, "like"⟩ ⟨.identifier, "d.k"⟩]

theorem tokensOf_lines_from_iff_joined :
    tokensOf "from a as x, b y left join c join d on x.k like d.k" = .ok joinedTokens ∧
      joinedParts.all PartTokens.isRead = true ∧
      ∃ nodes styled, parse joinedTokens = .ok nodes ∧ style 0 nodes = .ok styled ∧
        tokensOf ("\n".intercalate styled.lines) = .ok (joinedTokens.map shout) := by
  have htokens : tokensOf "from a as x, b y left join c join d on x.k like d.k" = .ok joinedTokens :=
    tokensOf_of_tokenize (by decide +kernel)
  have hread : joinedParts.all PartTokens.isRead = true := by decide
  have hchain : joinedParts.IsChain (PartTokens.precedes · · = true) := by
    simp [joinedParts, PartTokens.precedes]
  have hline : tokensOf (oneLine (joinedTokens.map shout)) = .ok (joinedTokens.map shout) :=
    tokensOf_of_tokenize (by decide +kernel)
  have hform : joinedTokens = ⟨.fromWord, "from"⟩ ::
      (TableTokens.tokens ⟨⟨.identifier, "a"⟩, some ⟨.asWord, "as"⟩, some ⟨.identifier, "x"⟩⟩ ++
        joinedParts.flatMap PartTokens.tokens) := rfl
  obtain ⟨nodes, styled, hparse, hstyled, hiff⟩ :=
    tokensOf_lines_from_iff htokens hform rfl (by decide) hread 0
  exact ⟨htokens, hread, nodes, styled, hparse, hstyled, hiff.mpr ⟨hchain, hline⟩⟩

/-- A join behind the condition of another loses its JOIN. -/
theorem tokensOf_lines_from_join_behind_on :
    ∃ tokens nodes styled, tokensOf "from a join b on a.x = b.x join c" = .ok tokens ∧
      parse tokens = .ok nodes ∧ style 0 nodes = .ok styled ∧
      styled.lines = ["FROM", "    a", "    JOIN b ON", "        a.x = b.x", "    c"] ∧
      tokensOf ("\n".intercalate styled.lines) ≠ .ok (tokens.map shout) := by
  have hcut : tokenize "from a join b on a.x = b.x join c" = ⟨[⟨.fromWord, "from"⟩, ⟨.identifier, "a"⟩,
      ⟨.join, "join"⟩, ⟨.identifier, "b"⟩, ⟨.onWord, "on"⟩, ⟨.identifier, "a.x"⟩, ⟨.compare, "="⟩,
      ⟨.identifier, "b.x"⟩, ⟨.join, "join"⟩, ⟨.identifier, "c"⟩], none⟩ := by decide +kernel
  have hagain : tokenize ("\n".intercalate
      ["FROM", "    a", "    JOIN b ON", "        a.x = b.x", "    c"]) =
      ⟨[⟨.fromWord, "FROM"⟩, ⟨.identifier, "a"⟩, ⟨.join, "JOIN"⟩, ⟨.identifier, "b"⟩, ⟨.onWord, "ON"⟩,
        ⟨.identifier, "a.x"⟩, ⟨.compare, "="⟩, ⟨.identifier, "b.x"⟩, ⟨.identifier, "c"⟩], none⟩ := by
    decide +kernel
  refine ⟨_, [.fromClause "from" [.plain .identifier "a", .join "join", .plain .identifier "b",
      .onClause "on" [.condition [.plain .identifier "a.x", .operator "=", .plain .identifier "b.x"]],
      .join "join", .plain .identifier "c"]],
    ⟨["FROM", "    a", "    JOIN b ON", "        a.x = b.x", "    c"], _⟩,
    tokensOf_of_tokenize hcut, rfl, rfl, rfl, ?_⟩
  rw [tokensOf_of_tokenize hagain]
  exact fun h ↦ absurd (Except.ok.inj h) (by decide +kernel)

end SqlLayout
