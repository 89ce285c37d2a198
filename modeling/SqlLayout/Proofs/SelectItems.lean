import SqlLayout.Proofs.From
import SqlLayout.Proofs.Read.Tests

/-!
# The tokens of a select list

The items that a select list is read into are spelled with the tokens that they are read from.  They need not
be regular: the alias of a call may lack its AS or consist of it, and the keywords of a case expression may
have a parenthesis in their text.  A comma at the end of the arguments of a call or in front of them is not
seen in the tree, so the tokens have to be free of such commas.
-/

namespace SqlLayout

open Text Token Spelling Regular Read Layout

variable {node : Node} {tokens : List Token} {count bound : Nat} {token : Token} {items : List Node}

/-! ### Items as they are read -/

namespace Select

def IsAlias (asWord aliasName : Option String) : Prop :=
  isAlias asWord aliasName = true ∧ ∀ name ∈ aliasName, name ≠ "" ∧ IsSettled name.toList

mutual

def IsArg : Node → Prop
  | .term t => t.isPlain = true
  | .call _ args asWord aliasName => AreArgs args ∧ IsAlias asWord aliasName
  | _ => False

def AreArgs : List Node → Prop
  | [] => True
  | arg :: rest => IsArg arg ∧ AreArgs rest

end

/-- A word is a keyword in upper case and what may follow it. -/
def Opens (keyword word : String) : Prop :=
  ∃ rest, (upper word).toList = keyword.toList ++ rest ∧ IsSettled rest

def IsBranch : Node → Prop
  | .whenThen whenWord tested thenWord result =>
    Opens "WHEN" whenWord ∧ isValueText tested = true ∧ Opens "THEN" thenWord ∧ isValueText result = true
  | .otherwise elseWord result => Opens "ELSE" elseWord ∧ isValueText result = true
  | _ => False

def IsItem : Node → Prop
  | .term t => isNamed t = true
  | .call name args asWord aliasName => IsArg (.call name args asWord aliasName)
  | .caseOf _ branches => ∀ branch ∈ branches, IsBranch branch
  | _ => False

end Select

/-! ### Tokens that spell others -/

/-- Tokens without an INSERT that are others up to upper case if they can be written, and then `good`
holds. -/
structure Spells (tokens spelling : List Token) (good : Prop) : Prop where
  insert : ∀ token ∈ tokens, token.kind ≠ .insertWord
  shout : (∀ token ∈ tokens, token.isSound = true) → tokens.map shout = spelling ∧ good

section Spells

variable {tokens others spelling more : List Token} {token : Token} {good other : Prop}

theorem Spells.append (h : Spells tokens spelling good) (hothers : Spells others more other) :
    Spells (tokens ++ others) (spelling ++ more) (good ∧ other) := by
  refine ⟨List.forall_mem_append.mpr ⟨h.insert, hothers.insert⟩, fun hsound ↦ ?_⟩
  rw [List.forall_mem_append] at hsound
  obtain ⟨hfirst, hgood⟩ := h.shout hsound.1
  obtain ⟨hsecond, hother⟩ := hothers.shout hsound.2
  exact ⟨by rw [List.map_append, hfirst, hsecond], hgood, hother⟩

theorem Spells.imp (h : Spells tokens spelling good) (himp : good → other) :
    Spells tokens spelling other :=
  ⟨h.insert, fun hsound ↦ (h.shout hsound).imp_right himp⟩

theorem spells_nil (hgood : good) : Spells [] [] good :=
  ⟨by simp, fun _ ↦ ⟨rfl, hgood⟩⟩

theorem spells_singleton {spelled : Token} (hinsert : token.kind ≠ .insertWord)
    (h : token.isSound = true → token.shout = spelled ∧ good) : Spells [token] [spelled] good := by
  refine ⟨List.forall_mem_singleton.mpr hinsert, fun hsound ↦ ?_⟩
  obtain ⟨hshout, hgood⟩ := h (hsound token List.mem_cons_self)
  exact ⟨by rw [List.map_singleton, hshout], hgood⟩

theorem spells_value (h : token.kind.isValue = true) :
    Spells [token] [ofValue token.text]
      (isValueText token.text = true ∧ token.text ≠ "" ∧ IsSettled token.text.toList) := by
  have hkind := Kind.ne_of_isValue h
  refine spells_singleton hkind.2.1 fun hsound ↦ ?_
  have hwhole := isWhole_of_isSound hsound hkind.1
  have hvalue := ofValue_of_isWhole hwhole h
  refine ⟨by rw [shout_of_isValue h, hvalue], by rw [isValueText, hvalue, h], ?_,
    isSettled_of_isWhole hwhole⟩
  exact ne_empty_of_isSound (hvalue.symm ▸ hsound)

theorem spells_term (h : value? token = some node) :
    Spells [token] (callTokens node) (Select.IsArg node) := by
  obtain ⟨kind, text⟩ := token
  cases kind <;> cases h
  all_goals exact spells_singleton (by simp) fun _ ↦ ⟨shout_of_isValue rfl, rfl⟩

theorem spells_word {kind : Kind} (h : token.kind = kind) (hvalue : kind.isValue = false)
    (hinsert : kind ≠ .insertWord) : Spells [token] [⟨kind, upper token.text⟩] True := by
  subst h
  exact spells_singleton hinsert fun _ ↦ ⟨shout_of_not_isValue hvalue, trivial⟩

theorem spells_sign {kind : Kind} (h : token.kind = kind) (hsign : kind.isSign = true) :
    Spells [token] [⟨kind, kind.name⟩] True := by
  subst h
  have hkind : token.kind ≠ .func ∧ token.kind ≠ .insertWord := by
    constructor <;> (intro heq; rw [heq] at hsign; cases hsign)
  exact spells_singleton hkind.2 fun hsound ↦
    ⟨shout_of_isSign (isWhole_of_isSound hsound hkind.1) hsign, trivial⟩

theorem spells_asWord (token : Token) (h : token.kind = .asWord) :
    Spells [token] [⟨.asWord, upper token.text⟩] (upper token.text = "AS") := by
  refine spells_singleton (by simp [h]) fun hsound ↦ ?_
  have hupper := upper_text_of_isPlainKeyword (isWhole_of_isSound hsound (by simp [h])) (by rw [h]; rfl)
  rw [shout_of_not_isValue (by rw [h]; rfl), hupper, h]
  exact ⟨rfl, rfl⟩

theorem spells_caseKeyword (token : Token) (h : token.kind.isCaseKeyword = true) :
    Spells [token] [⟨token.kind, upper token.text⟩] (Select.Opens token.kind.name token.text) := by
  have hkind : token.kind ≠ .func ∧ token.kind ≠ .insertWord ∧ token.kind.isValue = false := by
    obtain ⟨kind, text⟩ := token
    cases kind with
    | whenWord | thenWord | elseWord => simp [Kind.isValue]
    | _ => cases h
  exact spells_singleton hkind.2.1 fun hsound ↦ ⟨shout_of_not_isValue hkind.2.2,
    upper_text_of_isCaseKeyword (isWhole_of_isSound hsound hkind.1) h⟩

end Spells

/-! ### Names and branches -/

theorem spells_aliasName (tokens : List Token) :
    Spells (tokens.take (aliasName? tokens).toList.length) ((aliasName? tokens).map ofValue).toList
      (∀ name ∈ aliasName? tokens, isValueText name = true ∧ name ≠ "" ∧ IsSettled name.toList) := by
  cases tokens with
  | nil => exact spells_nil (by simp [aliasName?])
  | cons token rest =>
    by_cases hvalue : token.kind.isValue = true
    · simpa [aliasName?, hvalue] using spells_value hvalue
    · simpa [aliasName?, hvalue] using spells_nil trivial

theorem spells_alias (tokens : List Token) :
    Spells (tokens.take (readAlias tokens).2)
      (aliasTokens (readAlias tokens).1.asWord (readAlias tokens).1.name)
      (Select.IsAlias (readAlias tokens).1.asWord (readAlias tokens).1.name) := by
  have hgood : ∀ {asWord aliasName : Option String}, (∀ word ∈ asWord, upper word = "AS") →
      (∀ name ∈ aliasName, isValueText name = true ∧ name ≠ "" ∧ IsSettled name.toList) →
      Select.IsAlias asWord aliasName := by
    intro asWord aliasName hword hname
    refine ⟨?_, fun name hmem ↦ (hname name hmem).2⟩
    simp only [isAlias, Bool.and_eq_true, Option.all_eq_true]
    exact ⟨fun word hmem ↦ by simp [hword word hmem], fun name hmem ↦ (hname name hmem).1⟩
  unfold readAlias
  split
  · rename_i word rest
    have hspells := (spells_asWord ⟨.asWord, word⟩ rfl).append (spells_aliasName rest)
    cases hname : aliasName? rest with
    | none =>
      rw [hname] at hspells
      exact hspells.imp fun h ↦ hgood (by simp [h.1]) (by simp)
    | some name =>
      rw [hname] at hspells
      exact hspells.imp fun h ↦ hgood (by simp [h.1]) h.2
  · have hspells := spells_aliasName tokens
    cases hname : aliasName? tokens with
    | none =>
      rw [hname] at hspells
      exact hspells.imp fun h ↦ hgood (by simp) h
    | some name =>
      rw [hname] at hspells
      exact hspells.imp fun h ↦ hgood (by simp) h

theorem spells_named (h : readNamed tokens = .ok (node, count)) :
    Spells (tokens.take count) (itemTokens node) (Select.IsItem node) := by
  have hterm : ∀ {kind : TermKind} {token : Token} {rest : List Token}, kind ≠ .str →
      token.shout = ⟨kind.tokenKind, token.text⟩ → token.kind ≠ .insertWord →
      Spells ((token :: rest).take ((readAlias rest).2 + 1))
        (namedTokens ⟨kind, token.text, (readAlias rest).1.name, (readAlias rest).1.asWord, none⟩)
        (isNamed ⟨kind, token.text, (readAlias rest).1.name, (readAlias rest).1.asWord, none⟩ = true) := by
    intro kind token rest hstr hshout hinsert
    have hfirst : Spells [token] [⟨kind.tokenKind, token.text⟩] True :=
      spells_singleton hinsert fun _ ↦ ⟨hshout, trivial⟩
    exact (hfirst.append (spells_alias rest)).imp fun hgood ↦ by simp [isNamed, hstr, hgood.2.1]
  unfold readNamed at h
  split at h
  · cases h
    exact hterm (by simp) (shout_of_isValue rfl) (by simp)
  · cases h
    exact hterm (by simp) (shout_of_isValue rfl) (by simp)
  · cases h
  · cases h

theorem spells_branches (tokens : List Token) :
    Spells (tokens.take (readBranches tokens).2) ((readBranches tokens).1.flatMap branchTokens)
      (∀ branch ∈ (readBranches tokens).1, Select.IsBranch branch) := by
  fun_induction readBranches tokens with
  | case1 whenWord tested thenWord result rest hkinds branches count hmore ih =>
    rw [hmore] at ih
    simp only [Bool.and_eq_true] at hkinds
    have hwhen := spells_caseKeyword ⟨.whenWord, whenWord⟩ rfl
    have hthen := spells_caseKeyword ⟨.thenWord, thenWord⟩ rfl
    have hall := hwhen.append ((spells_value hkinds.1).append (hthen.append
      ((spells_value hkinds.2).append ih)))
    refine hall.imp fun hgood ↦ List.forall_mem_cons.mpr ⟨?_, hgood.2.2.2.2⟩
    exact ⟨hgood.1, hgood.2.1.1, hgood.2.2.1, hgood.2.2.2.1.1⟩
  | case3 elseWord result rest hkind branches count hmore ih =>
    rw [hmore] at ih
    have helse := spells_caseKeyword ⟨.elseWord, elseWord⟩ rfl
    have hall := helse.append ((spells_value hkind).append ih)
    exact hall.imp fun hgood ↦ List.forall_mem_cons.mpr ⟨⟨hgood.1, hgood.2.1.1⟩, hgood.2.2⟩
  | _ => exact spells_nil (by simp)

/-! ### Calls -/

/-- Whether no comma stands directly behind an opening parenthesis or in front of a closing one. -/
def isTidy : List Token → Bool
  | first :: second :: rest =>
    !(first.kind = .openParen && second.kind = .comma) &&
      !(first.kind = .comma && second.kind = .closeParen) && isTidy (second :: rest)
  | _ => true

theorem isTidy_of_cons (h : isTidy (token :: tokens) = true) : isTidy tokens = true := by
  cases tokens with
  | nil => rfl
  | cons next rest =>
    simp only [isTidy, Bool.and_eq_true] at h
    exact h.2

theorem isTidy_of_append {front : List Token} (h : isTidy (front ++ tokens) = true) :
    isTidy tokens = true := by
  induction front with
  | nil => exact h
  | cons token front ih => exact ih (isTidy_of_cons h)

theorem isTidy_drop (h : isTidy tokens = true) (n : Nat) : isTidy (tokens.drop n) = true := by
  rw [← List.take_append_drop n tokens] at h
  exact isTidy_of_append h

/-- A call with its alias, given what its arguments are spelled with. -/
theorem Spells.call {paren : Token} {inner : List Token} {args : List Node} {taken : Nat}
    (hfunc : token.kind = .func) (hparen : paren.kind = .openParen)
    (h : Spells (inner.take taken) (argTokens args ++ [closeParen]) (Select.AreArgs args)) :
    Spells ((token :: paren :: inner).take (2 + taken + (readAlias (inner.drop taken)).2))
      (callTokens (.call token.text args (readAlias (inner.drop taken)).1.asWord
        (readAlias (inner.drop taken)).1.name))
      (Select.IsArg (.call token.text args (readAlias (inner.drop taken)).1.asWord
        (readAlias (inner.drop taken)).1.name)) := by
  have hname : Spells [token] [⟨.func, upper token.text⟩] True := spells_word hfunc rfl (by simp)
  have hopen : Spells [paren] [openParen] True := spells_sign hparen rfl
  have hall := hname.append (hopen.append (h.append (spells_alias (inner.drop taken))))
  have htokens : (token :: paren :: inner).take (2 + taken + (readAlias (inner.drop taken)).2) =
      token :: paren :: (inner.take taken ++ (inner.drop taken).take (readAlias (inner.drop taken)).2) := by
    rw [show 2 + taken + (readAlias (inner.drop taken)).2 =
      taken + (readAlias (inner.drop taken)).2 + 1 + 1 by omega]
    rw [List.take_succ_cons, List.take_succ_cons, List.take_add]
  rw [htokens, callTokens]
  simpa [Select.IsArg] using hall

/-- The arguments of a call are spelled with the tokens up to the closing parenthesis. -/
theorem spells_args {first : Bool} {args : List Node} (h : readArgs bound first tokens = .ok (args, count))
    (hfirst : token.kind = if first then .openParen else .comma) (htidy : isTidy (token :: tokens) = true) :
    Spells (tokens.take count) (argTokens args ++ [closeParen]) (Select.AreArgs args) ∧
      (first = false → args ≠ []) := by
  induction bound generalizing first tokens args count token with
  | zero => cases h
  | succ bound ih =>
    cases tokens with
    | nil => cases h
    | cons next rest =>
      rw [readArgs_succ] at h
      obtain ⟨⟨arg, taken⟩, harg, hafter⟩ := bind_eq_ok.mp h
      have hone : (∃ node, arg = [node] ∧
          Spells ((next :: rest).take taken) (callTokens node) (Select.IsArg node)) ∨
          (arg = [] ∧ taken = 0 ∧ (first = true ∨ next.kind = .closeParen)) := by
        rcases readArg_cases harg with ⟨node, hvalue, rfl, rfl⟩ |
          ⟨paren, inner, found, n, hfunc, rfl, hparen, hfound, rfl, rfl⟩ | ⟨-, -, hnext, rfl, rfl⟩
        · exact .inl ⟨node, rfl, spells_term hvalue⟩
        · have hinner := ih hfound hparen (isTidy_of_cons (isTidy_of_cons htidy))
          exact .inl ⟨_, rfl, .call hfunc hparen hinner.1⟩
        · exact .inr ⟨rfl, rfl, hnext⟩
      rcases readAfterArg_cases hafter with
        ⟨word, more, others, counted, hdrop, hothers, rfl, rfl⟩ | ⟨word, more, hdrop, rfl, rfl⟩
      · have hcomma : isTidy (⟨.comma, word⟩ :: more) = true :=
          hdrop ▸ isTidy_drop (isTidy_of_cons htidy) taken
        obtain ⟨hspells, hne⟩ := ih hothers rfl hcomma
        rcases hone with ⟨node, rfl, hnode⟩ | ⟨rfl, rfl, hnext⟩
        · have hsign : Spells [⟨.comma, word⟩] [comma] True := spells_sign rfl rfl
          have hall := hnode.append (hsign.append hspells)
          rw [Nat.add_assoc, List.take_add, hdrop, Nat.add_comm 1, List.take_succ_cons]
          refine ⟨?_, fun _ ↦ List.cons_ne_nil _ _⟩
          simpa [argTokens, Spelling.commaBefore, hne rfl, Select.AreArgs] using hall
        · -- Without an argument, the comma stands behind the opening parenthesis.
          obtain ⟨rfl, rfl⟩ := List.cons.inj hdrop
          rcases hnext with rfl | hnext
          · simp [isTidy, hfirst] at htidy
          · cases hnext
      · have hsign : Spells [⟨.closeParen, word⟩] [closeParen] True := spells_sign rfl rfl
        rw [List.take_add, hdrop, List.take_succ_cons, List.take_zero]
        rcases hone with ⟨node, rfl, hnode⟩ | ⟨rfl, rfl, hnext⟩
        · refine ⟨?_, fun _ ↦ List.cons_ne_nil _ _⟩
          simpa [argTokens, Spelling.commaBefore, Select.AreArgs] using hnode.append hsign
        · obtain ⟨rfl, rfl⟩ := List.cons.inj hdrop
          refine ⟨hsign.imp fun _ ↦ trivial, ?_⟩
          -- A comma in front of the closing parenthesis is not tidy.
          rintro rfl
          simp [isTidy, hfirst] at htidy

theorem spells_call (h : readCall tokens = .ok (node, count)) (htidy : isTidy tokens = true) :
    Spells (tokens.take count) (itemTokens node) (Select.IsItem node) := by
  obtain ⟨name, paren, inner, args, taken, rfl, hparen, hargs, rfl, rfl⟩ := readCall_eq_ok.mp h
  exact .call rfl hparen (spells_args hargs hparen (isTidy_of_cons htidy)).1

/-! ### Items -/

theorem spells_item (h : readSelectItem tokens = .ok (node, count)) (htidy : isTidy tokens = true) :
    Spells (tokens.take count) (itemTokens node) (Select.IsItem node) := by
  unfold readSelectItem at h
  split at h
  · exact spells_named h
  · exact spells_named h
  · exact spells_call h htidy
  · rename_i word rest
    cases h
    have hword : Spells [⟨.caseWord, word⟩] [⟨.caseWord, upper word⟩] True := spells_word rfl rfl (by simp)
    exact (hword.append (spells_branches rest)).imp And.right
  · cases h

/-- A list of items ends with an item, or with a comma and no token behind it. -/
theorem readList_selectItem_cases (h : readList selectItem comma? (bound + 1) tokens = .ok (items, count))
    (hne : tokens ≠ []) :
    ∃ item taken, readSelectItem tokens = .ok (item, taken) ∧
      ((items = [item] ∧ count = taken) ∨
        ∃ word more others counted, tokens.drop taken = ⟨.comma, word⟩ :: more ∧
          readList selectItem comma? bound more = .ok (others, counted) ∧ items = item :: others ∧
          count = taken + 1 + counted) := by
  rw [readList_of_ne hne] at h
  obtain ⟨found, hfound, h⟩ := bind_eq_ok.mp h
  obtain ⟨⟨item, taken⟩, hitem, rfl⟩ := map_eq_ok.mp hfound
  refine ⟨item, taken, hitem, ?_⟩
  split at h
  · cases h
    exact .inl ⟨rfl, rfl⟩
  · rename_i between more hcomma
    obtain ⟨rest, hrest, hpair⟩ := Option.map_eq_some_iff.mp hcomma
    cases hpair
    obtain ⟨word, hdrop⟩ := behindComma?_eq_some.mp hrest
    obtain ⟨⟨others, counted⟩, hothers, hfound⟩ := map_eq_ok.mp h
    cases hfound
    exact .inr ⟨word, more, others, counted, hdrop, hothers, rfl, rfl⟩

/-- If all tokens are taken and the last is no comma, the items are spelled with the tokens. -/
theorem spells_items (h : readSelectItems bound tokens = .ok (items, count)) (hbound : tokens.length ≤ bound)
    (hall : tokens.length ≤ count) (hlast : tokens.getLast?.all (·.kind ≠ .comma) = true)
    (htidy : isTidy tokens = true) :
    Spells tokens (separated itemTokens items) (∀ item ∈ items, Select.IsItem item) ∧
      (tokens ≠ [] → items ≠ []) := by
  rw [readSelectItems_eq_readList] at h
  induction bound generalizing tokens items count with
  | zero =>
    obtain rfl : tokens = [] := List.eq_nil_of_length_eq_zero (by omega)
    cases h
    exact ⟨spells_nil (by simp), fun hne ↦ absurd rfl hne⟩
  | succ bound ih =>
    by_cases hne : tokens = []
    · subst hne
      cases h
      exact ⟨spells_nil (by simp), fun hne ↦ absurd rfl hne⟩
    obtain ⟨item, taken, hitem, hcases⟩ := readList_selectItem_cases h hne
    have hspells := spells_item hitem htidy
    rcases hcases with ⟨rfl, rfl⟩ | ⟨word, more, others, counted, hdrop, hothers, rfl, rfl⟩
    · rw [List.take_of_length_le hall] at hspells
      refine ⟨?_, fun _ ↦ List.cons_ne_nil _ _⟩
      simpa [separated, Spelling.commaBefore] using hspells
    · have hsplit : tokens.take taken ++ ⟨.comma, word⟩ :: more = tokens := by
        rw [← hdrop, List.take_append_drop]
      have hlength := congrArg List.length hdrop
      rw [List.length_drop, List.length_cons] at hlength
      have hmore : more ≠ [] := by
        rintro rfl
        rw [← hsplit, List.getLast?_append, List.getLast?_singleton] at hlast
        cases hlast
      rw [← hsplit, getLast?_append_cons hmore] at hlast
      obtain ⟨hrest, hitems⟩ := ih hothers (by omega) (by omega) hlast
        (isTidy_of_cons (hdrop ▸ isTidy_drop htidy taken))
      have hsign : Spells [⟨.comma, word⟩] [comma] True := spells_sign rfl rfl
      have hgood := hspells.append (hsign.append hrest)
      refine ⟨?_, fun _ ↦ List.cons_ne_nil _ _⟩
      rw [List.singleton_append, hsplit] at hgood
      simpa [separated, Spelling.commaBefore, hitems hmore] using hgood

/-- The tokens of a SELECT clause that is read to its end are its keyword and those of its items. -/
theorem spells_of_parse {keyword : Token} {rest : List Token} {word : String}
    (hkeyword : keyword.kind = .selectWord) (h : parse (keyword :: rest) = .ok [.selectClause word items])
    (hlast : rest.getLast?.all (·.kind ≠ .comma) = true) (htidy : isTidy rest = true) :
    word = keyword.text ∧ Spells rest (separated itemTokens items) (∀ item ∈ items, Select.IsItem item) := by
  rw [parse_cons] at h
  obtain ⟨⟨node, count⟩, hstatement, h⟩ := bind_eq_ok.mp h
  obtain ⟨nodes, hnodes, hcons⟩ := map_eq_ok.mp h
  cases hcons
  have hread : readSelect (keyword :: rest) = .ok (.selectClause word items, count) := by
    simpa only [readStatement, hkeyword] using hstatement
  obtain ⟨⟨found, taken⟩, hfound, hclause⟩ := bind_eq_ok.mp hread
  cases hclause
  have hdone := List.drop_eq_nil_iff.mp (parse_eq_nil hnodes)
  rw [List.length_cons] at hdone
  exact ⟨rfl, (spells_items hfound (Nat.le_refl _) (by omega) hlast htidy).1⟩

end SqlLayout
