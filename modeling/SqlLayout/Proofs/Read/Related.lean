import Mathlib.Data.List.Forall2
import SqlLayout.Proofs.Read.Completed

/-!
# Reading related tokens

Readers go by the kinds of tokens and copy their texts.  Tokens of the same kinds are read as trees of
the same shape, and a relation that the texts of the tokens have is a relation of the texts of the
trees; or the readers fail in the same way.
-/

namespace SqlLayout

/-- A fault without the text that it quotes. -/
def Fault.bare : Fault → Fault
  | .unclosedQuote _ => .unclosedQuote ""
  | .invalidLimit _ => .invalidLimit []
  | .invalidName _ => .invalidName []
  | fault => fault

theorem Fault.bare_invalidName (tokens others : List Token) :
    (invalidName tokens).bare = (invalidName others).bare := rfl

abbrev TextRelation := Kind → String → String → Prop

inductive Token.Related (R : TextRelation) : Token → Token → Prop
  | mk {kind : Kind} {text other : String} :
      R kind text other → Token.Related R ⟨kind, text⟩ ⟨kind, other⟩

inductive RelatedValue (R : TextRelation) : String → String → Prop
  | mk {kind : Kind} {text other : String} :
      kind.isValue = true → R kind text other → RelatedValue R text other

def RelatedSort (R : TextRelation) (text other : String) : Prop :=
  R .ascWord text other ∨ R .descWord text other

inductive Term.Related (R : TextRelation) : Term → Term → Prop
  | mk {kind : TermKind} {text other : String}
      {aliasName aliasOther asWord asOther sort sortOther : Option String} :
      R kind.tokenKind text other → Option.Rel (RelatedValue R) aliasName aliasOther →
      Option.Rel (R .asWord) asWord asOther → Option.Rel (RelatedSort R) sort sortOther →
      Term.Related R ⟨kind, text, aliasName, asWord, sort⟩
        ⟨kind, other, aliasOther, asOther, sortOther⟩

inductive Term.RelatedNumber (R : TextRelation) : Term → Term → Prop
  | mk {text other : String} :
      R .number text other →
      RelatedNumber R ⟨.number, text, none, none, none⟩ ⟨.number, other, none, none, none⟩

/-- Trees of the same shape with related texts.  The operator of a membership test may be any token.
Nodes that no completed reading holds are not compared. -/
inductive Node.Related (R : TextRelation) : Node → Node → Prop
  | term {t u : Term} : t.Related R u → Related R (.term t) (.term u)
  | call {name other : String} {args others : List Node}
      {asWord asOther aliasName aliasOther : Option String} :
      R .func name other → List.Forall₂ (Related R) args others →
      Option.Rel (R .asWord) asWord asOther → Option.Rel (RelatedValue R) aliasName aliasOther →
      Related R (.call name args asWord aliasName) (.call other others asOther aliasOther)
  | caseOf {word other : String} {branches others : List Node} :
      R .caseWord word other → List.Forall₂ (Related R) branches others →
      Related R (.caseOf word branches) (.caseOf other others)
  | whenThen {whenWord whenOther tested testedOther thenWord thenOther result resultOther : String} :
      R .whenWord whenWord whenOther → RelatedValue R tested testedOther →
      R .thenWord thenWord thenOther → RelatedValue R result resultOther →
      Related R (.whenThen whenWord tested thenWord result)
        (.whenThen whenOther testedOther thenOther resultOther)
  | otherwise {elseWord elseOther result resultOther : String} :
      R .elseWord elseWord elseOther → RelatedValue R result resultOther →
      Related R (.otherwise elseWord result) (.otherwise elseOther resultOther)
  | semicolon : Related R (.semicolon ";") (.semicolon ";")
  | is {word other : String} : R .isWord word other → Related R (.is word) (.is other)
  | null {word other : String} : R .nullWord word other → Related R (.null word) (.null other)
  | join {word other : String} : R .join word other → Related R (.join word) (.join other)
  | link {word other : String} : R .link word other → Related R (.link word) (.link other)
  | not {word other : String} : R .notWord word other → Related R (.not word) (.not other)
  | between {word other : String} :
      R .betweenWord word other → Related R (.between word) (.between other)
  | operator {word other : String} :
      R .compare word other → Related R (.operator word) (.operator other)
  | condition {parts others : List Node} :
      List.Forall₂ (Related R) parts others → Related R (.condition parts) (.condition others)
  | membership {left leftOther found foundOther : Node} {op opOther : String} {kind : Kind} :
      Related R left leftOther → R kind op opOther → found.isOperand = false →
      Related R found foundOther →
      Related R (.condition [left, .operator op, found])
        (.condition [leftOther, .operator opOther, foundOther])
  | group {items others : List Node} :
      List.Forall₂ (Related R) items others → Related R (.group items) (.group others)
  | onClause {word other : String} {parts others : List Node} :
      R .onWord word other → List.Forall₂ (Related R) parts others →
      Related R (.onClause word parts) (.onClause other others)
  | selectClause {word other : String} {items others : List Node} :
      R .selectWord word other → List.Forall₂ (Related R) items others →
      Related R (.selectClause word items) (.selectClause other others)
  | fromClause {word other : String} {parts others : List Node} :
      R .fromWord word other → List.Forall₂ (Related R) parts others →
      Related R (.fromClause word parts) (.fromClause other others)
  | whereClause {word other : String} {conditions others : List Node} :
      R .whereWord word other → List.Forall₂ (Related R) conditions others →
      Related R (.whereClause word conditions) (.whereClause other others)
  | groupByClause {items others : List Node} {rollup rollupOther : Option String} :
      List.Forall₂ (Related R) items others → Option.Rel (R .rollupWord) rollup rollupOther →
      Related R (.groupByClause items rollup) (.groupByClause others rollupOther)
  | havingClause {word other : String} {conditions others : List Node} :
      R .havingWord word other → List.Forall₂ (Related R) conditions others →
      Related R (.havingClause word conditions) (.havingClause other others)
  | orderByClause {items others : List Node} :
      List.Forall₂ (Related R) items others →
      Related R (.orderByClause items) (.orderByClause others)
  | limitClause {count countOther : Term} {offset offsetOther : Option Term}
      {offsetWord wordOther : Option String} :
      count.RelatedNumber R countOther → Option.Rel (Term.RelatedNumber R) offset offsetOther →
      Option.Rel (R .identifier) offsetWord wordOther →
      Related R (.limitClause count offset offsetWord)
        (.limitClause countOther offsetOther wordOther)
  | insertClause {word other table tableOther : String} {columns columnsOther : List Node}
      {query queryOther : List Node} :
      R .insertWord word other → R .identifier table tableOther →
      List.Forall₂ (Related R) columns columnsOther → List.Forall₂ (Related R) query queryOther →
      Related R (.insertClause word table none columns query)
        (.insertClause other tableOther none columnsOther queryOther)
  | abandoned {node other : Node} :
      node.isAbandoned = true → other.isAbandoned = true → Related R node other

namespace Read

open Text Node Token

/-- Both outcomes are results that are the same in some sense, or both are the same fault, whatever it
quotes. -/
inductive Agree {α : Type} (same : α → α → Prop) : Except Fault α → Except Fault α → Prop
  | ok {a b : α} : same a b → Agree same (.ok a) (.ok b)
  | error {a b : Fault} : a.bare = b.bare → Agree same (.error a) (.error b)

section Outcomes

variable {α β : Type} {same : α → α → Prop} {sameNext : β → β → Prop}
  {first second : Except Fault α}

theorem Agree.bind {f g : α → Except Fault β} (h : Agree same first second)
    (hnext : ∀ a b, same a b → Agree sameNext (f a) (g b)) :
    Agree sameNext (first >>= f) (second >>= g) := by
  cases h with
  | ok hsame => exact hnext _ _ hsame
  | error hbare => exact .error hbare

theorem Agree.map {f g : α → β} (h : Agree same first second)
    (hnext : ∀ a b, same a b → sameNext (f a) (g b)) :
    Agree sameNext (first.map f) (second.map g) := by
  cases h with
  | ok hsame => exact .ok (hnext _ _ hsame)
  | error hbare => exact .error hbare

/-- What agrees may be used together with what it is a result of. -/
theorem Agree.with_eq (h : Agree same first second) :
    Agree (fun a b ↦ same a b ∧ first = .ok a ∧ second = .ok b) first second := by
  cases h with
  | ok hsame => exact .ok ⟨hsame, rfl, rfl⟩
  | error hbare => exact .error hbare

theorem Agree.exists_ok {a : α} (h : Agree same first second) (hfirst : first = .ok a) :
    ∃ b, second = .ok b ∧ same a b := by
  subst hfirst
  cases h with
  | ok hsame => exact ⟨_, rfl, hsame⟩

theorem Agree.imp {other : α → α → Prop} (h : Agree same first second)
    (himp : ∀ a b, same a b → other a b) : Agree other first second := by
  cases h with
  | ok hsame => exact .ok (himp _ _ hsame)
  | error hbare => exact .error hbare

inductive Counted (same : α → α → Prop) : α × Nat → α × Nat → Prop
  | mk {a b : α} {count : Nat} : same a b → Counted same (a, count) (b, count)

end Outcomes

abbrev RelatedTokens (R : TextRelation) : List Token → List Token → Prop :=
  List.Forall₂ (Token.Related R)

abbrev RelatedNodes (R : TextRelation) : List Node → List Node → Prop :=
  List.Forall₂ (Node.Related R)

variable {R : TextRelation} {tokens others : List Token} {bound : Nat}

/-! ### Values and calls -/

theorem value?_related {token other : Token} (h : token.Related R other) :
    Option.Rel (Node.Related R) (value? token) (value? other) := by
  obtain @⟨kind, text, word, htext⟩ := h
  cases kind with
  | identifier | number | str => exact .some (.term (.mk htext .none .none .none))
  | _ => exact .none

theorem aliasName?_related (h : RelatedTokens R tokens others) :
    Option.Rel (RelatedValue R) (aliasName? tokens) (aliasName? others) := by
  cases h with
  | nil => exact .none
  | cons htoken _ =>
    obtain @⟨kind, text, word, htext⟩ := htoken
    simp only [aliasName?]
    split
    · rename_i hvalue
      exact .some (.mk hvalue htext)
    · exact .none

inductive Alias.Related (R : TextRelation) : Alias → Alias → Prop
  | mk {asWord asOther name other : Option String} :
      Option.Rel (R .asWord) asWord asOther → Option.Rel (RelatedValue R) name other →
      Alias.Related R ⟨asWord, name⟩ ⟨asOther, other⟩

theorem readAlias_related (h : RelatedTokens R tokens others) :
    Counted (Alias.Related R) (readAlias tokens) (readAlias others) := by
  cases h with
  | nil => exact .mk (.mk .none .none)
  | @cons token other rest more htoken hrest =>
    obtain @⟨kind, text, word, htext⟩ := htoken
    by_cases hkind : kind = .asWord
    · subst hkind
      have hname := aliasName?_related hrest
      simp only [readAlias]
      generalize aliasName? rest = name at hname
      generalize aliasName? more = nameOther at hname
      cases hname with
      | none => exact .mk (.mk (.some htext) .none)
      | some hname => exact .mk (.mk (.some htext) (.some hname))
    · have hname := aliasName?_related (.cons (.mk htext) hrest)
      rw [readAlias_of_ne hkind, readAlias_of_ne hkind]
      generalize aliasName? (⟨kind, text⟩ :: rest) = name at hname
      generalize aliasName? (⟨kind, word⟩ :: more) = nameOther at hname
      cases hname with
      | none => exact .mk (.mk .none .none)
      | some hname => exact .mk (.mk .none (.some hname))

theorem readNamed_related (h : RelatedTokens R tokens others) :
    Agree (Counted (Node.Related R)) (readNamed tokens) (readNamed others) := by
  cases h with
  | nil => exact .error rfl
  | @cons token other rest more htoken hrest =>
    obtain @⟨kind, text, word, htext⟩ := htoken
    have halias := readAlias_related hrest
    cases kind with
    | identifier | number =>
      simp only [readNamed]
      generalize readAlias rest = found at halias
      generalize readAlias more = foundOther at halias
      obtain ⟨⟨has, hname⟩⟩ := halias
      exact .ok (.mk (.term (.mk htext hname has .none)))
    | str => exact .error rfl
    | _ => exact .error (Fault.bare_invalidName _ _)

theorem Counted.single {first second : Node × Nat} (h : Counted (Node.Related R) first second) :
    Counted (RelatedNodes R) (single first) (single second) := by
  obtain ⟨hnode⟩ := h
  exact .mk (.cons hnode .nil)

theorem related_call {name other : String} {args argsOther : List Node} (hname : R .func name other)
    (hargs : RelatedNodes R args argsOther) (count : Nat) (h : RelatedTokens R tokens others) :
    Counted (Node.Related R)
      (.call name args (readAlias tokens).1.asWord (readAlias tokens).1.name,
        count + (readAlias tokens).2)
      (.call other argsOther (readAlias others).1.asWord (readAlias others).1.name,
        count + (readAlias others).2) := by
  have halias := readAlias_related h
  generalize readAlias tokens = found at halias
  generalize readAlias others = foundOther at halias
  obtain ⟨⟨has, halias⟩⟩ := halias
  exact .mk (.call hname hargs has halias)

theorem readAfterArg_related
    (hargs : ∀ {first tokens others}, RelatedTokens R tokens others →
      Agree (Counted (RelatedNodes R)) (readArgs bound first tokens) (readArgs bound first others))
    {arg argOther : List Node} (harg : RelatedNodes R arg argOther) (count : Nat)
    (h : RelatedTokens R tokens others) :
    Agree (Counted (RelatedNodes R)) (readAfterArg bound arg count tokens)
      (readAfterArg bound argOther count others) := by
  cases h with
  | nil => exact .error rfl
  | cons htoken hmore =>
    obtain @⟨kind, text, word, htext⟩ := htoken
    cases kind with
    | comma =>
      apply (hargs hmore).bind
      rintro _ _ ⟨hsame⟩
      exact .ok (.mk (List.rel_append harg hsame))
    | closeParen => exact .ok (.mk harg)
    | _ => exact .error rfl

theorem readArgs_related {first : Bool} (h : RelatedTokens R tokens others) :
    Agree (Counted (RelatedNodes R)) (readArgs bound first tokens) (readArgs bound first others) := by
  induction bound generalizing first tokens others with
  | zero => exact .error rfl
  | succ bound ih =>
    cases h with
    | nil => exact .error rfl
    | @cons token other rest more htoken hrest =>
      have harg : Agree (Counted (RelatedNodes R)) (readArg bound first token rest)
          (readArg bound first other more) := by
        have hvalue := value?_related htoken
        unfold readArg
        generalize value? token = value at hvalue
        generalize value? other = valueOther at hvalue
        cases hvalue with
        | some hnode => exact .ok (.mk (.cons hnode .nil))
        | none =>
          obtain @⟨kind, text, word, htext⟩ := htoken
          dsimp only
          split
          · rename_i hfunc
            subst hfunc
            cases hrest with
            | nil => exact .error rfl
            | cons hparen hinner =>
              obtain @⟨kind, paren, parenOther, -⟩ := hparen
              dsimp only
              split
              · apply (ih hinner).map
                rintro _ _ ⟨hargs⟩
                exact (related_call htext hargs _ (List.forall₂_drop _ hinner)).single
              · exact .error rfl
          · split
            · exact .error rfl
            · exact .ok (.mk .nil)
      rw [readArgs_succ, readArgs_succ]
      apply harg.bind
      rintro _ _ ⟨hsame⟩
      exact readAfterArg_related ih hsame _ (List.forall₂_drop _ (.cons htoken hrest))

theorem readCall_related (h : RelatedTokens R tokens others) :
    Agree (Counted (Node.Related R)) (readCall tokens) (readCall others) := by
  cases h with
  | nil => exact .error rfl
  | cons htoken hrest =>
    obtain @⟨kind, text, word, htext⟩ := htoken
    simp only [readCall]
    split
    · rename_i hfunc
      subst hfunc
      cases hrest with
      | nil => exact .error rfl
      | cons hparen hinner =>
        obtain @⟨kind, paren, parenOther, -⟩ := hparen
        dsimp only
        split
        · rw [hinner.length_eq]
          apply (readArgs_related hinner).bind
          rintro _ _ ⟨hargs⟩
          exact .ok (related_call htext hargs _ (List.forall₂_drop _ hinner))
        · exact .error rfl
    · exact .error rfl

/-! ### Lists of items -/

/-- A separator is found in both lists of tokens or in neither, and what is found is related. -/
def SeparatesAlike (R : TextRelation)
    (separator : List Token → Option (List Node × List Token)) : Prop :=
  ∀ {tokens others}, RelatedTokens R tokens others →
    Option.Rel (fun first second ↦ RelatedNodes R first.1 second.1 ∧ RelatedTokens R first.2 second.2)
      (separator tokens) (separator others)

theorem comma?_related : SeparatesAlike R comma? := by
  intro tokens others h
  cases h with
  | nil => exact .none
  | cons htoken hrest =>
    obtain @⟨kind, text, word, htext⟩ := htoken
    cases kind with
    | comma => exact .some ⟨.nil, hrest⟩
    | _ => exact .none

theorem link?_related : SeparatesAlike R link? := by
  intro tokens others h
  cases h with
  | nil => exact .none
  | cons htoken hrest =>
    obtain @⟨kind, text, word, htext⟩ := htoken
    cases kind with
    | link => exact .some ⟨.cons (.link htext) .nil, hrest⟩
    | _ => exact .none

theorem readList_related {item : List Token → Except Fault (List Node × Nat)}
    {separator : List Token → Option (List Node × List Token)}
    (hitem : ∀ {tokens others}, RelatedTokens R tokens others →
      Agree (Counted (RelatedNodes R)) (item tokens) (item others))
    (hseparator : SeparatesAlike R separator) (bound : Nat) (h : RelatedTokens R tokens others) :
    Agree (Counted (RelatedNodes R)) (readList item separator bound tokens)
      (readList item separator bound others) := by
  induction bound generalizing tokens others with
  | zero => exact .ok (.mk .nil)
  | succ bound ih =>
    cases h with
    | nil => exact .ok (.mk .nil)
    | @cons token other rest more htoken hrest =>
      have h : RelatedTokens R (token :: rest) (other :: more) := .cons htoken hrest
      apply (hitem h).bind
      rintro _ _ @⟨nodes, nodesOther, count, hnodes⟩
      have hfound := hseparator (List.forall₂_drop count h)
      dsimp only
      generalize separator ((token :: rest).drop count) = found at hfound
      generalize separator ((other :: more).drop count) = foundOther at hfound
      cases hfound with
      | none => exact .ok (.mk hnodes)
      | some hboth =>
        apply (ih hboth.2).map
        rintro _ _ ⟨hmore⟩
        exact .mk (List.rel_append (List.rel_append hnodes hboth.1) hmore)

theorem agree_single {first second : Except Fault (Node × Nat)}
    (h : Agree (Counted (Node.Related R)) first second) :
    Agree (Counted (RelatedNodes R)) (first.map single) (second.map single) :=
  h.map fun _ _ ↦ Counted.single

theorem fits_related (places : List (Kind → Bool)) (h : RelatedTokens R tokens others) :
    fits places tokens = fits places others := by
  induction places generalizing tokens others with
  | nil => rfl
  | cons place places ih =>
    cases h with
    | nil => rfl
    | cons htoken hrest =>
      obtain ⟨-⟩ := htoken
      simp only [fits, ih hrest]

/-- The texts at a place where all tokens have kinds that the place allows are related as texts of such a
kind. -/
theorem textAt_related (h : RelatedTokens R tokens others) {places : List (Kind → Bool)}
    (hfits : fits places tokens = true) {place : Kind → Bool} {n : Nat}
    (hplace : places[n]? = some place) :
    ∃ kind, place kind = true ∧ R kind (textAt tokens n) (textAt others n) := by
  induction places generalizing tokens others n with
  | nil => cases hplace
  | cons first places ih =>
    cases h with
    | nil => cases hfits
    | cons htoken hrest =>
      obtain @⟨kind, text, word, htext⟩ := htoken
      rw [fits, Bool.and_eq_true] at hfits
      cases n with
      | zero =>
        cases hplace
        exact ⟨kind, hfits.1, htext⟩
      | succ n => exact ih hrest hfits.2 hplace

theorem textAt_related_of_eq (h : RelatedTokens R tokens others) {places : List (Kind → Bool)}
    (hfits : fits places tokens = true) {kind : Kind} {n : Nat}
    (hplace : places[n]? = some fun found ↦ decide (found = kind)) : R kind (textAt tokens n) (textAt others n) := by
  obtain ⟨found, hfound, htext⟩ := textAt_related h hfits hplace
  rwa [of_decide_eq_true hfound] at htext

theorem textAt_related_of_isValue (h : RelatedTokens R tokens others) {places : List (Kind → Bool)}
    (hfits : fits places tokens = true) {n : Nat} (hplace : places[n]? = some Kind.isValue) :
    RelatedValue R (textAt tokens n) (textAt others n) := by
  obtain ⟨kind, hvalue, htext⟩ := textAt_related h hfits hplace
  exact .mk hvalue htext

theorem readBranches_related {tokens others : List Token} (h : RelatedTokens R tokens others) :
    Counted (RelatedNodes R) (readBranches tokens) (readBranches others) := by
  rw [readBranches_eq, readBranches_eq others, ← fits_related _ h, ← fits_related _ h]
  split
  · next hfits =>
    have hlength : 4 ≤ tokens.length := length_le_of_fits hfits
    have hmore := readBranches_related (List.forall₂_drop 4 h)
    have hbranch : Node.Related R
        (.whenThen (textAt tokens 0) (textAt tokens 1) (textAt tokens 2) (textAt tokens 3))
        (.whenThen (textAt others 0) (textAt others 1) (textAt others 2) (textAt others 3)) :=
      .whenThen (textAt_related_of_eq h hfits rfl) (textAt_related_of_isValue h hfits rfl)
        (textAt_related_of_eq h hfits rfl) (textAt_related_of_isValue h hfits rfl)
    generalize readBranches (tokens.drop 4) = found at hmore
    generalize readBranches (others.drop 4) = foundOther at hmore
    obtain ⟨hmore⟩ := hmore
    exact .mk (.cons hbranch hmore)
  · split
    · next hfits =>
      have hlength : 2 ≤ tokens.length := length_le_of_fits hfits
      have hmore := readBranches_related (List.forall₂_drop 2 h)
      have hbranch : Node.Related R (.otherwise (textAt tokens 0) (textAt tokens 1))
          (.otherwise (textAt others 0) (textAt others 1)) :=
        .otherwise (textAt_related_of_eq h hfits rfl) (textAt_related_of_isValue h hfits rfl)
      generalize readBranches (tokens.drop 2) = found at hmore
      generalize readBranches (others.drop 2) = foundOther at hmore
      obtain ⟨hmore⟩ := hmore
      exact .mk (.cons hbranch hmore)
    · exact .mk .nil
  termination_by tokens.length

theorem readSelectItem_related (h : RelatedTokens R tokens others) :
    Agree (Counted (Node.Related R)) (readSelectItem tokens) (readSelectItem others) := by
  have hnamed := readNamed_related h
  have hcall := readCall_related h
  cases h with
  | nil => exact .error rfl
  | @cons token other rest more htoken hrest =>
    obtain @⟨kind, text, word, htext⟩ := htoken
    cases kind with
    | identifier | number => exact hnamed
    | func => exact hcall
    | caseWord =>
      have hbranches := readBranches_related hrest
      simp only [readSelectItem, readCase]
      generalize readBranches rest = found at hbranches
      generalize readBranches more = foundOther at hbranches
      obtain ⟨hbranches⟩ := hbranches
      exact .ok (.mk (.caseOf htext hbranches))
    | _ => exact .error rfl

theorem selectItem_related {tokens others : List Token} (h : RelatedTokens R tokens others) :
    Agree (Counted (RelatedNodes R)) (selectItem tokens) (selectItem others) :=
  agree_single (readSelectItem_related h)

theorem readSelect_related {text word : String} (htext : R .selectWord text word)
    (h : RelatedTokens R tokens others) :
    Agree (Counted (Node.Related R)) (readSelect (⟨.selectWord, text⟩ :: tokens))
      (readSelect (⟨.selectWord, word⟩ :: others)) := by
  simp only [readSelect, readSelectItems_eq_readList, h.length_eq]
  apply (readList_related selectItem_related comma?_related _ h).bind
  rintro _ _ ⟨hitems⟩
  exact .ok (.mk (.selectClause htext hitems))

theorem related_column {kind : Kind} {term : TermKind} (hkind : columnKind? kind = some term)
    {text word : String} (htext : R kind text word) {sort sortOther : Option String}
    (hsort : Option.Rel (RelatedSort R) sort sortOther) :
    Node.Related R (.term ⟨term, text, none, none, sort⟩) (.term ⟨term, word, none, none, sortOther⟩) := by
  cases kind with
  | identifier | number =>
    cases hkind
    exact .term (.mk htext .none .none hsort)
  | _ => cases hkind

theorem groupItem_related {tokens others : List Token} (h : RelatedTokens R tokens others) :
    Agree (Counted (RelatedNodes R)) (groupItem tokens) (groupItem others) := by
  cases h with
  | nil => exact .error rfl
  | cons htoken hrest =>
    obtain @⟨kind, text, word, htext⟩ := htoken
    simp only [groupItem]
    cases hkind : columnKind? kind with
    | none => exact .error rfl
    | some term => exact .ok (.mk (.cons (related_column hkind htext .none) .nil))

theorem readGroupBy_related (h : RelatedTokens R tokens others) :
    Agree (Counted (Node.Related R)) (readGroupBy tokens) (readGroupBy others) := by
  have hlength (tokens : List Token) : (tokens.drop 1).length ≤ tokens.length := by
    rw [List.length_drop]
    omega
  have hitems := readList_related groupItem_related comma?_related tokens.length
    (List.forall₂_drop 1 h)
  unfold readGroupBy
  rw [readGroupItems_eq_readList (hlength tokens), readGroupItems_eq_readList (hlength others),
    ← h.length_eq]
  apply hitems.bind
  rintro _ _ @⟨items, itemsOther, count, hitems⟩
  have hmore := List.forall₂_drop (count + 1) h
  dsimp only
  generalize tokens.drop (count + 1) = more at hmore
  generalize others.drop (count + 1) = moreOther at hmore
  cases hmore with
  | nil => exact .ok (.mk (.groupByClause hitems .none))
  | cons htoken _ =>
    obtain @⟨kind, text, word, htext⟩ := htoken
    cases kind with
    | rollupWord => exact .ok (.mk (.groupByClause hitems (.some htext)))
    | _ => exact .ok (.mk (.groupByClause hitems .none))

theorem sortWord?_related (h : RelatedTokens R tokens others) :
    Option.Rel (RelatedSort R) (sortWord? tokens) (sortWord? others) := by
  cases h with
  | nil => exact .none
  | cons htoken _ =>
    obtain @⟨kind, text, word, htext⟩ := htoken
    cases kind with
    | ascWord => exact .some (.inl htext)
    | descWord => exact .some (.inr htext)
    | _ => exact .none

theorem orderItem_related {tokens others : List Token} (h : RelatedTokens R tokens others) :
    Agree (Counted (RelatedNodes R)) (orderItem tokens) (orderItem others) := by
  cases h with
  | nil => exact .error rfl
  | @cons token other rest more htoken hrest =>
    obtain @⟨kind, text, word, htext⟩ := htoken
    simp only [orderItem]
    cases hkind : columnKind? kind with
    | none => exact .error rfl
    | some term =>
      have hsort := sortWord?_related hrest
      dsimp only
      generalize sortWord? rest = sort at hsort
      generalize sortWord? more = sortOther at hsort
      have hcount : sort.isSome = sortOther.isSome := by cases hsort <;> rfl
      rw [hcount]
      exact .ok (.mk (.cons (related_column hkind htext hsort) .nil))

theorem readOrderBy_related (h : RelatedTokens R tokens others) :
    Agree (Counted (Node.Related R)) (readOrderBy tokens) (readOrderBy others) := by
  unfold readOrderBy
  rw [readOrderItems_eq_readList, readOrderItems_eq_readList, h.length_eq]
  apply (readList_related orderItem_related comma?_related _ (List.forall₂_drop 1 h)).bind
  rintro _ _ ⟨hitems⟩
  exact .ok (.mk (.orderByClause hitems))

theorem numberAt_related (h : RelatedTokens R tokens others) {places : List (Kind → Bool)}
    (hfits : fits places tokens = true) {n : Nat}
    (hplace : places[n]? = some fun found ↦ decide (found = .number)) :
    (numberAt tokens n).RelatedNumber R (numberAt others n) :=
  .mk (textAt_related_of_eq h hfits hplace)

theorem readPlainLimit_related (h : RelatedTokens R tokens others) :
    Agree (Counted (Node.Related R)) (readPlainLimit tokens) (readPlainLimit others) := by
  rw [readPlainLimit_eq, readPlainLimit_eq, ← fits_related _ h]
  split
  · next hfits => exact .ok (.mk (.limitClause (numberAt_related h hfits rfl) .none .none))
  · exact .error rfl

/-- Whether a name is the word in front of an offset does not change from a name to a related one. -/
def KeepsOffset (R : TextRelation) : Prop :=
  ∀ {text other}, R .identifier text other → (upper text = "OFFSET" ↔ upper other = "OFFSET")

theorem readLimit_related (hoffset : KeepsOffset R) (h : RelatedTokens R tokens others) :
    Agree (Counted (Node.Related R)) (readLimit tokens) (readLimit others) := by
  rw [readLimit_eq, readLimit_eq]
  simp only [← fits_related _ h]
  split
  · next hfits =>
    exact .ok (.mk (.limitClause (numberAt_related h hfits rfl)
      (.some (numberAt_related h hfits rfl)) .none))
  · by_cases hfits : fits [(· = .limitWord), (· = .number), (· = .identifier), (· = .number)] tokens
    · have hword : R .identifier (textAt tokens 2) (textAt others 2) :=
        textAt_related_of_eq h hfits rfl
      simp only [hfits, true_and, hoffset hword]
      split
      · exact .ok (.mk (.limitClause (numberAt_related h hfits rfl)
          (.some (numberAt_related h hfits rfl)) (.some hword)))
      · exact readPlainLimit_related h
    · rw [if_neg (hfits ·.1), if_neg (hfits ·.1)]
      exact readPlainLimit_related h

/-! ### Conditions on plain values -/

end Read

def Kind.isPart : Kind → Bool
  | .notWord | .compare | .betweenWord | .link | .isWord | .nullWord => true
  | kind => kind.isValue

theorem Kind.isPart_of_isValue {kind : Kind} (h : kind.isValue = true) : kind.isPart = true := by
  cases kind <;> first | rfl | exact h

namespace Read

open Text Node Token

variable {R : TextRelation} {tokens others : List Token} {bound : Nat}

theorem part_related {token other : Token} (h : token.Related R other)
    (hpart : token.kind.isPart = true) : Node.Related R (part token) (part other) := by
  obtain @⟨kind, text, word, htext⟩ := h
  cases kind with
  | notWord => exact .not htext
  | compare => exact .operator htext
  | betweenWord => exact .between htext
  | link => exact .link htext
  | isWord => exact .is htext
  | nullWord => exact .null htext
  | identifier | number | str => exact .term (.mk htext .none .none .none)
  | _ => cases hpart

theorem parts_related (h : RelatedTokens R tokens others) {places : List (Kind → Bool)}
    (hfits : fits places tokens = true) (n : Nat)
    (hplaces : ∀ place ∈ places.take n, ∀ kind, place kind = true → kind.isPart = true)
    (hn : n ≤ places.length) :
    RelatedNodes R ((tokens.take n).map part) ((others.take n).map part) := by
  induction n generalizing tokens others places with
  | zero => exact .nil
  | succ n ih =>
    cases places with
    | nil => cases hn
    | cons place places =>
      cases h with
      | nil => cases hfits
      | cons htoken hrest =>
        rw [fits, Bool.and_eq_true] at hfits
        rw [List.take_succ_cons, List.forall_mem_cons] at hplaces
        exact .cons (part_related htoken (hplaces.1 _ hfits.1))
          (ih hrest hfits.2 hplaces.2 (Nat.le_of_succ_le_succ hn))

theorem plainCondition?_related (h : RelatedTokens R tokens others) {places : List (Kind → Bool)}
    (hplaces : ∀ place ∈ places, ∀ kind, place kind = true → kind.isPart = true) :
    Option.Rel (Counted (Node.Related R)) (plainCondition? places tokens)
      (plainCondition? places others) := by
  unfold plainCondition?
  rw [← fits_related _ h]
  split
  · next hfits =>
    refine .some (.mk (.condition (parts_related h hfits _ ?_ (Nat.le_refl _))))
    rwa [List.take_length]
  · exact .none

theorem findSome?_related {α β : Type} {same : β → β → Prop} {f g : α → Option β} {forms : List α}
    (h : ∀ form ∈ forms, Option.Rel same (f form) (g form)) :
    Option.Rel same (forms.findSome? f) (forms.findSome? g) := by
  induction forms with
  | nil => exact .none
  | cons form forms ih =>
    rw [List.forall_mem_cons] at h
    rw [List.findSome?_cons, List.findSome?_cons]
    have hform := h.1
    generalize f form = first at hform
    generalize g form = second at hform
    cases hform with
    | some hsame => exact .some hsame
    | none => exact ih h.2

theorem simpleCondition?_related (h : RelatedTokens R tokens others) :
    Option.Rel (Counted (Node.Related R)) (simpleCondition? tokens) (simpleCondition? others) := by
  have hforms : ∀ places ∈ conditionForms, ∀ place ∈ places, ∀ kind : Kind,
      place kind = true → kind.isPart = true := by
    have hvalue : ∀ kind : Kind, kind.isValue = true → kind.isPart = true :=
      fun _ ↦ Kind.isPart_of_isValue
    simp only [conditionForms, List.forall_mem_cons, List.not_mem_nil, false_imp_iff, implies_true,
      and_true, decide_eq_true_eq, forall_eq]
    exact ⟨⟨rfl, hvalue, rfl, hvalue⟩, ⟨hvalue, rfl, hvalue, rfl, hvalue⟩, ⟨hvalue, rfl, hvalue⟩,
      ⟨hvalue, rfl, rfl⟩, hvalue, rfl, rfl, rfl⟩
  rw [simpleCondition?_eq, simpleCondition?_eq]
  exact findSome?_related fun places hplaces ↦ plainCondition?_related h (hforms places hplaces)

/-! ### Membership tests and negated calls -/

theorem readOperand_related {token other : Token} (h : token.Related R other) :
    Agree (Node.Related R) (readOperand token) (readOperand other) := by
  have hvalue := value?_related h
  unfold readOperand
  generalize value? token = value at hvalue
  generalize value? other = valueOther at hvalue
  cases hvalue with
  | some hnode => exact .ok hnode
  | none =>
    obtain @⟨kind, text, word, htext⟩ := h
    dsimp only
    split
    · next hnot =>
      subst hnot
      exact .ok (.not htext)
    · exact .error rfl

theorem readNegatedCall_related (word other : String) (h : RelatedTokens R tokens others) :
    Agree (Counted (Node.Related R)) (readNegatedCall word tokens) (readNegatedCall other others) := by
  apply (readCall_related h).with_eq.bind
  rintro _ _ ⟨@⟨call, callOther, count, -⟩, hcall, hcallOther⟩
  have hmore := List.forall₂_drop count h
  dsimp only
  generalize tokens.drop count = more at hmore
  generalize others.drop count = moreOther at hmore
  cases hmore with
  | nil => exact .error rfl
  | cons hop hmore =>
    cases hmore with
    | nil => exact .error rfl
    | cons hright _ =>
      apply (readOperand_related hright).bind
      intro operand operandOther _
      have habandoned : ∀ {call : Node} {word op : String} {right : Node}, call.isCall = true →
          (Node.condition [.not word, call, .operator op, right]).isAbandoned = true := by
        intro call word op right h
        cases call <;> first | rfl | cases h
      exact .ok (.mk (.abandoned (habandoned (readCall_wellBuilt hcall).1)
        (habandoned (readCall_wellBuilt hcallOther).1)))

structure Statements.Related (R : TextRelation) (first second : Statements) : Prop where
  read : List.Forall₂ (Counted (Node.Related R)) first.read second.read
  fault : Option.Rel (fun a b ↦ a.bare = b.bare) first.fault second.fault

def ReadsRelated (R : TextRelation) (statements : List Token → Statements) : Prop :=
  ∀ {tokens others}, RelatedTokens R tokens others →
    (statements tokens).Related R (statements others)

theorem totalCount_related {first second : List (Node × Nat)}
    (h : List.Forall₂ (Counted (Node.Related R)) first second) :
    totalCount first = totalCount second := by
  induction h with
  | nil => rfl
  | cons hfound _ ih =>
    obtain ⟨-⟩ := hfound
    simp only [totalCount, List.foldr_cons] at ih ⊢
    rw [ih]

theorem relatedNodes_read {first second : List (Node × Nat)}
    (h : List.Forall₂ (Counted (Node.Related R)) first second) :
    RelatedNodes R (first.map Prod.fst) (second.map Prod.fst) := by
  induction h with
  | nil => exact .nil
  | cons hfound _ ih =>
    obtain ⟨hnode⟩ := hfound
    exact .cons hnode ih

/-- What a parenthesis holds on both sides: related values, or queries. -/
inductive RelatedGroup (R : TextRelation) : Node → Node → Prop
  | group {items itemsOther : List Node} :
      RelatedNodes R items itemsOther → RelatedGroup R (.group items) (.group itemsOther)
  | query (statements others : List Node) :
      RelatedGroup R (.subselect statements) (.subselect others)

variable {statements : List Token → Statements}

theorem readGroup_related (hstatements : ReadsRelated R statements) {found foundOther : Node}
    (hfound : RelatedGroup R found foundOther) (h : RelatedTokens R tokens others) :
    Agree (Counted (RelatedGroup R)) (readGroup statements bound found tokens)
      (readGroup statements bound foundOther others) := by
  have hnext {more : Nat} {first second : Except Fault (Node × Nat)}
      (h : Agree (Counted (RelatedGroup R)) first second) :
      Agree (Counted (RelatedGroup R)) (first >>= fun all ↦ .ok (all.1, all.2 + more))
        (second >>= fun all ↦ .ok (all.1, all.2 + more)) := by
    apply h.bind
    rintro _ _ ⟨hall⟩
    exact .ok (.mk hall)
  induction bound generalizing found foundOther tokens others with
  | zero => exact .error rfl
  | succ bound ih =>
    cases h with
    | nil => exact .error rfl
    | @cons token other rest more htoken hrest =>
      have hvalue := value?_related htoken
      simp only [readGroup]
      generalize value? token = value at hvalue
      generalize value? other = valueOther at hvalue
      cases hvalue with
      | some hitem =>
        cases hfound with
        | group hitems => exact hnext (ih (.group (List.rel_append hitems (.cons hitem .nil))) hrest)
        | query => exact .error rfl
      | none =>
        obtain @⟨kind, text, word, htext⟩ := htoken
        cases kind with
        | closeParen => exact .ok (.mk hfound)
        | comma => exact hnext (ih hfound hrest)
        | selectWord =>
          have h : RelatedTokens R (⟨.selectWord, text⟩ :: rest)
              (⟨.selectWord, word⟩ :: more) := .cons (.mk htext) hrest
          obtain ⟨hread, hfault⟩ := hstatements h
          dsimp only
          generalize (statements (⟨.selectWord, text⟩ :: rest)).fault = fault at hfault
          generalize (statements (⟨.selectWord, word⟩ :: more)).fault = faultOther at hfault
          cases hfault with
          | some hbare => exact .error hbare
          | none =>
            rw [totalCount_related hread]
            apply (ih (.query _ _) (List.forall₂_drop _ h)).bind
            rintro _ _ ⟨hall⟩
            exact .ok (.mk hall)
        | _ => exact .error rfl

theorem readMembership_related (hstatements : ReadsRelated R statements)
    (h : RelatedTokens R tokens others) :
    Agree (Counted (Node.Related R)) (readMembership statements tokens)
      (readMembership statements others) := by
  cases h with
  | nil => exact .error rfl
  | cons hleft hrest =>
    apply (readOperand_related hleft).bind
    intro operand operandOther hoperand
    cases hrest with
    | nil => exact .error rfl
    | cons hop hinner =>
      obtain @⟨kind, op, opOther, htext⟩ := hop
      dsimp only
      rw [hinner.length_eq]
      apply (readGroup_related hstatements (.group .nil) (List.forall₂_drop 1 hinner)).bind
      rintro _ _ ⟨hfound⟩
      cases hfound with
      | group hitems => exact .ok (.mk (.membership hoperand htext rfl (.group hitems)))
      | query => exact .ok (.mk (.membership hoperand htext rfl (.abandoned rfl rfl)))

theorem readCondition_related (hstatements : ReadsRelated R statements) (membership : Bool)
    (h : RelatedTokens R tokens others) :
    Agree (Counted (Node.Related R)) (readCondition statements membership tokens)
      (readCondition statements membership others) := by
  have hsimple := simpleCondition?_related h
  rw [readCondition_eq, readCondition_eq]
  generalize simpleCondition? tokens = found at hsimple
  generalize simpleCondition? others = foundOther at hsimple
  cases hsimple with
  | some hfound => exact .ok hfound
  | none =>
    dsimp only
    rw [negatesCall, negatesCall, ← fits_related _ h]
    split
    · cases h with
      | nil => exact .error rfl
      | cons htoken hrest => exact readNegatedCall_related _ _ hrest
    · split
      · exact readMembership_related hstatements h
      · exact .error rfl

theorem readConditions_related (hstatements : ReadsRelated R statements)
    (h : RelatedTokens R tokens others) :
    Agree (Counted (RelatedNodes R)) (readConditions statements tokens)
      (readConditions statements others) := by
  have hitem {membership : Bool} {tokens others : List Token} (h : RelatedTokens R tokens others) :
      Agree (Counted (RelatedNodes R)) (linkedItem statements membership tokens)
        (linkedItem statements membership others) :=
    agree_single (readCondition_related hstatements membership h)
  unfold readConditions
  rw [opensMembership_eq, opensMembership_eq, ← fits_related _ h, h.length_eq,
    readLinked_eq_readList, readLinked_eq_readList]
  exact readList_related hitem link?_related _ h

theorem readWhere_related (hstatements : ReadsRelated R statements) {text word : String}
    (htext : R .whereWord text word) (h : RelatedTokens R tokens others) :
    Agree (Counted (Node.Related R)) (readWhere statements (⟨.whereWord, text⟩ :: tokens))
      (readWhere statements (⟨.whereWord, word⟩ :: others)) := by
  apply (readConditions_related hstatements h).bind
  rintro _ _ ⟨hconditions⟩
  exact .ok (.mk (.whereClause htext hconditions))

theorem readHaving_related (hstatements : ReadsRelated R statements) {text word : String}
    (htext : R .havingWord text word) (h : RelatedTokens R tokens others) :
    Agree (Counted (Node.Related R)) (readHaving statements (⟨.havingWord, text⟩ :: tokens))
      (readHaving statements (⟨.havingWord, word⟩ :: others)) := by
  apply (readConditions_related hstatements h).bind
  rintro _ _ ⟨hconditions⟩
  exact .ok (.mk (.havingClause htext hconditions))

/-! ### Joins -/

theorem isPart_comparison : ∀ place ∈ ([(· = .identifier), (· = .compare), (· = .identifier)] :
    List (Kind → Bool)), ∀ kind, place kind = true → kind.isPart = true := by
  simp only [List.forall_mem_cons, List.not_mem_nil, false_imp_iff, implies_true, and_true,
    decide_eq_true_eq, forall_eq]
  exact ⟨rfl, rfl, rfl⟩

theorem readNameComparison_related (h : RelatedTokens R tokens others) :
    Counted (RelatedNodes R) (readNameComparison tokens) (readNameComparison others) := by
  rw [readNameComparison_eq, readNameComparison_eq, ← fits_related _ h]
  split
  · next hfits =>
    exact .mk (.cons (.condition (parts_related h hfits 3 isPart_comparison (Nat.le_refl _))) .nil)
  · exact .mk .nil

theorem readCallOnRight_related (h : RelatedTokens R tokens others) :
    Agree (Counted (RelatedNodes R)) (readCallOnRight tokens) (readCallOnRight others) := by
  rw [readCallOnRight_eq, readCallOnRight_eq, ← fits_related _ h]
  split
  · next hfits =>
    apply (readCall_related (List.forall₂_drop 2 h)).map
    rintro _ _ ⟨hcall⟩
    have hparts := parts_related h hfits 2 (fun place hplace ↦ isPart_comparison place
      (List.mem_of_mem_take (i := 2) hplace)) (by decide)
    exact .mk (.cons (.condition (List.rel_append hparts (.cons hcall .nil))) .nil)
  · exact .ok (.mk .nil)

theorem readCompared_related {call callOther : Node} (hcall : call.Related R callOther) (count : Nat)
    (h : RelatedTokens R tokens others) :
    Agree (Counted (RelatedNodes R)) (readCompared call count tokens)
      (readCompared callOther count others) := by
  unfold readCompared
  simp only [← fits_related _ h]
  split
  · next hfits =>
    have hparts := parts_related h hfits 2 (fun place hplace ↦ isPart_comparison place
      (List.mem_cons_of_mem _ hplace)) (Nat.le_refl _)
    exact .ok (.mk (.cons (.condition (.cons hcall hparts)) .nil))
  · split
    · next hfits =>
      apply (readCall_related (List.forall₂_drop 1 h)).map
      rintro _ _ ⟨hright⟩
      have hparts := parts_related h hfits 1 (fun place hplace ↦ isPart_comparison place
        (List.mem_cons_of_mem _ (List.mem_of_mem_take (i := 1) hplace))) (by decide)
      exact .mk (.cons (.condition (.cons hcall (List.rel_append hparts (.cons hright .nil)))) .nil)
    · exact .ok (.mk .nil)

theorem readCallOnLeft_related (h : RelatedTokens R tokens others) :
    Agree (Counted (RelatedNodes R)) (readCallOnLeft tokens) (readCallOnLeft others) := by
  rw [readCallOnLeft_eq, readCallOnLeft_eq, ← fits_related _ h]
  split
  · apply (readCall_related h).bind
    rintro _ _ ⟨hcall⟩
    exact readCompared_related hcall _ (List.forall₂_drop _ h)
  · exact .ok (.mk .nil)

theorem readComparisons_related {tokens others : List Token} (h : RelatedTokens R tokens others) :
    Agree (Counted (RelatedNodes R)) (readComparisons tokens) (readComparisons others) := by
  have hnames := readNameComparison_related h
  unfold readComparisons
  generalize readNameComparison tokens = names at hnames
  generalize readNameComparison others = namesOther at hnames
  obtain ⟨hnames⟩ := hnames
  apply (readCallOnRight_related (List.forall₂_drop _ h)).bind
  rintro _ _ ⟨hright⟩
  apply (readCallOnLeft_related (List.forall₂_drop _ h)).bind
  rintro _ _ ⟨hleft⟩
  exact .ok (.mk (List.rel_append (List.rel_append hnames hright) hleft))

theorem readFromPart_related (h : RelatedTokens R tokens others) :
    Agree (Option.Rel (Counted (RelatedNodes R))) (readFromPart tokens) (readFromPart others) := by
  have hnamed : Agree (Option.Rel (Counted (RelatedNodes R)))
      (readNamed tokens >>= fun found ↦ .ok (some ([found.1], found.2)))
      (readNamed others >>= fun found ↦ .ok (some ([found.1], found.2))) := by
    apply (readNamed_related h).bind
    rintro _ _ ⟨hnode⟩
    exact .ok (.some (.mk (.cons hnode .nil)))
  cases h with
  | nil => exact .ok .none
  | cons htoken hrest =>
    obtain @⟨kind, text, word, htext⟩ := htoken
    cases kind with
    | identifier | number => exact hnamed
    | join => exact .ok (.some (.mk (.cons (.join htext) .nil)))
    | onWord =>
      simp only [readFromPart, readJoinConditions_eq_readList, hrest.length_eq]
      apply (readList_related readComparisons_related link?_related _ hrest).bind
      rintro _ _ ⟨hconditions⟩
      exact .ok (.some (.mk (.cons (.onClause htext hconditions) .nil)))
    | comma => exact .ok (.some (.mk .nil))
    | _ => exact .ok .none

theorem readFromParts_related (h : RelatedTokens R tokens others) :
    Agree (Counted (RelatedNodes R)) (readFromParts bound tokens) (readFromParts bound others) := by
  induction bound generalizing tokens others with
  | zero => exact .ok (.mk .nil)
  | succ bound ih =>
    apply (readFromPart_related h).bind
    intro first second hpart
    cases hpart with
    | none => exact .ok (.mk .nil)
    | some hfound =>
      obtain ⟨hpart⟩ := hfound
      apply (ih (List.forall₂_drop _ h)).bind
      rintro _ _ ⟨hparts⟩
      exact .ok (.mk (List.rel_append hpart hparts))

theorem readFrom_related {text word : String} (htext : R .fromWord text word)
    (h : RelatedTokens R tokens others) :
    Agree (Counted (Node.Related R)) (readFrom (⟨.fromWord, text⟩ :: tokens))
      (readFrom (⟨.fromWord, word⟩ :: others)) := by
  simp only [readFrom, h.length_eq]
  apply (readFromParts_related h).bind
  rintro _ _ ⟨hparts⟩
  exact .ok (.mk (.fromClause htext hparts))

/-! ### INSERT statements -/

theorem readColumns_related (h : RelatedTokens R tokens others) :
    Agree (Counted (RelatedNodes R)) (readColumns tokens) (readColumns others) := by
  induction h with
  | nil => exact .error rfl
  | @cons token other rest more htoken _ ih =>
    have hvalue := value?_related htoken
    simp only [readColumns]
    generalize value? token = value at hvalue
    generalize value? other = valueOther at hvalue
    cases hvalue with
    | some hcolumn =>
      apply ih.bind
      rintro _ _ ⟨hcolumns⟩
      exact .ok (.mk (.cons hcolumn hcolumns))
    | none =>
      obtain @⟨kind, text, word, htext⟩ := htoken
      cases kind with
      | closeParen => exact .ok (.mk .nil)
      | comma =>
        apply ih.bind
        rintro _ _ ⟨hcolumns⟩
        exact .ok (.mk hcolumns)
      | _ => exact .error rfl

theorem readColumnList_related (h : RelatedTokens R tokens others) :
    Agree (Counted (RelatedNodes R)) (readColumnList tokens) (readColumnList others) := by
  cases h with
  | nil => exact .error rfl
  | cons htoken hinner =>
    obtain @⟨kind, text, word, htext⟩ := htoken
    cases kind with
    | openParen =>
      apply (readColumns_related hinner).map
      rintro _ _ ⟨hcolumns⟩
      exact .mk hcolumns
    | _ => exact .ok (.mk .nil)

abbrev AnyRows (_ _ : List (List Node)) : Prop := True

theorem readAfterValue_related
    (hrows : ∀ {row rowOther tokens others}, RelatedTokens R tokens others →
      Agree (Counted AnyRows) (readRows bound row tokens) (readRows bound rowOther others))
    (row rowOther : List Node) (count : Nat) (h : RelatedTokens R tokens others) :
    Agree (Counted AnyRows) (readAfterValue bound row count tokens)
      (readAfterValue bound rowOther count others) := by
  cases h with
  | nil => exact .error rfl
  | cons htoken hrest =>
    obtain @⟨kind, text, word, -⟩ := htoken
    cases kind with
    | comma =>
      apply (hrows hrest).map
      rintro _ _ ⟨-⟩
      exact .mk trivial
    | closeParen =>
      cases hrest with
      | nil => exact .ok (.mk trivial)
      | cons hsecond hrest =>
        obtain @⟨kind, comma, commaOther, -⟩ := hsecond
        cases kind with
        | comma =>
          cases hrest with
          | nil => exact .ok (.mk trivial)
          | cons hthird hrest =>
            obtain @⟨kind, paren, parenOther, -⟩ := hthird
            cases kind with
            | openParen =>
              apply (hrows hrest).map
              rintro _ _ ⟨-⟩
              exact .mk trivial
            | _ => exact .ok (.mk trivial)
        | _ => exact .ok (.mk trivial)
    | _ => exact .error rfl

theorem readRows_related {row rowOther : List Node} (h : RelatedTokens R tokens others) :
    Agree (Counted AnyRows) (readRows bound row tokens) (readRows bound rowOther others) := by
  induction bound generalizing row rowOther tokens others with
  | zero => exact .error rfl
  | succ bound ih =>
    cases h with
    | nil => exact .error rfl
    | @cons token other rest more htoken hrest =>
      have hvalue := value?_related htoken
      have hlength : (value? token).toList.length = (value? other).toList.length := by
        generalize value? token = value at hvalue
        generalize value? other = valueOther at hvalue
        cases hvalue <;> rfl
      rw [readRows_succ, readRows_succ, ← hlength]
      exact readAfterValue_related ih _ _ _ (List.forall₂_drop _ (.cons htoken hrest))

theorem readSource_related (hstatements : ReadsRelated R statements) {word wordOther : String}
    (hword : R .insertWord word wordOther) {table tableOther : String}
    (htable : R .identifier table tableOther) {columns columnsOther : List Node}
    (hcolumns : RelatedNodes R columns columnsOther) (h : RelatedTokens R tokens others) :
    Agree (Counted (Node.Related R)) (readSource statements word table columns tokens)
      (readSource statements wordOther tableOther columnsOther others) := by
  have hempty : Node.Related R (.insertClause word table none columns [])
      (.insertClause wordOther tableOther none columnsOther []) :=
    .insertClause hword htable hcolumns .nil
  cases h with
  | nil => exact .error rfl
  | @cons token other rest more htoken hrest =>
    obtain @⟨kind, text, textOther, htext⟩ := htoken
    cases kind with
    | valuesWord =>
      cases hrest with
      | nil => exact .ok (.mk hempty)
      | cons hsecond hrest =>
        obtain @⟨kind, paren, parenOther, -⟩ := hsecond
        cases kind with
        | openParen =>
          simp only [readSource, hrest.length_eq]
          apply (readRows_related hrest).bind
          rintro _ _ ⟨-⟩
          exact .ok (.mk (.abandoned rfl rfl))
        | _ => exact .ok (.mk hempty)
    | selectWord =>
      obtain ⟨hread, hfault⟩ := hstatements (.cons (.mk htext) hrest)
      simp only [readSource]
      generalize (statements (⟨.selectWord, text⟩ :: rest)).fault = fault at hfault
      generalize (statements (⟨.selectWord, textOther⟩ :: more)).fault = faultOther at hfault
      cases hfault with
      | some hbare => exact .error hbare
      | none =>
        rw [totalCount_related hread]
        exact .ok (.mk (.insertClause hword htable hcolumns (relatedNodes_read hread)))
    | _ => exact .ok (.mk hempty)

theorem readInsert_related (hstatements : ReadsRelated R statements) {text word : String}
    (htext : R .insertWord text word) (h : RelatedTokens R tokens others) :
    Agree (Counted (Node.Related R)) (readInsert statements (⟨.insertWord, text⟩ :: tokens))
      (readInsert statements (⟨.insertWord, word⟩ :: others)) := by
  cases h with
  | nil => exact .error rfl
  | cons htable hrest =>
    obtain @⟨kind, table, tableOther, htable⟩ := htable
    rw [readInsert_eq, readInsert_eq]
    dsimp only
    split
    · next hkind =>
      subst hkind
      apply (readColumnList_related hrest).bind
      rintro _ _ ⟨hcolumns⟩
      apply (readSource_related hstatements htext htable hcolumns (List.forall₂_drop _ hrest)).map
      rintro _ _ ⟨hnode⟩
      exact .mk hnode
    · exact .error rfl

/-! ### Statements -/

theorem readStatement_related (hoffset : KeepsOffset R) (hstatements : ReadsRelated R statements)
    (h : RelatedTokens R tokens others) :
    Agree (Counted (Node.Related R)) (readStatement statements tokens)
      (readStatement statements others) := by
  cases h with
  | nil => exact .error rfl
  | @cons token other rest more htoken hrest =>
    obtain @⟨kind, text, word, htext⟩ := htoken
    have h : RelatedTokens R (⟨kind, text⟩ :: rest) (⟨kind, word⟩ :: more) :=
      .cons (.mk htext) hrest
    cases kind with
    | groupWord => exact readGroupBy_related h
    | fromWord => exact readFrom_related htext hrest
    | func => exact readCall_related h
    | havingWord => exact readHaving_related hstatements htext hrest
    | insertWord => exact readInsert_related hstatements htext hrest
    | limitWord => exact readLimit_related hoffset h
    | orderWord => exact readOrderBy_related h
    | selectWord => exact readSelect_related htext hrest
    | semicolon => exact .ok (.mk .semicolon)
    | whereWord => exact readWhere_related hstatements htext hrest
    | _ => exact .error rfl

theorem readStatements_related (hoffset : KeepsOffset R) (bound : Nat) :
    ReadsRelated R (readStatements bound) := by
  induction bound with
  | zero => exact fun _ ↦ ⟨.nil, .none⟩
  | succ bound ih =>
    intro tokens others h
    cases h with
    | nil => exact ⟨.nil, .none⟩
    | @cons token other rest more htoken hrest =>
      have h : RelatedTokens R (token :: rest) (other :: more) := .cons htoken hrest
      have hstatement := readStatement_related hoffset ih h
      simp only [readStatements]
      generalize readStatement (readStatements bound) (token :: rest) = first at hstatement
      generalize readStatement (readStatements bound) (other :: more) = second at hstatement
      cases hstatement with
      | error hbare => exact ⟨.nil, .some hbare⟩
      | ok hfound =>
        obtain @⟨node, nodeOther, count, hnode⟩ := hfound
        obtain ⟨hread, hfault⟩ := ih (List.forall₂_drop count h)
        exact ⟨.cons (.mk hnode) hread, hfault⟩

/-- Related tokens are read as related trees, or reading them fails in the same way. -/
theorem parse_related (hoffset : KeepsOffset R) (h : RelatedTokens R tokens others) :
    Agree (RelatedNodes R) (parse tokens) (parse others) := by
  obtain ⟨hread, hfault⟩ := readStatements_related hoffset tokens.length h
  unfold parse Read.statements
  rw [← h.length_eq]
  generalize (readStatements tokens.length tokens).fault = fault at hfault
  generalize (readStatements tokens.length others).fault = faultOther at hfault
  cases hfault with
  | some hbare => exact .error hbare
  | none => exact .ok (relatedNodes_read hread)

end Read

end SqlLayout
