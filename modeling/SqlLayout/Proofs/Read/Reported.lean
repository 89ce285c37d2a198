import SqlLayout.Proofs.Read.Guarded
import SqlLayout.Proofs.Read.Literals

/-!
# Readers that report every defect

On guarded tokens each reader leaves off at guarded tokens again, so whatever is wrong with them is
reported.
-/

namespace SqlLayout.Read

/-! ### Readers that report -/

/-- A reader leaves off where `good` tokens follow, or reports a defect. -/
def Reports {α : Type} (good : List Token → Prop) (tokens : List Token) :
    Except Fault (α × Nat) → Prop
  | .ok found => good (tokens.drop found.2)
  | .error fault => fault.isInvalid = true

section Reports

variable {α β : Type} {good other : List Token → Prop} {tokens more : List Token}
  {first : Except Fault (α × Nat)}

theorem Reports.bind {next : α × Nat → Except Fault (β × Nat)} (h : Reports good tokens first)
    (hnext : ∀ found, good (tokens.drop found.2) → Reports other more (next found)) :
    Reports other more (first >>= next) := by
  cases first with
  | error fault => exact h
  | ok found => exact hnext found h

theorem Reports.map {f : α × Nat → β × Nat} (h : Reports good tokens first)
    (hf : ∀ found, good (tokens.drop found.2) → other (more.drop (f found).2)) :
    Reports other more (first.map f) := by
  cases first with
  | error fault => exact h
  | ok found => exact hf found h

theorem Reports.bind_map {γ : Type} {next : α × Nat → Except Fault γ} {f : γ → β × Nat}
    (h : Reports good tokens first)
    (hnext : ∀ found, good (tokens.drop found.2) → Reports other more ((next found).map f)) :
    Reports other more ((first >>= next).map f) := by
  cases first with
  | error fault => exact h
  | ok found => exact hnext found h

theorem Reports.mono (h : Reports good tokens first) (himp : ∀ tokens, good tokens → other tokens) :
    Reports other tokens first := by
  cases first with
  | error fault => exact h
  | ok found => exact himp _ h

end Reports

theorem drop_of_drop_eq_cons {tokens more : List Token} {token : Token} {count : Nat}
    (h : tokens.drop count = token :: more) (taken : Nat) :
    tokens.drop (count + 1 + taken) = more.drop taken := by
  rw [← List.drop_drop, ← List.drop_drop, h]
  rfl

/-! ### Values and calls -/

section Values

variable {depth bound count : Nat} {tokens rest : List Token} {token : Token}
  {good : List Token → Prop}

def PassesNames (good : List Token → Prop) : Prop :=
  ∀ token rest, (token.kind.isValue = true ∨ token.kind = .asWord) → good (token :: rest) → good rest

theorem passesNames_start : PassesNames (Closes .start) := by
  rintro ⟨kind, text⟩ rest (hvalue | rfl) h
  · exact h.of_value hvalue
  · exact h

theorem passesNames_leave (depth : Nat) : PassesNames (Closes (.leave depth)) := by
  rintro ⟨kind, text⟩ rest hkind h
  refine (closes_cons ?_).mp h
  cases depth with
  | zero =>
    rcases hkind with hvalue | rfl
    · cases kind <;> first | rfl | cases hvalue
    · rfl
  | succ depth =>
    rcases hkind with hvalue | rfl
    · cases kind <;> first | rfl | cases hvalue
    · rfl

theorem PassesNames.aliasName? (hgood : PassesNames good) (h : good tokens) {name : String}
    (hname : aliasName? tokens = some name) : good (tokens.drop 1) := by
  unfold Read.aliasName? at hname
  split at hname
  · split at hname
    · rename_i hvalue
      exact hgood _ _ (.inl hvalue) h
    · cases hname
  · cases hname

theorem PassesNames.readAlias (hgood : PassesNames good) (h : good tokens) :
    good (tokens.drop (readAlias tokens).2) := by
  unfold Read.readAlias
  split
  · have hrest := hgood _ _ (.inr rfl) h
    split
    · rename_i hname
      exact hgood.aliasName? hrest hname
    · exact hrest
  · split
    · rename_i hname
      exact hgood.aliasName? h hname
    · exact h

theorem PassesNames.readNamed (hgood : PassesNames good) (hkind : token.kind.isColumn = true)
    (h : good (token :: rest)) : Reports good (token :: rest) (readNamed (token :: rest)) := by
  obtain ⟨kind, text⟩ := token
  cases kind with
  | identifier | number => exact hgood.readAlias (hgood _ _ (.inl rfl) h)
  | _ => cases hkind

/-- Behind the arguments of a call its alias is read. -/
theorem closes_call {name paren : Token} {inner : List Token}
    (h : Closes (.leave depth) (inner.drop count)) :
    Closes (.leave depth) ((name :: paren :: inner).drop
      (2 + count + (readAlias (inner.drop count)).2)) := by
  have halias := (passesNames_leave depth).readAlias h
  rw [List.drop_drop] at halias
  rw [Nat.add_assoc, ← List.drop_drop]
  exact halias

def ReportsArgs (bound : Nat) : Prop :=
  ∀ depth first tokens, Closes (.inside depth) tokens →
    Reports (Closes (.leave depth)) tokens (readArgs bound first tokens)

theorem readArg_reports (hargs : ReportsArgs bound) (first : Bool)
    (h : Closes (.inside depth) (token :: rest)) :
    Reports (Closes (.inside depth)) (token :: rest) (readArg bound first token rest) := by
  unfold readArg
  rw [value?_eq]
  split
  · rename_i hfound
    split at hfound
    · rename_i hvalue
      exact passesNames_leave (depth + 1) token rest (.inl hvalue) h
    · cases hfound
  · split
    · rename_i hfunc
      obtain ⟨kind, name⟩ := token
      cases hfunc
      obtain ⟨word, inner, rfl, hinner⟩ := Closes.of_called h
      exact (hargs (depth + 1) true inner hinner).map fun found hfound ↦ closes_call hfound
    · split
      · rfl
      · exact h

theorem readAfterArg_reports (hargs : ReportsArgs bound) {arg : List Node}
    (h : Closes (.inside depth) (tokens.drop count)) :
    Reports (Closes (.leave depth)) tokens (readAfterArg bound arg count (tokens.drop count)) := by
  unfold readAfterArg
  split
  · rename_i hnil
    rw [hnil] at h
    cases h
  · rename_i word more hmore
    rw [hmore] at h
    apply (hargs depth false more h).bind
    intro found hfound
    rw [← drop_of_drop_eq_cons hmore] at hfound
    exact hfound
  · rename_i word more hmore
    rw [hmore] at h
    have hleave : Closes (.leave depth) (more.drop 0) := h
    rw [← drop_of_drop_eq_cons hmore] at hleave
    exact hleave
  · rfl

theorem readArgs_reports (bound : Nat) : ReportsArgs bound := by
  induction bound with
  | zero =>
    intro depth first tokens _
    rfl
  | succ bound ih =>
    intro depth first tokens h
    cases tokens with
    | nil => cases h
    | cons token rest =>
      rw [readArgs_succ]
      apply (readArg_reports ih first h).bind
      intro found hfound
      exact readAfterArg_reports ih hfound

theorem readCall_reports {name : String} (h : Closes .start (⟨.func, name⟩ :: rest)) :
    Reports (Closes .ended) (⟨.func, name⟩ :: rest) (readCall (⟨.func, name⟩ :: rest)) := by
  obtain ⟨word, inner, rfl, hinner⟩ := Closes.of_called h
  apply (readArgs_reports inner.length 0 true inner hinner).bind
  intro found hfound
  exact closes_call hfound

end Values

/-! ### Lists of items -/

section Items

variable {bound count : Nat} {tokens rest : List Token} {token : Token}

/-- A list is read up to where an item was, if each separator leads on to where an item can be. -/
theorem readList_reports {item : List Token → Except Fault (List Node × Nat)}
    {separator : List Token → Option (List Node × List Token)} {front behind : List Token → Prop}
    (hfront : ∀ tokens, front tokens → behind tokens)
    (hitem : ∀ tokens, front tokens → Reports behind tokens (item tokens))
    (hseparator : ∀ tokens between more, behind tokens → separator tokens = some (between, more) →
      ∃ token, tokens = token :: more ∧ front more)
    (h : front tokens) : Reports behind tokens (readList item separator bound tokens) := by
  induction bound generalizing tokens with
  | zero => exact hfront _ h
  | succ bound ih =>
    cases tokens with
    | nil => exact hfront _ h
    | cons token rest =>
      apply (hitem _ h).bind
      intro found hfound
      split
      · exact hfound
      · rename_i between more hseparated
        obtain ⟨separating, hmore, hfront⟩ := hseparator _ _ _ hfound hseparated
        apply (ih hfront).map
        intro others hothers
        rw [← drop_of_drop_eq_cons hmore] at hothers
        exact hothers

theorem closes_of_comma? {between : List Node} {more : List Token} (h : Closes .start tokens)
    (hcomma : comma? tokens = some (between, more)) :
    ∃ token, tokens = token :: more ∧ Closes .start more := by
  obtain ⟨found, hfound, hpair⟩ := Option.map_eq_some_iff.mp hcomma
  cases hpair
  obtain ⟨word, rfl⟩ := behindComma?_eq_some.mp hfound
  exact ⟨_, rfl, h.tail rfl⟩

theorem readCommaList_reports {item : List Token → Except Fault (List Node × Nat)}
    (hitem : ∀ tokens, Closes .start tokens → Reports (Closes .start) tokens (item tokens))
    (h : Closes .start tokens) : Reports (Closes .start) tokens (readList item comma? bound tokens) :=
  readList_reports (fun _ h ↦ h) hitem (fun _ _ _ ↦ closes_of_comma?) h

theorem closes_readBranches (h : Closes .start tokens) : Closes .start (tokens.drop (readBranches tokens).2) := by
  fun_induction readBranches tokens with
  | case1 whenWord condition thenWord result rest hkinds branches count hmore ih =>
    rw [Bool.and_eq_true] at hkinds
    have hthen := (h.tail rfl).tail (Kind.isPlain_of_isValue hkinds.1)
    have hothers := ih ((hthen.tail rfl).tail (Kind.isPlain_of_isValue hkinds.2))
    rw [hmore] at hothers
    exact hothers
  | case3 elseWord result rest hkind branches count hmore ih =>
    have hothers := ih ((h.tail rfl).tail (Kind.isPlain_of_isValue hkind))
    rw [hmore] at hothers
    exact hothers
  | _ => exact h

theorem readSelectItem_reports (tokens : List Token) (h : Closes .start tokens) :
    Reports (Closes .start) tokens (readSelectItem tokens) := by
  unfold readSelectItem
  split
  · exact passesNames_start.readNamed rfl h
  · exact passesNames_start.readNamed rfl h
  · exact (readCall_reports h).mono fun _ ↦ Closes.of_ended
  · exact closes_readBranches (h.tail rfl)
  · rfl

theorem readSelect_reports (h : Closes .start (token :: rest)) (hkind : token.kind.isPlain = true) :
    Reports (Closes .start) (token :: rest) (readSelect (token :: rest)) := by
  have hitems : Reports (Closes .start) rest (readSelectItems rest.length rest) := by
    rw [readSelectItems_eq_readList]
    apply readCommaList_reports _ (h.tail hkind)
    intro tokens h
    exact (readSelectItem_reports tokens h).map fun found hfound ↦ hfound
  exact hitems.bind fun found hfound ↦ hfound

theorem isPlain_of_columnKind? {kind : TermKind} (h : columnKind? token.kind = some kind) :
    token.kind.isPlain = true := by
  obtain ⟨found, text⟩ := token
  cases found <;> first | rfl | cases h

theorem groupItem_reports (tokens : List Token) (h : Closes .start tokens) :
    Reports (Closes .start) tokens (groupItem tokens) := by
  unfold groupItem
  split
  · rfl
  · split
    · rfl
    · rename_i hkind
      exact h.tail (isPlain_of_columnKind? hkind)

theorem readGroupBy_reports (h : Closes .start (token :: rest)) (hkind : token.kind.isPlain = true) :
    Reports (Closes .start) (token :: rest) (readGroupBy (token :: rest)) := by
  have hitems : Reports (Closes .start) rest (readGroupItems rest) := by
    rw [readGroupItems_eq_readList (Nat.le_refl _)]
    exact readCommaList_reports groupItem_reports (h.tail hkind)
  apply hitems.bind
  rintro ⟨items, taken⟩ hfound
  have hitems : Closes .start ((token :: rest).drop (taken + 1)) := hfound
  dsimp only
  split
  · rename_i word more hmore
    rw [hmore] at hitems
    have hclosed := hitems.tail rfl
    rw [← List.drop_zero (l := more), ← drop_of_drop_eq_cons hmore] at hclosed
    exact hclosed
  · exact hfound

theorem orderItem_reports (tokens : List Token) (h : Closes .start tokens) :
    Reports (Closes .start) tokens (orderItem tokens) := by
  unfold orderItem
  split
  · rfl
  · rename_i token rest
    split
    · rfl
    · rename_i hkind
      have hrest := h.tail (isPlain_of_columnKind? hkind)
      unfold sortWord?
      split
      · exact hrest.tail rfl
      · exact hrest.tail rfl
      · exact hrest

theorem readOrderBy_reports (h : Closes .start (token :: rest)) (hkind : token.kind.isPlain = true) :
    Reports (Closes .start) (token :: rest) (readOrderBy (token :: rest)) := by
  have hitems : Reports (Closes .start) rest (readOrderItems (token :: rest).length rest) := by
    rw [readOrderItems_eq_readList]
    exact readCommaList_reports orderItem_reports (h.tail hkind)
  exact hitems.bind fun found hfound ↦ hfound

theorem readPlainLimit_reports (h : Closes .start tokens) :
    Reports (Closes .start) tokens (readPlainLimit tokens) := by
  unfold readPlainLimit
  split
  · exact (h.tail rfl).tail rfl
  · rfl

theorem readLimit_reports (h : Closes .start tokens) : Reports (Closes .start) tokens (readLimit tokens) := by
  unfold readLimit
  split
  · exact (((h.tail rfl).tail rfl).tail rfl).tail rfl
  · split
    · exact (((h.tail rfl).tail rfl).tail rfl).tail rfl
    · exact readPlainLimit_reports h
  · exact readPlainLimit_reports h

end Items

/-! ### Conditions -/

section Conditions

variable {bound count : Nat} {tokens rest : List Token} {token : Token} {node : Node}
  {statements : List Token → Statements}

theorem fits_cons {place : Kind → Bool} {places : List (Kind → Bool)}
    (h : fits (place :: places) tokens = true) :
    ∃ kind text rest, tokens = ⟨kind, text⟩ :: rest ∧ place kind = true ∧ fits places rest = true := by
  rcases tokens with _ | ⟨⟨kind, text⟩, rest⟩
  · cases h
  · rw [fits, Bool.and_eq_true] at h
    exact ⟨kind, text, rest, rfl, h⟩

theorem fits_of_simpleCondition? (h : simpleCondition? tokens = some (node, count)) :
    ∃ form ∈ conditionForms, fits form tokens = true ∧ count = form.length := by
  rw [simpleCondition?_eq] at h
  obtain ⟨form, hform, hfound⟩ := List.exists_of_findSome?_eq_some h
  unfold plainCondition? at hfound
  split at hfound
  · rename_i hfits
    cases hfound
    exact ⟨form, hform, hfits, rfl⟩
  · cases hfound

inductive PlainCondition : List Token → List Token → Prop
  | negated {left right : Token} (no op : String) (rest : List Token) :
      left.kind.isValue = true → right.kind.isValue = true →
      PlainCondition (⟨.notWord, no⟩ :: left :: ⟨.compare, op⟩ :: right :: rest) rest
  | between {left low high : Token} (word link : String) (rest : List Token) :
      left.kind.isValue = true → low.kind.isValue = true → high.kind.isValue = true →
      PlainCondition (left :: ⟨.betweenWord, word⟩ :: low :: ⟨.link, link⟩ :: high :: rest) rest
  | comparison {left right : Token} (op : String) (rest : List Token) :
      left.kind.isValue = true → right.kind.isValue = true →
      PlainCondition (left :: ⟨.compare, op⟩ :: right :: rest) rest
  | isNull {left : Token} (word null : String) (rest : List Token) : left.kind.isValue = true →
      PlainCondition (left :: ⟨.isWord, word⟩ :: ⟨.nullWord, null⟩ :: rest) rest
  | isNotNull {left : Token} (word no null : String) (rest : List Token) :
      left.kind.isValue = true →
      PlainCondition (left :: ⟨.isWord, word⟩ :: ⟨.notWord, no⟩ :: ⟨.nullWord, null⟩ :: rest) rest

theorem plainCondition_of_simpleCondition? (h : simpleCondition? tokens = some (node, count)) :
    PlainCondition tokens (tokens.drop count) := by
  obtain ⟨form, hform, hfits, rfl⟩ := fits_of_simpleCondition? h
  simp only [conditionForms, List.mem_cons, List.not_mem_nil, or_false] at hform
  rcases hform with rfl | rfl | rfl | rfl | rfl
  all_goals
    obtain ⟨_, _, _, rfl, hfirst, hfits⟩ := fits_cons hfits
    obtain ⟨_, _, _, rfl, hsecond, hfits⟩ := fits_cons hfits
    obtain ⟨_, _, _, rfl, hthird, hfits⟩ := fits_cons hfits
  · obtain ⟨_, _, _, rfl, hfourth, -⟩ := fits_cons hfits
    obtain rfl := of_decide_eq_true hfirst
    obtain rfl := of_decide_eq_true hthird
    exact .negated _ _ _ hsecond hfourth
  · obtain ⟨_, _, _, rfl, hfourth, hfits⟩ := fits_cons hfits
    obtain ⟨_, _, _, rfl, hfifth, -⟩ := fits_cons hfits
    obtain rfl := of_decide_eq_true hsecond
    obtain rfl := of_decide_eq_true hfourth
    exact .between _ _ _ hfirst hthird hfifth
  · obtain rfl := of_decide_eq_true hsecond
    exact .comparison _ _ hfirst hthird
  · obtain rfl := of_decide_eq_true hsecond
    obtain rfl := of_decide_eq_true hthird
    exact .isNull _ _ _ hfirst
  · obtain ⟨_, _, _, rfl, hfourth, -⟩ := fits_cons hfits
    obtain rfl := of_decide_eq_true hsecond
    obtain rfl := of_decide_eq_true hthird
    obtain rfl := of_decide_eq_true hfourth
    exact .isNotNull _ _ _ _ hfirst

theorem Closes.of_plainCondition (hplain : PlainCondition tokens rest) (h : Closes .start tokens) :
    Closes .start rest := by
  cases hplain with
  | negated no op rest hleft hright => exact (h.of_negated.2.of_value hleft).of_comparison hright
  | between word link rest hleft hlow hhigh =>
    have hlink := ((h.of_value hleft).tail rfl).of_value hlow
    exact (hlink.tail rfl).of_value hhigh
  | comparison op rest hleft hright => exact (h.of_value hleft).of_comparison hright
  | isNull word null rest hleft => exact ((h.of_value hleft).tail rfl).tail rfl
  | isNotNull word no null rest hleft => exact ((h.of_value hleft).tail rfl).of_negated.2.tail rfl

theorem linksLead_of_plainCondition (hplain : PlainCondition tokens rest)
    (h : linksLead tokens = true) : linksLead rest = true := by
  cases hplain with
  | negated no op rest hleft hright =>
    rw [linksLead_cons (by simp) (by simp), linksLead_cons_of_isValue hleft,
      linksLead_cons (by simp) (by simp), linksLead_cons_of_isValue hright] at h
    exact h
  | between word link rest hleft hlow hhigh =>
    rw [linksLead_cons_of_isValue hleft, linksLead, linksLead_cons_of_isValue hhigh] at h
    exact h
  | comparison op rest hleft hright =>
    rw [linksLead_cons_of_isValue hleft, linksLead_cons (by simp) (by simp),
      linksLead_cons_of_isValue hright] at h
    exact h
  | isNull word null rest hleft =>
    rw [linksLead_cons_of_isValue hleft, linksLead_cons (by simp) (by simp),
      linksLead_cons (by simp) (by simp)] at h
    exact h
  | isNotNull word no null rest hleft =>
    rw [linksLead_cons_of_isValue hleft, linksLead_cons (by simp) (by simp),
      linksLead_cons (by simp) (by simp), linksLead_cons (by simp) (by simp)] at h
    exact h

structure EndsCondition (tokens : List Token) : Prop where
  closed : Closes .start tokens
  links : linksLead tokens = true

theorem readGroup_reports {items : List Node} (hbound : tokens.length ≤ bound)
    (h : Closes .members tokens) (hlinks : linksLead tokens = true) :
    Reports EndsCondition tokens (readGroup statements bound (.group items) tokens) := by
  induction bound generalizing tokens items with
  | zero =>
    obtain rfl := List.eq_nil_of_length_eq_zero (Nat.le_zero.mp hbound)
    cases h
  | succ bound ih =>
    rcases tokens with _ | ⟨⟨kind, text⟩, rest⟩
    · cases h
    · have hrest : rest.length ≤ bound := Nat.le_of_succ_le_succ hbound
      rcases Closes.of_listed (fun _ ↦ rfl) h with ⟨rfl, hclosed⟩ | ⟨hvalue | rfl, hmembers⟩
      · rw [linksLead_cons (by simp) (by simp)] at hlinks
        exact ⟨hclosed, hlinks⟩
      · rw [linksLead_cons_of_isValue hvalue] at hlinks
        rw [readGroup, value?_eq, if_pos hvalue]
        exact (ih hrest hmembers hlinks).bind fun found hfound ↦ hfound
      · rw [linksLead_cons (by simp) (by simp)] at hlinks
        exact (ih hrest hmembers hlinks).bind fun found hfound ↦ hfound

theorem readMembership_reports (hopens : opensMembership tokens = true) (h : EndsCondition tokens) :
    Reports EndsCondition tokens (readMembership statements tokens) := by
  rw [opensMembership_eq] at hopens
  obtain ⟨left, text, rest, rfl, hleft, hopens⟩ := fits_cons hopens
  obtain ⟨op, word, rest, rfl, hop, hopens⟩ := fits_cons hopens
  obtain ⟨paren, opened, inner, rfl, hparen, -⟩ := fits_cons hopens
  obtain rfl := of_decide_eq_true hparen
  have hvalue : left.isValue = true := by
    cases left <;> first | rfl | cases hleft
  have hclosed := h.closed.of_value hvalue
  have hlinks := h.links
  rw [linksLead_cons_of_isValue hvalue] at hlinks
  have hmembers : Closes .members inner ∧ linksLead inner = true := by
    rw [Bool.or_eq_true, decide_eq_true_eq, decide_eq_true_eq] at hop
    rcases hop with rfl | rfl
    all_goals
      rw [linksLead_cons (by simp) (by simp), linksLead_cons (by simp) (by simp)] at hlinks
      exact ⟨hclosed, hlinks⟩
  have hgroup : Reports EndsCondition inner
      (readGroup statements (⟨.openParen, opened⟩ :: inner : List Token).length (.group []) inner) :=
    readGroup_reports (Nat.le_succ _) hmembers.1 hmembers.2
  rw [readMembership, readOperand, value?_eq, if_pos hvalue]
  exact hgroup.bind fun found hfound ↦ hfound

theorem not_negatesCall (h : Closes .start tokens) : ¬ negatesCall tokens := by
  intro hnegates
  obtain ⟨_, _, _, rfl, hno, hnegates⟩ := fits_cons hnegates
  obtain ⟨_, _, _, rfl, hfunc, -⟩ := fits_cons hnegates
  obtain rfl := of_decide_eq_true hno
  exact h.of_negated.1 (of_decide_eq_true hfunc)

theorem readCondition_reports (h : Closes .start tokens) :
    Reports (Closes .start) tokens (readCondition statements false tokens) := by
  rw [readCondition_eq, if_neg (not_negatesCall h)]
  split
  · rename_i hsimple
    exact h.of_plainCondition (plainCondition_of_simpleCondition? hsimple)
  · rfl

theorem readTest_reports (h : EndsCondition tokens) (hstarts : startsCondition tokens = true) :
    Reports EndsCondition tokens (readCondition statements true tokens) := by
  rw [readCondition_eq, if_neg (not_negatesCall h.closed)]
  split
  · rename_i hsimple
    have hplain := plainCondition_of_simpleCondition? hsimple
    exact ⟨h.closed.of_plainCondition hplain, linksLead_of_plainCondition hplain h.links⟩
  · rename_i hsimple
    rw [startsCondition, hsimple, Option.isSome_none, Bool.false_or] at hstarts
    exact readMembership_reports hstarts h

theorem link?_cases {between : List Node} {more : List Token}
    (h : link? tokens = some (between, more)) : ∃ word, tokens = ⟨.link, word⟩ :: more := by
  obtain ⟨found, hfound, hpair⟩ := Option.map_eq_some_iff.mp h
  cases hpair
  unfold behindLink? at hfound
  split at hfound
  · cases hfound
    exact ⟨_, rfl⟩
  · cases hfound

/-- If links lead to conditions wherever membership tests are allowed, then all conditions are read. -/
theorem readConditions_reports (h : Closes .start tokens)
    (hlinks : opensMembership tokens = true → linksLead tokens = true) :
    Reports (Closes .start) tokens (readConditions statements tokens) := by
  rw [readConditions, readLinked_eq_readList]
  cases hopens : opensMembership tokens with
  | false =>
    apply readList_reports (fun _ h ↦ h) _ _ h
    · intro tokens h
      exact (readCondition_reports h).map fun found hfound ↦ hfound
    · intro tokens between more h hlink
      obtain ⟨word, rfl⟩ := link?_cases hlink
      exact ⟨_, rfl, h.tail rfl⟩
  | true =>
    have hstart : EndsCondition tokens ∧ startsCondition tokens = true := by
      refine ⟨⟨h, hlinks hopens⟩, ?_⟩
      rw [startsCondition, hopens, Bool.or_true]
    have hlist : Reports EndsCondition tokens
        (readList (linkedItem statements true) link? tokens.length tokens) := by
      have hends : ∀ tokens, EndsCondition tokens ∧ startsCondition tokens = true →
          EndsCondition tokens := fun _ h ↦ h.1
      apply readList_reports hends _ _ hstart
      · intro tokens h
        exact (readTest_reports h.1 h.2).map fun found hfound ↦ hfound
      · intro tokens between more h hlink
        obtain ⟨word, rfl⟩ := link?_cases hlink
        have hmore := h.links
        rw [linksLead, Bool.and_eq_true] at hmore
        exact ⟨_, rfl, ⟨h.closed.tail rfl, hmore.2⟩, hmore.1⟩
    exact hlist.mono fun _ h ↦ h.closed

end Conditions

/-! ### Tables and joins -/

section Joins

variable {bound count : Nat} {tokens rest : List Token} {token : Token}

theorem closes_readNameComparison (h : Closes .start tokens) :
    Closes .start (tokens.drop (readNameComparison tokens).2) := by
  unfold readNameComparison
  split
  · exact (h.of_value rfl).of_comparison rfl
  · exact h

theorem readCallOnRight_reports (h : Closes .start tokens) :
    Reports (Closes .start) tokens (readCallOnRight tokens) := by
  unfold readCallOnRight
  split
  · have hcall := (h.of_value rfl).of_compared (by simp)
    exact (readCall_reports hcall).bind fun found hfound ↦ Closes.of_ended hfound
  · exact h

theorem readCallOnLeft_reports (h : Closes .start tokens) :
    Reports (Closes .start) tokens (readCallOnLeft tokens) := by
  unfold readCallOnLeft
  split
  · apply (readCall_reports h).bind
    rintro ⟨call, taken⟩ hended
    have hcall := Closes.of_ended hended
    dsimp only at hcall ⊢
    split
    · rename_i op right more hmore
      rw [hmore] at hcall
      have hright : Closes .start ((⟨.identifier, right⟩ :: more : List Token).drop 1) :=
        hcall.of_comparison rfl
      rw [← drop_of_drop_eq_cons hmore] at hright
      exact hright
    · -- The token behind the second call is taken too.
      rename_i op other more hmore
      rw [hmore] at hcall
      apply (readCall_reports (hcall.of_compared (by simp))).bind
      rintro ⟨right, counted⟩ hright
      have hnext := Closes.drop_of_ended hright
      have hcount : taken + 1 + (counted + 1) = taken + 2 + counted := by omega
      rw [List.drop_drop, ← drop_of_drop_eq_cons hmore, hcount] at hnext
      exact hnext
    · exact h
  · exact h

theorem readComparisons_reports (tokens : List Token) (h : Closes .start tokens) :
    Reports (Closes .start) tokens (readComparisons tokens) := by
  have hnames := closes_readNameComparison h
  apply (readCallOnRight_reports hnames).bind
  rintro ⟨right, taken⟩ hright
  rw [List.drop_drop] at hright
  apply (readCallOnLeft_reports hright).bind
  rintro ⟨left, counted⟩ hleft
  rw [List.drop_drop] at hleft
  exact hleft

theorem readJoinConditions_reports (h : Closes .start tokens) :
    Reports (Closes .start) tokens (readJoinConditions bound tokens) := by
  rw [readJoinConditions_eq_readList]
  apply readList_reports (fun _ h ↦ h) readComparisons_reports _ h
  intro tokens between more h hlink
  obtain ⟨word, rfl⟩ := link?_cases hlink
  exact ⟨_, rfl, h.tail rfl⟩

/-- A part of a FROM clause that is missing takes no token. -/
theorem readFromPart_reports (h : Closes .start tokens) :
    Reports (Closes .start) tokens ((readFromPart tokens).map (·.getD ([], 0))) := by
  unfold readFromPart
  split
  · exact (passesNames_start.readNamed rfl h).bind_map fun _ hfound ↦ hfound
  · exact (passesNames_start.readNamed rfl h).bind_map fun _ hfound ↦ hfound
  · exact h.tail rfl
  · exact (readJoinConditions_reports (h.tail rfl)).bind_map fun _ hfound ↦ hfound
  · exact h.tail rfl
  · exact h

theorem readFromParts_reports (h : Closes .start tokens) :
    Reports (Closes .start) tokens (readFromParts bound tokens) := by
  induction bound generalizing tokens with
  | zero => exact h
  | succ bound ih =>
    have hpart := readFromPart_reports h
    rw [readFromParts]
    cases hfound : readFromPart tokens with
    | error fault =>
      rw [hfound] at hpart
      exact hpart
    | ok found =>
      rw [hfound] at hpart
      cases found with
      | none => exact h
      | some found =>
        apply (ih hpart).bind
        intro others hothers
        rw [List.drop_drop] at hothers
        exact hothers

theorem readFrom_reports (h : Closes .start (token :: rest)) (hkind : token.kind.isPlain = true) :
    Reports (Closes .start) (token :: rest) (readFrom (token :: rest)) := by
  have hparts : Reports (Closes .start) rest (readFromParts rest.length rest) :=
    readFromParts_reports (h.tail hkind)
  exact hparts.bind fun found hfound ↦ hfound

end Joins

/-! ### Statements -/

section Statements

variable {bound count : Nat} {tokens rest : List Token} {token : Token}
  {statements : List Token → Statements}

def ReportsAll (statements : List Token → Statements) : Prop :=
  ∀ tokens, Closes .start tokens → testsLead tokens = true →
    (∀ fault, (statements tokens).fault = some fault → fault.isInvalid = true) ∧
      Closes .start (tokens.drop (totalCount (statements tokens).read))

theorem readColumns_reports (h : Closes .columns tokens) :
    Reports (Closes .source) tokens (readColumns tokens) := by
  induction tokens with
  | nil => cases h
  | cons token rest ih =>
    obtain ⟨kind, text⟩ := token
    rcases Closes.of_listed (fun _ ↦ rfl) h with ⟨rfl, hsource⟩ | ⟨hvalue | rfl, hcolumns⟩
    · exact hsource
    · rw [readColumns, value?_eq, if_pos hvalue]
      exact (ih hcolumns).bind fun found hfound ↦ hfound
    · exact (ih hcolumns).bind fun found hfound ↦ hfound

theorem readColumnList_reports (h : Closes .table tokens) :
    Reports (Closes .source) tokens (readColumnList tokens) := by
  rcases tokens with _ | ⟨⟨kind, text⟩, rest⟩
  · cases h
  · cases kind with
    | openParen => exact (readColumns_reports h).map fun found hfound ↦ hfound
    | _ => exact h

theorem readSource_reports (hstatements : ReportsAll statements) (word table : String)
    (columns : List Node) (h : Closes .source tokens) (htests : testsLead tokens = true) :
    Reports (Closes .start) tokens (readSource statements word table columns tokens) := by
  unfold readSource
  split
  · cases h
  · cases h
  · rename_i selectWord rest
    have hquery := hstatements (⟨.selectWord, selectWord⟩ :: rest) h htests
    dsimp only
    split
    · rename_i fault hfault
      exact hquery.1 fault hfault
    · exact hquery.2
  · exact h

theorem readInsert_reports (hstatements : ReportsAll statements) {word : String}
    (h : Closes .start (⟨.insertWord, word⟩ :: rest)) (htests : testsLead rest = true) :
    Reports (Closes .start) (⟨.insertWord, word⟩ :: rest)
      (readInsert statements (⟨.insertWord, word⟩ :: rest)) := by
  rcases rest with _ | ⟨⟨kind, table⟩, rest⟩
  · cases h
  · cases kind with
    | identifier =>
      rw [readInsert_eq]
      apply (readColumnList_reports h).bind
      intro columns hcolumns
      have hlead := testsLead_drop htests (1 + columns.2)
      rw [← List.drop_drop] at hlead
      apply (readSource_reports hstatements word table columns.1 hcolumns hlead).map
      intro found hfound
      rw [List.drop_drop] at hfound
      have hdrop : (⟨.insertWord, word⟩ :: ⟨.identifier, table⟩ :: rest : List Token).drop
          (2 + columns.2 + found.2) = rest.drop (columns.2 + found.2) := by
        rw [Nat.add_assoc, ← List.drop_drop]
        rfl
      exact hdrop ▸ hfound
    | _ => cases h

theorem readStatement_reports (hstatements : ReportsAll statements)
    (h : Closes .start (token :: rest)) (htests : testsLead (token :: rest) = true) :
    Reports (Closes .start) (token :: rest) (readStatement statements (token :: rest)) := by
  obtain ⟨kind, text⟩ := token
  rw [testsLead, Bool.and_eq_true] at htests
  cases kind with
  | groupWord => exact readGroupBy_reports h rfl
  | fromWord => exact readFrom_reports h rfl
  | func => exact (readCall_reports h).mono fun _ ↦ Closes.of_ended
  | havingWord | whereWord =>
    have hlinks : opensMembership rest = true → linksLead rest = true := by
      intro hopens
      simpa [hopens] using htests.1
    exact (readConditions_reports (h.tail rfl) hlinks).bind fun _ hfound ↦ hfound
  | insertWord => exact readInsert_reports hstatements h htests.2
  | limitWord => exact readLimit_reports h
  | orderWord => exact readOrderBy_reports h rfl
  | selectWord => exact readSelect_reports h rfl
  | semicolon => exact h.tail rfl
  | closeParen => cases h
  | _ => rfl

theorem readStatements_reports (bound : Nat) : ReportsAll (readStatements bound) := by
  induction bound with
  | zero =>
    intro tokens h _
    refine ⟨fun _ hfault ↦ ?_, h⟩
    cases hfault
  | succ bound ih =>
    intro tokens h htests
    cases tokens with
    | nil =>
      refine ⟨fun _ hfault ↦ ?_, h⟩
      cases hfault
    | cons token rest =>
      have hstatement := readStatement_reports ih h htests
      rw [readStatements]
      cases hread : readStatement (readStatements bound) (token :: rest) with
      | error fault =>
        rw [hread] at hstatement
        refine ⟨fun _ hfault ↦ ?_, h⟩
        cases hfault
        exact hstatement
      | ok found =>
        rw [hread] at hstatement
        obtain ⟨hfault, hends⟩ := ih _ hstatement (testsLead_drop htests _)
        rw [List.drop_drop] at hends
        exact ⟨hfault, hends⟩

/-- If guarded tokens cannot be read, a defect of them is reported. -/
theorem isInvalid_of_parse (h : isGuarded tokens = true) {fault : Fault}
    (hparse : parse tokens = .error fault) : fault.isInvalid = true := by
  rw [isGuarded, Bool.and_eq_true] at h
  have hreports := (readStatements_reports tokens.length tokens h.1 h.2).1
  unfold parse at hparse
  split at hparse
  · rename_i stop hstop
    cases hparse
    exact hreports fault hstop
  · cases hparse

end Statements

end SqlLayout.Read
