import SqlLayout.Proofs.Words.Keywords
import SqlLayout.Proofs.Words.Losses

/-!
# Parentheses that open

Where a parenthesis opens in a text, outside literals and named placeholders, can be told without the rules
for words.  Such a parenthesis is a token of its own at its place in the text, or it is the last character of
a number or of a keyword that was taken for the name of a function.  So the parentheses of a text are those
among its tokens exactly if no token keeps one.
-/

namespace SqlLayout

open Text Word

namespace Word

def coveredLength? : List Char → Option Nat
  | [] => none
  | c :: rest =>
    if isQuote c then (rest.idxOf? c).map (· + 2) else Rule.namedPlaceholder.length? (c :: rest)

/-- The places of the parentheses that open in a text, outside literals and named placeholders.  The text
starts at `place`, and its first `skip` characters lie in a literal or a named placeholder. -/
def openParens : (place skip : Nat) → List Char → List Nat
  | _, _, [] => []
  | place, skip + 1, _ :: rest => openParens (place + 1) skip rest
  | place, 0, c :: rest =>
    match coveredLength? (c :: rest) with
    | some n => openParens (place + 1) (n - 1) rest
    | none =>
      if c = '(' then place :: openParens (place + 1) 0 rest else openParens (place + 1) 0 rest

def isOrdinary (c : Char) : Bool :=
  !isQuote c && c != '%' && c != '('

section Places

variable {c : Char} {word tail rest : List Char} {place : Nat}

theorem openParens_skip (place skip : Nat) (text : List Char) :
    openParens place skip text = openParens (place + skip) 0 (text.drop skip) := by
  induction text generalizing place skip with
  | nil => simp [openParens]
  | cons c rest ih =>
    cases skip with
    | zero => rfl
    | succ skip => rw [openParens, ih, List.drop_succ_cons, Nat.add_assoc, Nat.add_comm 1]

theorem openParens_covered (h : coveredLength? (c :: (tail ++ rest)) = some (tail.length + 1)) :
    openParens place 0 (c :: (tail ++ rest)) = openParens (place + (tail.length + 1)) 0 rest := by
  rw [openParens, h]
  dsimp only
  rw [openParens_skip, Nat.add_sub_cancel, List.drop_left, Nat.add_assoc, Nat.add_comm 1]

theorem openParens_uncovered (h : coveredLength? (c :: rest) = none) (hc : c ≠ '(') :
    openParens place 0 (c :: rest) = openParens (place + 1) 0 rest := by
  rw [openParens, h]
  exact if_neg hc

theorem openParens_paren : openParens place 0 ('(' :: rest) = place :: openParens (place + 1) 0 rest := rfl

theorem coveredLength?_of_isOrdinary (h : isOrdinary c = true) : coveredLength? (c :: rest) = none := by
  simp only [isOrdinary, Bool.and_eq_true, Bool.not_eq_true', bne_iff_ne] at h
  simp [coveredLength?, h.1.1, Rule.length?, h.1.2]

theorem openParens_ordinary (h : word.all isOrdinary = true) :
    openParens place 0 (word ++ rest) = openParens (place + word.length) 0 rest := by
  induction word generalizing place with
  | nil => rfl
  | cons c word ih =>
    simp only [List.all_cons, Bool.and_eq_true] at h
    have hparen : c ≠ '(' := by
      rintro rfl
      exact absurd h.1 (by decide)
    rw [List.cons_append, openParens_uncovered (coveredLength?_of_isOrdinary h.1) hparen, ih h.2,
      List.length_cons, Nat.add_assoc, Nat.add_comm 1]

theorem isOrdinary_of_class {p : Char → Bool} (hp : ['"', '\'', '%', '('].all (!p ·) = true)
    (h : p c = true) : isOrdinary c = true := by
  rw [← Bool.not_eq_false]
  intro hnot
  have hmem : c ∈ ['"', '\'', '%', '('] := by
    simp only [isOrdinary, isQuote, Bool.and_eq_false_iff, Bool.not_eq_false', Bool.or_eq_true, beq_iff_eq,
      bne_eq_false_iff_eq] at hnot
    simpa [or_assoc] using hnot
  have hout := List.all_eq_true.mp hp c hmem
  rw [h] at hout
  cases hout

theorem isOrdinary_of_isWordChar (h : isWordChar c = true) : isOrdinary c = true :=
  isOrdinary_of_class (by decide) h

theorem isOrdinary_of_isBlank (h : isBlank c = true) : isOrdinary c = true :=
  isOrdinary_of_class (by decide) h

theorem all_isOrdinary_of_isWordChar (h : word.all isWordChar = true) : word.all isOrdinary = true := by
  rw [List.all_eq_true] at h ⊢
  exact fun c hc ↦ isOrdinary_of_isWordChar (h c hc)

theorem all_isOrdinary_of_isBlank (h : word.all isBlank = true) : word.all isOrdinary = true := by
  rw [List.all_eq_true] at h ⊢
  exact fun c hc ↦ isOrdinary_of_isBlank (h c hc)

theorem covers_isOrdinary : Covers isOrdinary where
  word := isOrdinary_of_isWordChar
  blank := isOrdinary_of_isBlank
  mark := by simp [isOrdinary, isQuote]

theorem coveredLength?_of_dropped (hquote : isQuote c = false) (h : startOf c rest = .dropped) :
    coveredLength? (c :: rest) = none ∧ c ≠ '(' := by
  have hdropped := (startOf_eq_dropped_iff hquote).mp h
  constructor
  · cases hfound : Rule.namedPlaceholder.length? (c :: rest) with
    | none => simpa [coveredLength?, hquote] using hfound
    | some n => exact absurd (isKept_of_length? (by decide) hfound) hdropped
  · rintro rfl
    exact hdropped (.mark (by decide))

/-! ### The parentheses of one word -/

/-- A word that ends in no parenthesis and is no placeholder has ordinary characters only. -/
theorem all_isOrdinary_of_startOf (hquote : isQuote c = false) (hpercent : c ≠ '%')
    (hlast : (c :: tail).getLast? ≠ some '(') (h : startOf c tail = .word (tail.length + 1)) :
    (c :: tail).all isOrdinary = true := by
  have hspelled : ∀ rule ∈ rules, rule.isSpelledIn isOrdinary = true ∨
      rule ∈ [.symbol "(", .callHead, .namedPlaceholder, .placeholder] := by decide
  rw [startOf_eq_word_of_not_isQuote hquote] at h
  obtain ⟨rule, hrule, h⟩ := List.exists_of_findSome?_eq_some h
  rcases hspelled rule hrule with hspelled | hrule
  · have hall := (Rule.reaches covers_isOrdinary hspelled h).2
    rwa [← List.length_cons, List.take_length] at hall
  · exfalso
    simp only [List.mem_cons, List.not_mem_nil, or_false] at hrule
    rcases hrule with rfl | rfl | rfl | rfl
    · obtain ⟨hstarts, hlength⟩ := Rule.length?_symbol_eq_some.mp h
      obtain ⟨rfl, -⟩ := List.cons_prefix_cons.mp hstarts
      obtain rfl : tail = [] := List.eq_nil_of_length_eq_zero (Nat.succ.inj hlength).symm
      exact hlast rfl
    · obtain ⟨name, gap, htext, -⟩ := exists_of_callHead h
      rw [htext, List.getLast?_concat] at hlast
      exact hlast rfl
    · simp [Rule.length?, hpercent] at h
    · simp [Rule.length?, hpercent] at h

/-- No parenthesis that is not covered opens in a word that ends in none. -/
theorem openParens_word (hquote : isQuote c = false) (hlast : (c :: tail).getLast? ≠ some '(')
    (h : startOf c (tail ++ rest) = .word (tail.length + 1)) :
    openParens place 0 (c :: (tail ++ rest)) = openParens (place + (tail.length + 1)) 0 rest := by
  by_cases hpercent : c = '%'
  · subst hpercent
    rw [startOf_eq_word_of_not_isQuote hquote, findSome?_percent] at h
    rcases Option.or_eq_some_iff.mp h with hnamed | ⟨hnamed, h⟩
    · exact openParens_covered (by simpa [coveredLength?, hquote] using hnamed)
    · -- The short placeholder is the sign and one letter.
      have hopen : coveredLength? ('%' :: (tail ++ rest)) = none := by
        simpa [coveredLength?, hquote] using hnamed
      obtain ⟨s, more, heq, hs, hlength⟩ := Rule.length?_placeholder_eq_some.mp h
      obtain ⟨d, rfl⟩ : ∃ d, tail = [d] := List.length_eq_one_iff.mp (by omega)
      obtain ⟨rfl, -⟩ : d = s ∧ rest = more := by simpa using heq
      have hd : [d].all isOrdinary = true := by
        simpa using isOrdinary_of_isWordChar (isWordChar_of_spells (by decide) hs)
      rw [openParens_uncovered hopen (by decide), openParens_ordinary hd, Nat.add_assoc,
        Nat.add_comm 1]
  · have hall := all_isOrdinary_of_startOf hquote hpercent hlast (startOf_alone h)
    exact openParens_ordinary hall

theorem openParens_head {name gap : List Char} (hname : name.all isWordChar = true)
    (hgap : gap.all isBlank = true) :
    openParens place 0 (name ++ gap ++ ['('] ++ rest) =
      (place + (name ++ gap).length) :: openParens (place + (name ++ gap).length + 1) 0 rest := by
  have hall : (name ++ gap).all isOrdinary = true := by
    rw [List.all_append, all_isOrdinary_of_isWordChar hname, all_isOrdinary_of_isBlank hgap, Bool.and_self]
  rw [List.append_assoc, openParens_ordinary hall, List.singleton_append, openParens_paren]

end Places

end Word

/-! ### Words that keep a parenthesis -/

/-- The kinds of words that may keep the parenthesis behind them: numbers, and keywords that no rule in front
of the one for heads of calls finds alone. -/
def Kind.keepsParen : Kind → Bool
  | number | insertWord | groupWord | orderWord | rollupWord | betweenWord | caseWord | whenWord
  | thenWord | elseWord => true
  | _ => false

/-- The name of a keyword is in capitals, and a rule in front of the one for heads of calls finds it. -/
def Kind.isFoundFirst (kind : Kind) : Bool :=
  kind.name.toList.all Char.isUpper && !hasExpansion kind.name.toList &&
    (rules.takeWhile (· != .callHead)).contains kind.rule

def Token.keepsParen (token : Token) : Bool :=
  token.kind.keepsParen && token.text.toList.getLast? == some '('

/-- The text of a token is a name, blanks and a parenthesis.  The name starts with a digit, or it is the
keyword and a blank follows it. -/
def Token.IsGlued (token : Token) : Prop :=
  ∃ name gap, token.text.toList = name ++ gap ++ ['('] ∧ name.all isWordChar = true ∧
    gap.all isBlank = true ∧
    (token.kind = .number ∧ name.head?.any isDigit = true ∨
      token.kind ≠ .number ∧ gap ≠ [] ∧ upper (String.ofList name) = token.kind.name)

theorem Kind.ofWord?_ne_join (text : List Char) :
    Kind.ofWord? (String.ofList (text ++ ['('])) ≠ some .join := by
  obtain ⟨others, front, hpieces⟩ := exists_last_piecesFrom (c := '(') (by decide) [] text
  have hkeywords : ∀ entry ∈ Kind.keywords, entry.2 ≠ .join := by decide
  intro h
  simp only [Kind.ofWord?, Kind.recognise?] at h
  split at h
  · cases h
  · rename_i first rest hword
    simp only [Option.join_some, Kind.ofPieces?] at h
    split at h
    · rename_i found hlookup
      cases h
      obtain ⟨before, behind, hsplit, -⟩ := List.lookup_eq_some_iff.mp hlookup
      exact hkeywords _ (hsplit ▸ List.mem_append_right _ List.mem_cons_self) rfl
    · split at h
      · rename_i hjoin
        -- The last piece ends in the parenthesis.
        have hlast : (first :: rest).getLast? = some (String.ofList (front ++ ['('])) := by
          rw [← hword, pieces, String.toList_ofList, hpieces, List.map_append, List.map_singleton,
            List.getLast?_concat]
        rw [List.getLast?_eq_some_getLast (List.cons_ne_nil _ _), Option.some.injEq] at hlast
        rw [hlast] at hjoin
        have hparen : upperChar '(' = ['('] := by decide
        have hupper : (upper (String.ofList (front ++ ['(']))).toList.getLast? = some '(' := by
          simp [upper, hparen]
        rw [hjoin] at hupper
        cases hupper
      · cases h

theorem takeWhile_of_blanks {name gap rest : List Char} (hname : name.all isWordChar = true)
    (hgap : gap.all isBlank = true) (hne : gap ≠ []) :
    (name ++ gap ++ rest).takeWhile (!isBlank ·) = name := by
  cases gap with
  | nil => exact absurd rfl hne
  | cons blank gap =>
    simp only [List.all_cons, Bool.and_eq_true] at hgap
    rw [List.append_assoc, List.takeWhile_append_of_pos fun c hc ↦ by simp [not_isBlank_of_all hname hc],
      List.cons_append, List.takeWhile_cons_of_neg (by simp [hgap.1]), List.append_nil]

/-- The rule of a keyword finds it in front of a parenthesis. -/
theorem Kind.length?_rule {kind : Kind} {name gap : List Char}
    (hcapitals : kind.name.toList.all Char.isUpper = true)
    (hexpansion : hasExpansion kind.name.toList = false)
    (hupper : name.flatMap upperChar = kind.name.toList) (hgap : gap.all isBlank = true) :
    kind.rule.length? (name ++ gap ++ ['(']) = some name.length := by
  obtain ⟨hspelled, hlength⟩ := spelledLength?_of_upper hcapitals hexpansion hupper (gap ++ ['('])
  rw [← hlength] at hspelled
  simp [Kind.rule, Rule.length?, phraseLength?, hspelled, atWordEnd_gap hgap]

/-- A keyword that is taken for the name of a function has a blank behind it and keeps the parenthesis. -/
theorem Kind.keepsParen_of_ofWord? {c : Char} {tail name gap : List Char} {kind : Kind}
    (hstart : startOf c (tail ++ ['(']) = .word (tail.length + 2))
    (htext : c :: tail ++ ['('] = name ++ gap ++ ['(']) (hne : name ≠ [])
    (hname : name.all isWordChar = true) (hgap : gap.all isBlank = true)
    (h : Kind.ofWord? (String.ofList (name ++ gap ++ ['('])) = some kind) :
    kind.keepsParen = true ∧ gap ≠ [] ∧ name.flatMap upperChar = kind.name.toList := by
  have hkinds : ∀ kind ∈ Kind.keywords.map Prod.snd,
      kind.keepsParen = true ∨ kind.isSign = true ∨ kind.isFoundFirst = true := by decide +kernel
  obtain ⟨hcall, front, back, hrules, hfront⟩ := callHead_of_paren hstart
  have hjoin : kind ≠ .join := by
    rintro rfl
    exact Kind.ofWord?_ne_join _ h
  have hgap_ne : gap ≠ [] := by
    rintro rfl
    rw [List.append_nil, ofWord?_of_name hne hname] at h
    cases h
  obtain ⟨more, rfl⟩ : ∃ more, name = c :: more := by
    cases name with
    | nil => exact absurd rfl hne
    | cons d more => exact ⟨more, by rw [(List.cons.inj htext).1]⟩
  have hupper : ((c :: more ++ gap ++ ['(']).takeWhile (!isBlank ·)).flatMap upperChar = kind.name.toList :=
    upper_of_ofWord? (not_isBlank_of_all hname List.mem_cons_self) h hjoin
  rw [takeWhile_of_blanks hname hgap hgap_ne] at hupper
  refine ⟨?_, hgap_ne, hupper⟩
  rcases hkinds kind ((Kind.mem_of_ofWord? h).resolve_right fun hor ↦ hjoin hor.1) with
    hkeeps | hsign | hfirst
  · exact hkeeps
  · obtain ⟨sign, hsigned, hsign, hcut⟩ := Kind.exists_of_isSign hsign
    rw [hsigned] at hupper
    obtain rfl := eq_of_flatMap_upperChar_sign hsign hupper
    rw [hcut] at hstart
    cases hstart
  · -- The keyword's own rule would have found it first.
    simp only [Kind.isFoundFirst, Bool.and_eq_true, Bool.not_eq_true', List.contains_iff_mem] at hfirst
    obtain ⟨⟨hcapitals, hexpansion⟩, hmem⟩ := hfirst
    have hother : ∀ rule ∈ front, (rule != .callHead) = true := by
      intro rule hrule
      rw [bne_iff_ne]
      rintro rfl
      rw [hfront _ hrule] at hcall
      cases hcall
    rw [hrules, List.takeWhile_append_of_pos hother, List.takeWhile_cons_of_neg (by simp),
      List.append_nil] at hmem
    have hnone := hfront _ hmem
    rw [htext, Kind.length?_rule hcapitals hexpansion hupper hgap] at hnone
    cases hnone

theorem kind_ne_number_of_ofWord? {word : String} {kind : Kind} (h : Kind.ofWord? word = some kind) :
    kind ≠ .number := by
  have hkeywords : ∀ kind ∈ Kind.keywords.map Prod.snd, kind ≠ .number := by decide
  rcases Kind.mem_of_ofWord? h with hmem | ⟨rfl, -⟩
  · exact hkeywords kind hmem
  · decide

/-- A name that is taken for a number starts with a digit. -/
theorem isDigit_of_isNumber {name rest : List Char} (hne : name ≠ []) (hname : name.all isWordChar = true)
    (h : Token.isNumber (String.ofList (name ++ rest)) = true) : name.head?.any isDigit = true := by
  cases name with
  | nil => exact absurd rfl hne
  | cons c more =>
    have hc := List.all_eq_true.mp hname c List.mem_cons_self
    rw [List.cons_append, isNumber_ofList] at h
    simp only [Bool.or_eq_true, beq_iff_eq] at h
    rcases h with (hdigit | rfl) | rfl
    · simpa using hdigit
    · exact absurd hc (by decide)
    · exact absurd hc (by decide)

/-! ### Tokens at their places -/

/-- Tokens with their places in a text that starts at `place`.  Each token is spelled in the text from its
place on, behind the token in front of it. -/
inductive Placed : (place : Nat) → List Char → List (Token × Nat) → Prop
  | nil {place : Nat} {text : List Char} : Placed place text []
  | cons {place : Nat} {gap rest : List Char} {token : Token} {placed : List (Token × Nat)} :
      Placed (place + gap.length + token.text.toList.length) rest placed →
      Placed place (gap ++ (token.text.toList ++ rest)) ((token, place + gap.length) :: placed)

namespace Placed

variable {place : Nat} {rest : List Char} {token : Token} {placed : List (Token × Nat)}

theorem skip {gap : List Char} (h : Placed (place + gap.length) rest placed) :
    Placed place (gap ++ rest) placed := by
  generalize hstart : place + gap.length = start at h
  cases h with
  | nil => exact nil
  | @cons _ front rest token placed h =>
    subst hstart
    have hlength : place + gap.length + front.length = place + (gap ++ front).length := by
      rw [List.length_append, Nat.add_assoc]
    rw [hlength] at h ⊢
    rw [← List.append_assoc]
    exact cons h

theorem head {word : List Char} (htext : token.text.toList = word)
    (h : Placed (place + word.length) rest placed) :
    Placed place (word ++ rest) ((token, place) :: placed) := by
  subst htext
  exact @cons place [] rest token placed h

end Placed

def parenPlace? (entry : Token × Nat) : Option Nat :=
  if entry.1.kind = .openParen then some entry.2
  else if entry.1.keepsParen then some (entry.2 + (entry.1.text.toList.length - 1))
  else none

/-- Tokens have places in a text, and the parentheses of the text are those that the tokens are or keep.  It
is to a name that a parenthesis is kept. -/
def HoldParens (place : Nat) (text : List Char) (tokens : List Token) : Prop :=
  (∀ token ∈ tokens, token.keepsParen = true → token.IsGlued) ∧
    ∃ placed, Placed place text placed ∧ placed.map Prod.fst = tokens ∧
      openParens place 0 text = placed.filterMap parenPlace?

namespace HoldParens

variable {c : Char} {text tail rest name gap : List Char} {kind : Kind} {token : Token}
  {tokens : List Token} {place : Nat}

theorem dropped (hcovered : coveredLength? (c :: rest) = none) (hc : c ≠ '(')
    (h : HoldParens (place + 1) rest tokens) : HoldParens place (c :: rest) tokens := by
  obtain ⟨hglued, placed, hplaced, htokens, hparens⟩ := h
  refine ⟨hglued, placed, @Placed.skip place rest placed [c] hplaced, htokens, ?_⟩
  rw [openParens_uncovered hcovered hc, hparens]

theorem ordinary (hgap : gap.all isOrdinary = true) (h : HoldParens (place + gap.length) rest tokens) :
    HoldParens place (gap ++ rest) tokens := by
  obtain ⟨hglued, placed, hplaced, htokens, hparens⟩ := h
  exact ⟨hglued, placed, hplaced.skip, htokens, by rw [openParens_ordinary hgap, hparens]⟩

theorem paren (h : HoldParens (place + 1) rest tokens) :
    HoldParens place ('(' :: rest) (⟨.openParen, "("⟩ :: tokens) := by
  obtain ⟨hglued, placed, hplaced, rfl, hrest⟩ := h
  have htext : (⟨.openParen, "("⟩ : Token).text.toList = ['('] := rfl
  have hkeeps : (⟨.openParen, "("⟩ : Token).keepsParen ≠ true := by decide
  refine ⟨List.forall_mem_cons.mpr ⟨fun h ↦ absurd h hkeeps, hglued⟩, _ :: placed,
    hplaced.head htext, rfl, ?_⟩
  rw [openParens_paren, hrest]
  rfl

/-- A token without a parenthesis of its own. -/
theorem plain (htext : token.text.toList = text) (hkind : token.kind ≠ .openParen)
    (hkeeps : token.keepsParen = false)
    (hparens : openParens place 0 (text ++ rest) = openParens (place + text.length) 0 rest)
    (h : HoldParens (place + text.length) rest tokens) :
    HoldParens place (text ++ rest) (token :: tokens) := by
  obtain ⟨hglued, placed, hplaced, rfl, hrest⟩ := h
  refine ⟨List.forall_mem_cons.mpr ⟨fun h ↦ ?_, hglued⟩, (token, place) :: placed,
    hplaced.head htext, rfl, ?_⟩
  · rw [hkeeps] at h
    cases h
  · have hnone : parenPlace? (token, place) = none := by simp [parenPlace?, hkind, hkeeps]
    rw [hparens, hrest, List.filterMap_cons_none hnone]

/-- A name and the parenthesis behind it are tokens of their own. -/
theorem call (hname : name.all isWordChar = true) (hgap : gap.all isBlank = true)
    (hkind : kind = .func ∨ kind = .identifier)
    (h : HoldParens (place + (name ++ gap ++ ['(']).length) rest tokens) :
    HoldParens place (name ++ gap ++ ['('] ++ rest)
      (⟨kind, String.ofList name⟩ :: ⟨.openParen, "("⟩ :: tokens) := by
  simp only [List.length_append, List.length_singleton, ← Nat.add_assoc] at h
  have hparen := h.paren.ordinary (all_isOrdinary_of_isBlank hgap)
  have hwords : openParens place 0 (name ++ (gap ++ '(' :: rest)) =
      openParens (place + name.length) 0 (gap ++ '(' :: rest) :=
    openParens_ordinary (all_isOrdinary_of_isWordChar hname)
  rw [List.append_assoc, List.append_assoc, List.singleton_append]
  rcases hkind with rfl | rfl
  · exact hparen.plain String.toList_ofList (by simp) rfl hwords
  · exact hparen.plain String.toList_ofList (by simp) rfl hwords

/-- A word that is taken for a name keeps the parenthesis behind it. -/
theorem kept (hname : name.all isWordChar = true) (hgap : gap.all isBlank = true)
    (hkind : kind.keepsParen = true)
    (hkept : Token.IsGlued ⟨kind, String.ofList (name ++ gap ++ ['('])⟩)
    (h : HoldParens (place + (name ++ gap ++ ['(']).length) rest tokens) :
    HoldParens place (name ++ gap ++ ['('] ++ rest)
      (⟨kind, String.ofList (name ++ gap ++ ['('])⟩ :: tokens) := by
  obtain ⟨hglued, placed, hplaced, rfl, hrest⟩ := h
  have hopen : kind ≠ .openParen := by
    rintro rfl
    cases hkind
  have hplace : parenPlace? (⟨kind, String.ofList (name ++ gap ++ ['('])⟩, place) =
      some (place + (name ++ gap).length) := by
    simp [parenPlace?, hopen, Token.keepsParen, hkind]
  have htext : (⟨kind, String.ofList (name ++ gap ++ ['('])⟩ : Token).text.toList = name ++ gap ++ ['('] :=
    String.toList_ofList
  refine ⟨List.forall_mem_cons.mpr ⟨fun _ ↦ hkept, hglued⟩, _ :: placed, hplaced.head htext, rfl, ?_⟩
  rw [openParens_head hname hgap, List.filterMap_cons_some hplace, ← hrest]
  simp [Nat.add_assoc]

/-- A word that ends in a parenthesis. -/
theorem word_of_paren (hstart : startOf c tail = .word (tail.length + 1))
    (hparen : (c :: tail).getLast? = some '(') (last : Option Kind)
    (h : HoldParens (place + (c :: tail).length) rest tokens) :
    HoldParens place (c :: tail ++ rest) (Token.ofWord last (String.ofList (c :: tail)) ++ tokens) := by
  obtain ⟨front, hfront⟩ := List.getLast?_eq_some_iff.mp hparen
  cases front with
  | nil =>
    rw [hfront] at h ⊢
    exact h.paren
  | cons d more =>
    rw [List.cons_append, List.cons.injEq] at hfront
    obtain ⟨rfl, rfl⟩ := hfront
    rw [List.length_append] at hstart
    obtain ⟨name, gap, htext, hne, hname, hgap⟩ :=
      exists_of_callHead ((callHead_of_paren hstart).1.trans (by simp))
    rw [← List.cons_append, htext] at h ⊢
    cases hkind : Kind.ofWord? (String.ofList (name ++ gap ++ ['('])) with
    | some kind =>
      obtain ⟨hkeeps, hgap_ne, hupper⟩ :=
        Kind.keepsParen_of_ofWord? hstart htext hne hname hgap hkind
      have hkeyword : upper (String.ofList name) = kind.name := by
        apply String.toList_inj.mp
        rw [upper, String.toList_ofList, String.toList_ofList, hupper]
      have hglued : Token.IsGlued ⟨kind, String.ofList (name ++ gap ++ ['('])⟩ :=
        ⟨name, gap, String.toList_ofList, hname, hgap,
          .inr ⟨kind_ne_number_of_ofWord? hkind, hgap_ne, hkeyword⟩⟩
      rw [Token.ofWord, hkind]
      exact h.kept hname hgap hkeeps hglued
    | none =>
      rw [Token.ofWord, hkind]
      dsimp only
      split
      · rename_i hnumber
        rw [List.append_assoc] at hnumber
        exact h.kept hname hgap rfl ⟨name, gap, String.toList_ofList, hname, hgap,
          .inl ⟨rfl, isDigit_of_isNumber hne hname hnumber⟩⟩
      · rw [String.toList_ofList, List.getLast?_concat, if_pos rfl, List.dropLast_concat,
          trim_of_blanks hname hgap]
        refine h.call hname hgap ?_
        split
        · exact .inr rfl
        · exact .inl rfl

theorem word (hquote : isQuote c = false) (hstart : startOf c (tail ++ rest) = .word (tail.length + 1))
    (last : Option Kind) (h : HoldParens (place + (c :: tail).length) rest tokens) :
    HoldParens place (c :: tail ++ rest) (Token.ofWord last (String.ofList (c :: tail)) ++ tokens) := by
  have halone := startOf_alone hstart
  by_cases hparen : (c :: tail).getLast? = some '('
  · exact h.word_of_paren halone hparen last
  · rcases Token.ofWord_cases (String.ofList (c :: tail)) with
      ⟨token, htext, htoken, -⟩ | ⟨-, -, hlast, -⟩
    · have hlist : token.text.toList = c :: tail := by rw [htext, String.toList_ofList]
      have hwhole := Token.isWhole_of_isWord ⟨c, tail, String.toList_ofList, halone⟩ htext (htoken none)
      have hkind : token.kind ≠ .openParen := by
        intro hkind
        have hsign := Token.text_of_isSign hwhole (by rw [hkind]; rfl)
        rw [hkind] at hsign
        rw [← hlist, hsign] at hparen
        exact hparen rfl
      have hkeeps : token.keepsParen = false := by simp [Token.keepsParen, hlist, hparen]
      rw [htoken last]
      exact h.plain hlist hkind hkeeps (openParens_word hquote hparen hstart)
    · rw [String.toList_ofList] at hlast
      exact absurd hlast hparen

theorem literal {inner : List Char} (hquote : isQuote c = true) (hinner : c ∉ inner) (last : Option Kind)
    (h : HoldParens (place + (c :: (inner ++ [c])).length) rest tokens) :
    HoldParens place (c :: (inner ++ [c]) ++ rest)
      (Token.ofWord last (String.ofList (c :: (inner ++ [c]))) ++ tokens) := by
  have hliteral : IsLiteral (String.ofList (c :: (inner ++ [c]))).toList := by
    rw [String.toList_ofList]
    exact ⟨c, inner, hquote, hinner, rfl⟩
  rw [Token.ofWord_of_isLiteral last hliteral]
  refine h.plain String.toList_ofList (by simp) rfl (openParens_covered ?_)
  simp [coveredLength?, hquote, idxOf?_append_cons hinner]

end HoldParens

/-- The induction is on the length of the text, as a word takes several characters at once. -/
theorem holdParens_cutFrom (text : List Char) (place : Nat) (last : Option Kind)
    (hclosed : (cutFrom 0 text).unclosed = none) :
    HoldParens place text (Token.ofWords last (cutFrom 0 text).words) := by
  cases htext : text with
  | nil => exact ⟨fun _ hmem ↦ absurd hmem List.not_mem_nil, [], .nil, rfl, rfl⟩
  | cons c rest =>
    rw [htext] at hclosed
    cases hquote : isQuote c with
    | true =>
      rcases startOf_of_isQuote hquote rest with ⟨hstart, -⟩ | ⟨inner, more, hinner, rfl, hstart⟩
      · rw [cutFrom, hstart] at hclosed
        cases hclosed
      · have hsplit : inner ++ c :: more = inner ++ [c] ++ more := by simp
        have hlength : inner.length + 2 = (inner ++ [c]).length + 1 := by simp
        rw [hsplit, hlength] at hstart
        rw [hsplit] at hclosed ⊢
        rw [cutFrom_word hstart] at hclosed ⊢
        exact (holdParens_cutFrom more _ _ hclosed).literal hquote hinner last
    | false =>
      cases hstart : startOf c rest with
      | unclosed => exact absurd hstart (startOf_ne_unclosed hquote)
      | dropped =>
        have hcut : cutFrom 0 (c :: rest) = cutFrom 0 rest := by rw [cutFrom, hstart]
        rw [hcut] at hclosed ⊢
        obtain ⟨hcovered, hc⟩ := coveredLength?_of_dropped hquote hstart
        exact (holdParens_cutFrom rest _ last hclosed).dropped hcovered hc
      | word n =>
        obtain ⟨tail, more, rfl, rfl⟩ := exists_append_of_startOf hstart
        rw [cutFrom_word hstart] at hclosed ⊢
        exact (holdParens_cutFrom more _ _ hclosed).word hquote hstart last
termination_by text.length
decreasing_by
  all_goals simp only [htext, List.length_cons, List.length_append]; omega

/-! ### The parentheses of a text -/

theorem length_filterMap_parenPlace? (placed : List (Token × Nat)) :
    (placed.filterMap parenPlace?).length =
      (placed.map Prod.fst).countP (·.kind = .openParen) +
        (placed.map Prod.fst).countP Token.keepsParen := by
  induction placed with
  | nil => rfl
  | cons entry placed ih =>
    by_cases hkind : entry.1.kind = .openParen
    · have hkeeps : entry.1.keepsParen = false := by simp [Token.keepsParen, hkind, Kind.keepsParen]
      simp [parenPlace?, hkind, hkeeps, ih]
      omega
    · cases hkeeps : entry.1.keepsParen with
      | true =>
        simp [parenPlace?, hkind, hkeeps, ih]
        omega
      | false => simp [parenPlace?, hkind, hkeeps, ih]

theorem filterMap_parenPlace? {placed : List (Token × Nat)}
    (h : ∀ token ∈ placed.map Prod.fst, token.keepsParen = false) :
    placed.filterMap parenPlace? = (placed.filter (·.1.kind = .openParen)).map Prod.snd := by
  induction placed with
  | nil => rfl
  | cons entry placed ih =>
    rw [List.map_cons, List.forall_mem_cons] at h
    by_cases hkind : entry.1.kind = .openParen
    · simp [parenPlace?, hkind, ih h.2]
    · simp [parenPlace?, hkind, h.1, ih h.2]

theorem holdParens_of_tokensOf {text : String} {tokens : List Token} (h : tokensOf text = .ok tokens) :
    HoldParens 0 text.toList tokens := by
  unfold tokensOf at h
  split at h
  · cases h
  · rename_i hclosed
    cases h
    exact holdParens_cutFrom text.toList 0 none hclosed

/-- As many parentheses open in a text as stand among its tokens exactly if no token keeps one. -/
theorem HoldParens.length_eq_iff {text : List Char} {tokens : List Token} (h : HoldParens 0 text tokens) :
    (openParens 0 0 text).length = tokens.countP (·.kind = .openParen) ↔
      ∀ token ∈ tokens, token.keepsParen = false := by
  obtain ⟨-, placed, -, rfl, hparens⟩ := h
  have hnone : (placed.map Prod.fst).countP Token.keepsParen = 0 ↔
      ∀ token ∈ placed.map Prod.fst, token.keepsParen = false := by
    rw [List.countP_eq_zero]
    simp only [Bool.not_eq_true]
  rw [hparens, length_filterMap_parenPlace?, Nat.add_eq_left, hnone]

/-- The parentheses of a text are those that its tokens are or keep.  They are as many as the parentheses
among the tokens exactly if no token keeps one, and exactly then the tokens stand in the text so that the
parentheses among them are all those of the text. -/
theorem openParens_eq_iff {text : String} {tokens : List Token} (h : tokensOf text = .ok tokens) :
    HoldParens 0 text.toList tokens ∧
      ((openParens 0 0 text.toList).length = tokens.countP (·.kind = .openParen) ↔
        ∀ token ∈ tokens, token.keepsParen = false) ∧
      ((∃ placed, Placed 0 text.toList placed ∧ placed.map Prod.fst = tokens ∧
          openParens 0 0 text.toList = (placed.filter (·.1.kind = .openParen)).map Prod.snd) ↔
        ∀ token ∈ tokens, token.keepsParen = false) := by
  have hhold := holdParens_of_tokensOf h
  refine ⟨hhold, hhold.length_eq_iff, ?_, ?_⟩
  · rintro ⟨placed, -, htokens, hparens⟩
    rw [← hhold.length_eq_iff, hparens, ← htokens, List.length_map, List.countP_map,
      List.countP_eq_length_filter]
    rfl
  · intro hkeeps
    obtain ⟨-, placed, hplaced, rfl, hparens⟩ := hhold
    exact ⟨placed, hplaced, rfl, hparens.trans (filterMap_parenPlace? hkeeps)⟩

/-- A text with parentheses behind the name of a function and behind a keyword, and with others in a literal
and in a placeholder. -/
def guardedSearch : String :=
  "select count (a), '(' from b where c in (%(d)s)"

def openWhen : String :=
  "case when (a"

theorem tokenize_guardedSearch_openWhen :
    ((tokenize guardedSearch).unclosed = none ∧
      ∀ token ∈ (tokenize guardedSearch).tokens, token.keepsParen = false) ∧
    openParens 0 0 guardedSearch.toList = [13, 40] ∧
    tokenize openWhen = ⟨[⟨.caseWord, "case"⟩, ⟨.whenWord, "when ("⟩, ⟨.identifier, "a"⟩], none⟩ ∧
    openParens 0 0 openWhen.toList = [10] := by
  decide +kernel

theorem openParens_guardedSearch :
    ∃ tokens, tokensOf guardedSearch = .ok tokens ∧ (∀ token ∈ tokens, token.keepsParen = false) ∧
      tokens.countP (·.kind = .openParen) = 2 ∧
      ∃ placed, Placed 0 guardedSearch.toList placed ∧ placed.map Prod.fst = tokens ∧
        (placed.filter (·.1.kind = .openParen)).map Prod.snd = [13, 40] := by
  obtain ⟨⟨hclosed, hkeeps⟩, hparens, -⟩ := tokenize_guardedSearch_openWhen
  have htokens : tokensOf guardedSearch = .ok (tokenize guardedSearch).tokens := by
    rw [tokensOf, hclosed]
  obtain ⟨-, hcount, hplaces⟩ := openParens_eq_iff htokens
  rw [hparens] at hcount hplaces
  obtain ⟨placed, hplaced, hfst, hsnd⟩ := hplaces.mpr hkeeps
  exact ⟨_, htokens, hkeeps, (hcount.mpr hkeeps).symm, placed, hplaced, hfst, hsnd.symm⟩

/-- The parenthesis of the text is not among its tokens. -/
theorem openParens_openWhen :
    ∃ tokens, tokensOf openWhen = .ok tokens ∧
      tokens = [⟨.caseWord, "case"⟩, ⟨.whenWord, "when ("⟩, ⟨.identifier, "a"⟩] ∧
      openParens 0 0 openWhen.toList = [10] ∧
      (openParens 0 0 openWhen.toList).length ≠ tokens.countP (·.kind = .openParen) := by
  obtain ⟨-, -, htokens, hparens⟩ := tokenize_guardedSearch_openWhen
  refine ⟨_, ?_, rfl, hparens, ?_⟩
  · rw [tokensOf, htokens]
  · rw [hparens]
    decide

end SqlLayout
