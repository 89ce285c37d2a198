import SqlLayout.Proofs.Words.Literals
import SqlLayout.Proofs.Words.Taken

/-!
# What is lost when a text is cut

A text is cut into words and single characters that are dropped.  Which characters are dropped can be told
from what follows them, without the rules for words.  Of the words only the blanks in front of a parenthesis
are lost, where the name of a function or a table stands in front of them.
-/

namespace SqlLayout

open Text Word

namespace Word

/-- Characters that are kept whatever follows them. -/
def marks : List Char :=
  ['(', ')', ',', ';', '=', '<', '>', '*']

/-- Texts that start with a word that is no literal. -/
inductive IsKept : List Char → Prop
  | wordChar {c : Char} {rest : List Char} : isWordChar c = true → IsKept (c :: rest)
  | mark {c : Char} {rest : List Char} : c ∈ marks → IsKept (c :: rest)
  | unequal {rest : List Char} : IsKept ('!' :: '=' :: rest)
  | signed {sign digit : Char} {rest : List Char} :
      sign = '+' ∨ sign = '-' → isDecimal digit = true → IsKept (sign :: digit :: rest)
  | backtick {name rest : List Char} :
      name ≠ [] → name.all isWordChar = true → IsKept ('`' :: (name ++ '`' :: rest))
  | placeholder {s : Char} {rest : List Char} : spells 's' s = true → IsKept ('%' :: s :: rest)
  | namedPlaceholder {name rest : List Char} {s : Char} :
      name ≠ [] → name.all isWordChar = true → spells 's' s = true →
      IsKept ('%' :: '(' :: (name ++ ')' :: s :: rest))

section Rules

variable {c : Char} {text rest : List Char} {n : Nat}

theorem isWordChar_of_runLength? (h : runLength? isWordChar (c :: rest) = some n) :
    isWordChar c = true := by
  obtain ⟨d, more, heq, hd⟩ := exists_cons_of_runLength? h
  cases heq
  exact hd

/-- A run of word characters and what follows it. -/
theorem exists_name_of_runLength? (h : runLength? isWordChar text = some n) :
    ∃ name, name ≠ [] ∧ name.all isWordChar = true ∧ text = name ++ text.drop n := by
  obtain ⟨rfl, hpos⟩ := runLength?_eq_some.mp h
  refine ⟨text.takeWhile isWordChar, ?_, List.all_takeWhile, ?_⟩
  · intro hnil
    rw [runLength, hnil] at hpos
    cases hpos
  · rw [drop_runLength, List.takeWhile_append_dropWhile]

theorem runLength?_name {name : List Char} (hne : name ≠ []) (hname : name.all isWordChar = true)
    (hrest : ∀ c ∈ rest.head?, isWordChar c = false) :
    runLength? isWordChar (name ++ rest) = some name.length := by
  rw [runLength?_eq_some, runLength_append_of_head hrest, runLength_of_all hname]
  exact ⟨rfl, List.length_pos_iff.mpr hne⟩

theorem isWordChar_of_phraseLength? {words : List String} (hwords : words.all isKeyword = true)
    (hne : words ≠ []) (h : phraseLength? words (c :: rest) = some n) : isWordChar c = true := by
  obtain ⟨letter, d, more, -, heq, hletter, hspells⟩ := exists_cons_of_phrase hwords hne h
  cases heq
  exact isWordChar_of_spells hletter hspells

theorem isKept_of_backtickLength? (h : backtickLength? text = some n) : IsKept text := by
  obtain ⟨inner, m, more, rfl, hm, hmore, -⟩ := backtickLength?_eq_some.mp h
  obtain ⟨name, hne, hname, hinner⟩ := exists_name_of_runLength? hm
  rw [hinner, hmore]
  exact .backtick hne hname

/-- Whether a rule for fixed characters starts with one that is kept whatever follows it.  The exclamation mark
is not. -/
def Rule.opensWithMark : Rule → Bool
  | .symbol s => s = "!=" || s.toList.head?.any (marks.contains ·)
  | _ => true

theorem isKept_of_symbol {s : String} (hrule : Rule.symbol s ∈ rules)
    (h : s.toList <+: c :: rest) : IsKept (c :: rest) := by
  have hrules : ∀ rule ∈ rules, rule.opensWithMark = true := by decide
  have hs := hrules _ hrule
  simp only [Rule.opensWithMark, Bool.or_eq_true, decide_eq_true_eq] at hs
  cases hlist : s.toList with
  | nil =>
    rw [hlist] at hs
    rcases hs with rfl | hs
    · cases hlist
    · cases hs
  | cons first others =>
    rw [hlist] at h hs
    obtain ⟨rfl, more, rfl⟩ := List.cons_prefix_cons.mp h
    rcases hs with rfl | hs
    · cases hlist
      exact .unequal
    · exact .mark (List.contains_iff_mem.mp hs)

theorem isDecimal_of_unsignedLength? (h : unsignedLength? text = some n) :
    ∃ digit rest, text = digit :: rest ∧ isDecimal digit = true := by
  obtain ⟨m, hm, -⟩ := unsignedLength?_eq_some.mp h
  exact exists_cons_of_runLength? hm

theorem isKept_of_numberLength? (h : numberLength? text = some n) : IsKept text := by
  have hsigned : ∀ {sign : Char} {more : List Char}, sign = '+' ∨ sign = '-' →
      ∀ {m}, (unsignedLength? more).map (· + 1) = some m → IsKept (sign :: more) := by
    intro sign more hsign m hm
    obtain ⟨k, hk, -⟩ := Option.map_eq_some_iff.mp hm
    obtain ⟨digit, rest, rfl, hdigit⟩ := isDecimal_of_unsignedLength? hk
    exact .signed hsign hdigit
  unfold numberLength? at h
  split at h
  · exact hsigned (.inr rfl) h
  · exact hsigned (.inl rfl) h
  · obtain ⟨digit, rest, rfl, hdigit⟩ := isDecimal_of_unsignedLength? h
    exact .wordChar (isWordChar_of_isDecimal hdigit)

/-- Where a rule finds a word, the first character is kept. -/
theorem isKept_of_length? {rule : Rule} (hrule : rule ∈ rules) (h : rule.length? (c :: rest) = some n) :
    IsKept (c :: rest) := by
  have hregular := isRegular_of_mem_rules hrule
  have hname : ∀ {m}, runLength? isWordChar (c :: rest) = some m → IsKept (c :: rest) :=
    fun hm ↦ .wordChar (isWordChar_of_runLength? hm)
  cases rule with
  | phrase words =>
    simp only [Rule.isRegular, Bool.and_eq_true, Bool.not_eq_true', List.isEmpty_eq_false_iff] at hregular
    have hphrase := (Rule.length?_phrase_eq_some.mp h).1
    exact .wordChar (isWordChar_of_phraseLength? hregular.2 hregular.1 hphrase)
  | openPhrase words =>
    simp only [Rule.isRegular, Bool.and_eq_true, Bool.not_eq_true', List.isEmpty_eq_false_iff] at hregular
    exact .wordChar (isWordChar_of_phraseLength? hregular.2 hregular.1 h)
  | symbol s => exact isKept_of_symbol hrule (Rule.length?_symbol_eq_some.mp h).1
  | callHead =>
    obtain ⟨m, -, hm, -⟩ := Rule.length?_callHead_eq_some.mp h
    exact hname hm
  | dottedName =>
    obtain ⟨m, -, -, hm, -⟩ := Rule.length?_dottedName_eq_some.mp h
    exact hname hm
  | dottedStar =>
    obtain ⟨m, -, hm, -⟩ := Rule.length?_dottedStar_eq_some.mp h
    exact hname hm
  | name => exact hname h
  | number => exact isKept_of_numberLength? h
  | backtickPair =>
    obtain ⟨m, -, -, hm, -⟩ := Rule.length?_backtickPair_eq_some.mp h
    exact isKept_of_backtickLength? hm
  | backtickName => exact isKept_of_backtickLength? h
  | namedPlaceholder =>
    obtain ⟨inner, m, s, more, heq, hm, hmore, hs, -⟩ := Rule.length?_namedPlaceholder_eq_some.mp h
    obtain ⟨name, hne, hname, hinner⟩ := exists_name_of_runLength? hm
    rw [heq, hinner, hmore]
    exact .namedPlaceholder hne hname hs
  | placeholder =>
    obtain ⟨s, more, heq, hs, -⟩ := Rule.length?_placeholder_eq_some.mp h
    rw [heq]
    exact .placeholder hs

theorem exists_rule_of_mark (hc : c ∈ marks) (rest : List Char) :
    ∃ rule ∈ rules, (rule.length? (c :: rest)).isSome = true := by
  have hmarks : ∀ {mark : Char} {s : String}, Rule.symbol s ∈ rules → s.toList = [mark] →
      ∃ rule ∈ rules, (rule.length? (mark :: rest)).isSome = true := by
    intro mark s hrule hs
    exact ⟨.symbol s, hrule, by simp [Rule.length?, hs]⟩
  simp only [marks, List.mem_cons, List.not_mem_nil, or_false] at hc
  rcases hc with rfl | rfl | rfl | rfl | rfl | rfl | rfl | rfl
  · exact hmarks (s := "(") (by decide) rfl
  · exact hmarks (s := ")") (by decide) rfl
  · exact hmarks (s := ",") (by decide) rfl
  · exact hmarks (s := ";") (by decide) rfl
  · exact hmarks (s := "=") (by decide) rfl
  · exact hmarks (s := "<") (by decide) rfl
  · exact hmarks (s := ">") (by decide) rfl
  · exact hmarks (s := "*") (by decide) rfl

theorem isSome_unsignedLength? (h : isDecimal c = true) : (unsignedLength? (c :: rest)).isSome = true := by
  obtain ⟨n, hn⟩ := exists_runLength? rest h
  simp only [unsignedLength?, hn]
  dsimp only [bind, Option.bind]
  split <;> rfl

/-- Where the first character is kept, a rule finds a word. -/
theorem exists_rule_of_isKept (h : IsKept text) : ∃ rule ∈ rules, (rule.length? text).isSome = true := by
  cases h with
  | @wordChar c rest hc =>
    exact ⟨.name, by decide, Option.isSome_iff_exists.mpr (exists_runLength? rest hc)⟩
  | mark hc => exact exists_rule_of_mark hc _
  | unequal => exact ⟨.symbol "!=", by decide, rfl⟩
  | signed hsign hdigit =>
    refine ⟨.number, by decide, ?_⟩
    rcases hsign with rfl | rfl
    · simpa [Rule.length?, numberLength?] using isSome_unsignedLength? hdigit
    · simpa [Rule.length?, numberLength?] using isSome_unsignedLength? hdigit
  | @backtick name rest hne hname =>
    have hmark : isWordChar '`' = false := by decide
    have hrun : runLength? isWordChar (name ++ '`' :: rest) = some name.length :=
      runLength?_name hne hname (by simpa using hmark)
    exact ⟨.backtickName, by decide, by simp [Rule.length?, backtickLength?, hrun]⟩
  | placeholder hs => exact ⟨.placeholder, by decide, by simp [Rule.length?, hs]⟩
  | @namedPlaceholder name rest s hne hname hs =>
    have hmark : isWordChar ')' = false := by decide
    have hrun : runLength? isWordChar (name ++ ')' :: s :: rest) = some name.length :=
      runLength?_name hne hname (by simpa using hmark)
    exact ⟨.namedPlaceholder, by decide, by simp [Rule.length?, hrun, hs]⟩

/-- A character that is no quote is dropped exactly if it is not kept. -/
theorem startOf_eq_dropped_iff (hc : isQuote c = false) :
    startOf c rest = .dropped ↔ ¬IsKept (c :: rest) := by
  have hfound : IsKept (c :: rest) ↔ ∃ n, rules.findSome? (Rule.length? (c :: rest)) = some n := by
    rw [← Option.isSome_iff_exists, List.findSome?_isSome_iff]
    constructor
    · exact exists_rule_of_isKept
    · rintro ⟨rule, hrule, hsome⟩
      obtain ⟨n, hn⟩ := Option.isSome_iff_exists.mp hsome
      exact isKept_of_length? hrule hn
  rw [hfound, startOf, hc]
  cases rules.findSome? (Rule.length? (c :: rest)) <;> simp

end Rules

/-! ### Pieces -/

/-- What a text is cut into: words with the tokens they give, and characters that are dropped. -/
inductive Piece where
  | word (text : String) (tokens : List Token)
  | dropped (c : Char)

namespace Piece

def chars : Piece → List Char
  | word text _ => text.toList
  | dropped c => [c]

def word? : Piece → Option String
  | word text _ => some text
  | dropped _ => none

def tokens : Piece → List Token
  | word _ tokens => tokens
  | dropped _ => []

end Piece

/-- The tokens of a word are a token that is all of it, or the name of a function or a table and the
parenthesis behind it.  Then only blanks between the two are lost. -/
inductive IsSpelled : String → List Token → Prop
  | whole (word : String) (kind : Kind) : IsSpelled word [⟨kind, word⟩]
  | head {name gap : List Char} {kind : Kind} : name ≠ [] → name.all isWordChar = true →
      gap.all isBlank = true → kind = .func ∨ kind = .identifier →
      IsSpelled (String.ofList (name ++ gap ++ ['('])) [⟨kind, String.ofList name⟩, ⟨.openParen, "("⟩]

/-- How a text is scanned from left to right, up to its end or to a quote that is never closed.  From such a
quote on the text is left over. -/
inductive Scan : (text : List Char) → List Piece → (left : List Char) → Prop
  | done : Scan [] [] []
  | unclosed {quote : Char} {rest : List Char} : isQuote quote = true → quote ∉ rest →
      Scan (quote :: rest) [] (quote :: rest)
  | literal {quote : Char} {inner rest left : List Char} {literal : String} {pieces : List Piece} :
      isQuote quote = true → quote ∉ inner → literal = String.ofList (quote :: (inner ++ [quote])) →
      Scan rest pieces left →
      Scan (quote :: (inner ++ quote :: rest)) (.word literal [⟨.str, literal⟩] :: pieces) left
  | word {c : Char} {tail rest left : List Char} {tokens : List Token} {pieces : List Piece} :
      Quoteless (c :: tail) → IsKept (c :: (tail ++ rest)) →
      IsSpelled (String.ofList (c :: tail)) tokens → Scan rest pieces left →
      Scan (c :: (tail ++ rest)) (.word (String.ofList (c :: tail)) tokens :: pieces) left
  | dropped {c : Char} {rest left : List Char} {pieces : List Piece} :
      isQuote c = false → ¬IsKept (c :: rest) → Scan rest pieces left →
      Scan (c :: rest) (.dropped c :: pieces) left

section Cuts

variable {c : Char} {text tail rest left : List Char} {pieces : List Piece} {last : Option Kind}

/-- Nothing is lost but what the pieces say. -/
theorem Scan.chars (h : Scan text pieces left) : pieces.flatMap Piece.chars ++ left = text := by
  induction h with
  | done => rfl
  | unclosed => rfl
  | literal _ _ hliteral _ ih =>
    subst hliteral
    simp [Piece.chars, ← ih]
  | word _ _ _ _ ih => simp [Piece.chars, ← ih]
  | dropped _ _ _ ih => simp [Piece.chars, ← ih]

/-- Only a quote that is never closed leaves something over. -/
theorem Scan.nil_or_unclosed (h : Scan text pieces left) :
    left = [] ∨ ∃ quote rest, left = quote :: rest ∧ isQuote quote = true ∧ quote ∉ rest := by
  induction h with
  | done => exact .inl rfl
  | @unclosed quote rest hquote hrest => exact .inr ⟨quote, rest, rfl, hquote, hrest⟩
  | literal _ _ _ _ ih => exact ih
  | word _ _ _ _ ih => exact ih
  | dropped _ _ _ ih => exact ih

theorem cutFrom_word (h : startOf c (tail ++ rest) = .word (tail.length + 1)) :
    cutFrom 0 (c :: (tail ++ rest)) =
      ⟨String.ofList (c :: tail) :: (cutFrom 0 rest).words, (cutFrom 0 rest).unclosed⟩ := by
  have htake : (c :: (tail ++ rest)).take (tail.length + 1) = c :: tail := by simp
  rw [cutFrom, h]
  dsimp only
  rw [htake, Nat.add_sub_cancel, cutFrom_append]

theorem isSpelled_ofWord (h : startOf c tail = .word (tail.length + 1)) (last : Option Kind) :
    IsSpelled (String.ofList (c :: tail)) (Token.ofWord last (String.ofList (c :: tail))) := by
  rcases Token.ofWord_cases (String.ofList (c :: tail)) with
    ⟨⟨kind, word⟩, rfl, htoken, -⟩ | ⟨hkind, -, hparen, hpair⟩
  · rw [htoken last]
    exact .whole _ kind
  · rw [String.toList_ofList] at hparen hpair
    obtain ⟨front, hfront⟩ := List.getLast?_eq_some_iff.mp hparen
    rw [hpair last, hfront, List.dropLast_concat]
    cases front with
    | nil =>
      rw [hfront] at hkind
      cases hkind
    | cons d more =>
      rw [List.cons_append, List.cons.injEq] at hfront
      obtain ⟨rfl, rfl⟩ := hfront
      rw [List.length_append] at h
      obtain ⟨hcall, -⟩ := callHead_of_paren h
      obtain ⟨name, gap, htext, hne, hname, hgap⟩ := exists_of_callHead (hcall.trans (by simp))
      have hmore : c :: more = name ++ gap := List.append_cancel_right htext
      rw [hmore, trim_of_blanks hname hgap]
      refine .head hne hname hgap ?_
      split
      · exact .inr rfl
      · exact .inl rfl

structure Agrees (last : Option Kind) (text : List Char) (pieces : List Piece) (left : List Char) : Prop where
  scan : Scan text pieces left
  words : (cutFrom 0 text).words = pieces.filterMap Piece.word?
  tokens : Token.ofWords last (cutFrom 0 text).words = pieces.flatMap Piece.tokens
  unclosed : (cutFrom 0 text).unclosed = if left = [] then none else some (String.ofList left)

theorem Agrees.literal {quote : Char} {inner : List Char} (hquote : isQuote quote = true)
    (hinner : quote ∉ inner)
    (hstart : startOf quote (inner ++ quote :: rest) = .word (inner.length + 2))
    (h : Agrees last rest pieces left) :
    Agrees last (quote :: (inner ++ quote :: rest))
      (.word (String.ofList (quote :: (inner ++ [quote])))
        [⟨.str, String.ofList (quote :: (inner ++ [quote]))⟩] :: pieces) left := by
  have hliteral : IsLiteral (String.ofList (quote :: (inner ++ [quote]))).toList :=
    ⟨quote, inner, hquote, hinner, String.toList_ofList⟩
  have hcut : cutFrom 0 (quote :: (inner ++ quote :: rest)) =
      ⟨String.ofList (quote :: (inner ++ [quote])) :: (cutFrom 0 rest).words,
        (cutFrom 0 rest).unclosed⟩ := by
    rw [List.append_cons, ← cutFrom_word]
    simpa using hstart
  refine ⟨.literal hquote hinner rfl h.scan, ?_, ?_, ?_⟩
  · rw [hcut, h.words]
    rfl
  · rw [hcut, Token.ofWords, Token.ofWord_of_isLiteral last hliteral, ofWord?_of_isLiteral hliteral]
    simp [h.tokens, Piece.tokens]
  · rw [hcut, h.unclosed]

theorem Agrees.word (hquote : isQuote c = false)
    (hstart : startOf c (tail ++ rest) = .word (tail.length + 1))
    (h : Agrees (Kind.ofWord? (String.ofList (c :: tail)) <|> last) rest pieces left) :
    Agrees last (c :: (tail ++ rest))
      (.word (String.ofList (c :: tail)) (Token.ofWord last (String.ofList (c :: tail))) :: pieces)
      left := by
  have hcut := cutFrom_word hstart
  have hkept : IsKept (c :: (tail ++ rest)) := by
    refine Classical.not_not.mp fun hnot ↦ ?_
    rw [(startOf_eq_dropped_iff hquote).mpr hnot] at hstart
    cases hstart
  have hquoteless : Quoteless (c :: tail) := by
    have htake := quoteless_of_startOf hquote hstart
    simpa using htake
  refine ⟨.word hquoteless hkept (isSpelled_ofWord (startOf_alone hstart) last) h.scan, ?_, ?_, ?_⟩
  · rw [hcut, h.words]
    rfl
  · rw [hcut, Token.ofWords, h.tokens]
    rfl
  · rw [hcut, h.unclosed]

/-- The induction is on the length of the text, as a word takes several characters at once. -/
theorem exists_agrees (bound : Nat) (text : List Char) (hbound : text.length ≤ bound)
    (last : Option Kind) : ∃ pieces left, Agrees last text pieces left := by
  induction bound generalizing text last with
  | zero =>
    obtain rfl := List.eq_nil_of_length_eq_zero (Nat.le_zero.mp hbound)
    exact ⟨[], [], .done, rfl, rfl, rfl⟩
  | succ bound ih =>
    cases text with
    | nil => exact ⟨[], [], .done, rfl, rfl, rfl⟩
    | cons c rest =>
      rw [List.length_cons] at hbound
      cases hquote : isQuote c with
      | true =>
        rcases startOf_of_isQuote hquote rest with ⟨hstart, hnot⟩ | ⟨inner, more, hinner, rfl, hstart⟩
        · refine ⟨[], c :: rest, .unclosed hquote hnot, ?_, ?_, ?_⟩ <;> rw [cutFrom, hstart] <;> rfl
        · rw [List.length_append, List.length_cons] at hbound
          obtain ⟨pieces, left, h⟩ := ih more (by omega) last
          exact ⟨_, left, h.literal hquote hinner hstart⟩
      | false =>
        cases hstart : startOf c rest with
        | unclosed => exact absurd hstart (startOf_ne_unclosed hquote)
        | dropped =>
          obtain ⟨pieces, left, h⟩ := ih rest (by omega) last
          have hcut : cutFrom 0 (c :: rest) = cutFrom 0 rest := by rw [cutFrom, hstart]
          refine ⟨.dropped c :: pieces, left, .dropped hquote ?_ h.scan, ?_, ?_, ?_⟩
          · exact (startOf_eq_dropped_iff hquote).mp hstart
          · rw [hcut, h.words]
            rfl
          · rw [hcut, h.tokens]
            rfl
          · rw [hcut, h.unclosed]
        | word n =>
          obtain ⟨tail, more, rfl, rfl⟩ := exists_append_of_startOf hstart
          rw [List.length_append] at hbound
          obtain ⟨pieces, left, h⟩ := ih more (by omega)
            (Kind.ofWord? (String.ofList (c :: tail)) <|> last)
          exact ⟨_, left, h.word hquote hstart⟩

end Cuts

end Word

/-- A word that starts with no blank has a first piece. -/
theorem Kind.recognise?_ne_none {word : String} (h : IsTrimmed word.toList) :
    Kind.recognise? word ≠ none := by
  obtain ⟨hhead, -⟩ := h
  cases hlist : word.toList with
  | nil =>
    rw [hlist] at hhead
    cases hhead
  | cons c tail =>
    have hblank : isBlank c = false := by
      rw [hlist] at hhead
      simpa using hhead
    obtain ⟨more, others, hpieces⟩ := exists_head_piecesFrom (List.cons_ne_nil c []) tail
    have hword : pieces word = String.ofList ([c] ++ more) :: others.map String.ofList := by
      rw [pieces, hlist, piecesFrom, hblank]
      exact congrArg (List.map String.ofList) hpieces
    rw [Kind.recognise?, hword]
    simp

/-- A text is scanned into words and dropped characters, which are all of it up to a quote that is never
closed.  The words give the tokens.  There is no other fault than such a quote, and it is kept with all
that follows it. -/
theorem exists_scan (text : String) :
    ∃ pieces left, Word.Scan text.toList pieces left ∧
      pieces.flatMap Word.Piece.chars ++ left = text.toList ∧
      (Word.cut text).words = pieces.filterMap Word.Piece.word? ∧
      (tokenize text).tokens = pieces.flatMap Word.Piece.tokens ∧
      (∀ word ∈ (Word.cut text).words, Kind.recognise? word ≠ none) ∧
      (left = [] ∨ ∃ quote rest, left = quote :: rest ∧ isQuote quote = true ∧ quote ∉ rest) ∧
      (Word.cut text).unclosed = (if left = [] then none else some (String.ofList left)) ∧
      tokensOf text =
        if left = [] then .ok (pieces.flatMap Word.Piece.tokens)
        else .error (.unclosedQuote (String.ofList left)) := by
  obtain ⟨pieces, left, hscan, hwords, htokens, hunclosed⟩ :=
    Word.exists_agrees _ text.toList (Nat.le_refl _) none
  refine ⟨pieces, left, hscan, hscan.chars, hwords, htokens, ?_, hscan.nil_or_unclosed, hunclosed, ?_⟩
  · intro word hword
    exact Kind.recognise?_ne_none (Word.isTrimmed_of_mem_cutFrom hword)
  · have htokenize : (tokenize text).unclosed = if left = [] then none else some (String.ofList left) :=
      hunclosed
    have hall : (tokenize text).tokens = pieces.flatMap Word.Piece.tokens := htokens
    rw [tokensOf, htokenize, hall]
    by_cases hleft : left = []
    · simp only [hleft, if_true]
    · simp only [hleft, if_false]

end SqlLayout
