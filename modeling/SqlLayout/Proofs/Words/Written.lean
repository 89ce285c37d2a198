import SqlLayout.Proofs.Words.Whole

/-!
# Texts that spell tokens

`Written` relates a text to the tokens that it is written with: each is a word by itself, a stop
follows each, and blanks may stand in between.  Such a text is cut into these tokens if no keyword
phrase runs over from one token into the next.  That is a property of the tokens alone, so where the
text puts its blanks and line ends makes no difference.
-/

namespace SqlLayout

open Text Word

variable {words : List String} {word : String} {c : Char} {tail text : List Char} {tokens : List Token}
  {table : Bool} {token : Token} {last : Option Kind}

namespace Token

/-- Whether the text of a token is a single word that gives this token. -/
def isWhole (token : Token) : Bool :=
  match token.text.toList with
  | [] => false
  | c :: tail => startOf c tail = .word (tail.length + 1) && ofWord none token.text = [token]

def isCallName (name : String) : Bool :=
  match name.toList with
  | [] => false
  | c :: tail =>
    startOf c (tail ++ ['(']) = .word (tail.length + 2) &&
      ofWord none (name ++ "(") = [⟨.func, name⟩, ⟨.openParen, "("⟩]

/-- Whether a name gives the name of a table when a parenthesis stands behind it after INSERT INTO. -/
def isTableName (name : String) : Bool :=
  isWhole ⟨.identifier, name⟩ &&
    ofWord (some .insertWord) (name ++ " (") = [⟨.identifier, name⟩, ⟨.openParen, "("⟩]

/-- Whether a token can be written: as a single word, or with the parenthesis of a call. -/
def isSound (token : Token) : Bool :=
  if token.kind = .func then isCallName token.text else token.isWhole

/-- Whether the text of a token is recognised as a keyword. -/
def isReserved (token : Token) : Bool :=
  (Kind.ofWord? token.text).isSome

def spaced (tokens : List Token) : List Char :=
  tokens.flatMap fun token ↦ ' ' :: token.text.toList

/-- Whether no rule finds a phrase that starts in a token and runs over into the tokens behind it. -/
def unglued : List Token → Bool
  | [] => true
  | token :: rest =>
    (rules.all fun rule ↦ rule.keywords.isEmpty ||
      (rule.length? (token.text.toList ++ spaced rest)).all (· ≤ token.text.toList.length)) &&
        unglued rest

/-- The words that a layout writes of its own accord. -/
def ownWords : List Token :=
  [⟨.comma, ","⟩, ⟨.closeParen, ")"⟩, ⟨.semicolon, ";"⟩, ⟨.asWord, "AS"⟩, ⟨.whenWord, "WHEN"⟩,
    ⟨.thenWord, "THEN"⟩, ⟨.elseWord, "ELSE"⟩, ⟨.onWord, "ON"⟩, ⟨.link, "AND"⟩, ⟨.notWord, "NOT"⟩,
    ⟨.betweenWord, "BETWEEN"⟩, ⟨.isWord, "IS"⟩, ⟨.nullWord, "NULL"⟩, ⟨.insertWord, "INSERT INTO"⟩,
    ⟨.fromWord, "FROM"⟩, ⟨.whereWord, "WHERE"⟩, ⟨.groupWord, "GROUP BY"⟩,
    ⟨.rollupWord, "WITH ROLLUP"⟩, ⟨.havingWord, "HAVING"⟩, ⟨.orderWord, "ORDER BY"⟩,
    ⟨.limitWord, "LIMIT"⟩, ⟨.identifier, "OFFSET"⟩]

theorem isWhole_of_mem_ownWords {token : Token} (h : token ∈ ownWords) : token.isWhole = true := by
  have hall : ownWords.all isWhole = true := by decide +kernel
  exact List.all_eq_true.mp hall token h

end Token

open Token

/-- A text spells tokens.  After INSERT INTO the next name in front of a parenthesis is that of a
table, which `table` tells. -/
inductive Written : (table : Bool) → List Char → List Token → Prop
  | nil {table : Bool} : Written table [] []
  | blank {table : Bool} {c : Char} {text : List Char} {tokens : List Token} :
      isBlank c = true → Written table text tokens → Written table (c :: text) tokens
  | word {table : Bool} {token : Token} {text : List Char} {tokens : List Token} :
      token.isWhole = true → token.kind ≠ .insertWord → Ends text →
      tokens.head? ≠ some ⟨.openParen, "("⟩ → Written (table && !token.isReserved) text tokens →
      Written table (token.text.toList ++ text) (token :: tokens)
  | paren {table : Bool} {text : List Char} {tokens : List Token} :
      Written false text tokens → Written table ('(' :: text) (⟨.openParen, "("⟩ :: tokens)
  | inParen {table : Bool} {text : List Char} {tokens : List Token} :
      Written false text tokens →
      Written table ('I' :: 'N' :: ' ' :: '(' :: text)
        (⟨.inWord, "IN"⟩ :: ⟨.openParen, "("⟩ :: tokens)
  | call {name : String} {text : List Char} {tokens : List Token} :
      isCallName name = true → Written false text tokens →
      Written false (name.toList ++ '(' :: text)
        (⟨.func, name⟩ :: ⟨.openParen, "("⟩ :: tokens)
  | insert {table : Bool} {text : List Char} {tokens : List Token} :
      Ends text → tokens.head? ≠ some ⟨.openParen, "("⟩ → Written true text tokens →
      Written table ("INSERT INTO".toList ++ text) (⟨.insertWord, "INSERT INTO"⟩ :: tokens)
  | tableParen {name : String} {text : List Char} {tokens : List Token} :
      isTableName name = true → (∀ table, Written table text tokens) →
      Written true (name.toList ++ ' ' :: '(' :: text)
        (⟨.identifier, name⟩ :: ⟨.openParen, "("⟩ :: tokens)

/-! ### Phrases that run on -/

theorem phraseLength?_nil (hwords : words.all isKeyword = true) (hne : words ≠ []) :
    phraseLength? words [] = none :=
  phraseLength?_eq_none hwords hne (by simp)

theorem phraseLength?_paren (hwords : words.all isKeyword = true) (hne : words ≠ []) (rest : List Char) :
    phraseLength? words ('(' :: rest) = none :=
  phraseLength?_eq_none hwords hne (by simp [show isWordChar '(' = false by decide])

/-! ### The tokens of a written text -/

namespace Token

theorem exists_of_isWhole {token : Token} (h : token.isWhole = true) :
    ∃ c tail, token.text = String.ofList (c :: tail) ∧ isBlank c = false ∧
      startOf c tail = .word (tail.length + 1) ∧ ofWord none token.text = [token] := by
  unfold isWhole at h
  split at h
  · simp at h
  · rename_i c tail htext
    simp only [Bool.and_eq_true, decide_eq_true_eq] at h
    exact ⟨c, tail, by rw [← htext, String.ofList_toList], isBlank_of_startOf h.1, h⟩

theorem exists_of_isCallName {name : String} (h : isCallName name = true) :
    ∃ c tail, name = String.ofList (c :: tail) ∧ isBlank c = false ∧
      startOf c (tail ++ ['(']) = .word (tail.length + 2) ∧
      ofWord none (name ++ "(") = [⟨.func, name⟩, ⟨.openParen, "("⟩] := by
  unfold isCallName at h
  split at h
  · simp at h
  · rename_i c tail htext
    simp only [Bool.and_eq_true, decide_eq_true_eq] at h
    exact ⟨c, tail, by rw [← htext, String.ofList_toList], isBlank_of_startOf h.1, h⟩

theorem isWhole_of_isTableName {name : String} (h : isTableName name = true) :
    isWhole ⟨.identifier, name⟩ = true := by
  simp only [isTableName, Bool.and_eq_true] at h
  exact h.1

theorem eq_of_isWhole_paren {tail : List Char} (h : token.isWhole = true)
    (htext : token.text = String.ofList ('(' :: tail)) : token = ⟨.openParen, "("⟩ := by
  obtain ⟨c, others, hothers, -, hstart, htoken⟩ := exists_of_isWhole h
  rw [htext, String.ofList_inj] at hothers
  cases hothers
  obtain rfl : tail = [] := by
    rw [startOf_paren] at hstart
    simpa using hstart
  rw [htext, show ofWord none (String.ofList ['(']) = [⟨.openParen, "("⟩] by decide] at htoken
  simpa using htoken.symm

theorem ends_spaced (tokens : List Token) : Ends (spaced tokens) := by
  cases tokens with
  | nil => exact ends_nil
  | cons token tokens => simp [spaced, isStop, show isBlank ' ' = true by decide]

theorem isBlank_of_head?_spaced {tokens : List Token} {c : Char}
    (h : c ∈ (spaced tokens).head?) : isBlank c = true := by
  cases tokens with
  | nil => simp [spaced] at h
  | cons token tokens =>
    simp only [spaced, List.flatMap_cons, List.cons_append, List.head?_cons, Option.mem_def,
      Option.some.injEq] at h
    subst h
    decide

theorem dropWhile_spaced_cons {c : Char} {tail : List Char} {token : Token}
    (htext : token.text = String.ofList (c :: tail)) (hc : isBlank c = false)
    (tokens : List Token) :
    (spaced (token :: tokens)).dropWhile isBlank = token.text.toList ++ spaced tokens := by
  have hspace : isBlank ' ' = true := by decide
  simp [spaced, htext, hspace, hc]

end Token

/-- A phrase that starts with a token's text ends there as it does in the tokens, if that holds of what
follows. -/
theorem phraseEnd?_spaced (token : Token) (htext : token.text = String.ofList (c :: tail))
    (hc : isBlank c = false) (rest : List Char) (hrest : Ends rest)
    (hnext : ∀ later : List String, later.all isKeyword = true → later ≠ [] →
      phraseEnd? later (rest.dropWhile isBlank) = phraseEnd? later ((spaced tokens).dropWhile isBlank))
    (hwords : words.all isKeyword = true) :
    phraseEnd? words ((token.text.toList ++ rest).dropWhile isBlank) =
      phraseEnd? words ((spaced (token :: tokens)).dropWhile isBlank) := by
  have hdrop : (token.text.toList ++ rest).dropWhile isBlank = token.text.toList ++ rest := by
    simp [htext, hc]
  rw [hdrop, dropWhile_spaced_cons htext hc]
  exact phraseEnd?_append_congr hwords hrest (ends_spaced tokens) hnext _

/-- The keywords that start a written text start its tokens too, and they are complete in both or in
neither. -/
theorem Written.phraseEnd?_eq (h : Written table text tokens) (hwords : words.all isKeyword = true)
    (hne : words ≠ []) :
    phraseEnd? words (text.dropWhile isBlank) = phraseEnd? words ((spaced tokens).dropWhile isBlank) := by
  have hspace : isBlank ' ' = true := by decide
  have hparen : isBlank '(' = false := by decide
  -- No keyword stands where a parenthesis follows.
  have hopen : ∀ (rest : List Char) (tokens : List Token) {later : List String},
      later.all isKeyword = true → later ≠ [] → phraseEnd? later ('(' :: rest) =
        phraseEnd? later ((spaced (⟨.openParen, "("⟩ :: tokens)).dropWhile isBlank) := by
    intro rest tokens later hlater hne
    have hends : ∀ more : List Char, Ends ('(' :: more) := fun more ↦ by simp [isStop]
    have hspaced := dropWhile_spaced_cons (c := '(') (show Token.text ⟨.openParen, "("⟩ = String.ofList ['('] from rfl) hparen tokens
    rw [hspaced, phraseEnd?_of_ends hlater hne (hends rest)]
    exact (phraseEnd?_of_ends hlater hne (hends _)).symm
  induction h generalizing words with
  | nil => rfl
  | blank hc _ ih =>
    rw [List.dropWhile_cons_of_pos hc]
    exact ih hwords hne
  | word hwhole _ hends _ _ ih =>
    obtain ⟨c, tail, htext, hc, -⟩ := exists_of_isWhole hwhole
    exact phraseEnd?_spaced _ htext hc _ hends (fun _ hlater hne ↦ ih hlater hne) hwords
  | paren _ _ =>
    rw [List.dropWhile_cons_of_neg (by simp [hparen])]
    exact hopen _ _ hwords hne
  | @inParen _ text _ _ _ =>
    refine phraseEnd?_spaced ⟨.inWord, "IN"⟩ (c := 'I') rfl (by decide) (' ' :: '(' :: text)
      (by simp [isStop, hspace]) (fun later hlater hne ↦ ?_) hwords
    rw [List.dropWhile_cons_of_pos hspace, List.dropWhile_cons_of_neg (by simp [hparen])]
    exact hopen _ _ hlater hne
  | @call name text _ hname _ _ =>
    obtain ⟨c, tail, htext, hc, -⟩ := exists_of_isCallName hname
    refine phraseEnd?_spaced ⟨.func, name⟩ htext hc ('(' :: text) (by simp [isStop])
      (fun later hlater hne ↦ ?_) hwords
    rw [List.dropWhile_cons_of_neg (by simp [hparen])]
    exact hopen _ _ hlater hne
  | insert hends _ _ ih =>
    exact phraseEnd?_spaced ⟨.insertWord, "INSERT INTO"⟩ (c := 'I') rfl (by decide) _ hends
      (fun _ hlater hne ↦ ih hlater hne) hwords
  | @tableParen name text _ hname _ _ =>
    obtain ⟨c, tail, htext, hc, -⟩ := exists_of_isWhole (isWhole_of_isTableName hname)
    refine phraseEnd?_spaced ⟨.identifier, name⟩ htext hc (' ' :: '(' :: text)
      (by simp [isStop, hspace]) (fun later hlater hne ↦ ?_) hwords
    rw [List.dropWhile_cons_of_pos hspace, List.dropWhile_cons_of_neg (by simp [hparen])]
    exact hopen _ _ hlater hne

/-- Where a parenthesis is the next character of a written text, it is the next token. -/
theorem Written.head?_eq_paren (h : Written table text tokens)
    (hparen : (text.dropWhile isBlank).head? = some '(') : tokens.head? = some ⟨.openParen, "("⟩ := by
  induction h with
  | nil => simp at hparen
  | blank hc _ ih =>
    rw [List.dropWhile_cons_of_pos hc] at hparen
    exact ih hparen
  | @word _ token text _ hwhole _ _ _ _ _ =>
    obtain ⟨c, tail, htext, hc, -⟩ := exists_of_isWhole hwhole
    have hhead : c = '(' := by simpa [htext, hc] using hparen
    subst hhead
    rw [eq_of_isWhole_paren hwhole htext]
    rfl
  | paren _ _ => rfl
  | inParen _ _ => simp [show isBlank 'I' = false by decide] at hparen
  | call hname _ _ =>
    obtain ⟨c, tail, htext, hc, hstart, -⟩ := exists_of_isCallName hname
    have hhead : c = '(' := by simpa [htext, hc] using hparen
    subst hhead
    simp [startOf_paren] at hstart
  | insert _ _ _ _ => simp [show isBlank 'I' = false by decide] at hparen
  | @tableParen name _ _ hname _ _ =>
    obtain ⟨c, tail, htext, hc, -⟩ := exists_of_isWhole (isWhole_of_isTableName hname)
    change name = String.ofList (c :: tail) at htext
    have hhead : c = '(' := by simpa [htext, hc] using hparen
    subst hhead
    cases eq_of_isWhole_paren (isWhole_of_isTableName hname) htext

/-- A phrase that runs past a word still does when what follows the word changes, if the phrases that
start there end alike. -/
theorem RunsPast.congr {word rest other : List Char} {n : Nat} (hwords : words.all isKeyword = true)
    (hother : Ends other) (hend : phraseEnd? words (word ++ rest) = phraseEnd? words (word ++ other))
    (hn : phraseLength? words (word ++ rest) = some n) (hlt : word.length < n) :
    ∃ m, phraseLength? words (word ++ other) = some m ∧ word.length < m ∧
      atWordEnd ((word ++ other).drop m) = atWordEnd ((word ++ rest).drop n) := by
  rw [phraseEnd?, hn, Option.map_some, eq_comm, phraseEnd?, Option.map_eq_some_iff] at hend
  obtain ⟨m, hm, hsame⟩ := hend
  refine ⟨m, hm, ?_, hsame⟩
  -- A phrase inside the word would have been found there in front of the first rest too.
  apply Nat.lt_of_not_le
  intro hle
  have hnot : ¬RunsPast words word other := by
    rintro ⟨k, hk, hlt⟩
    rw [hm, Option.some.injEq] at hk
    omega
  have halone := (phraseLength?_append hwords hother hnot).symm.trans hm
  rw [phraseLength?_append_of_some hwords halone, Option.some.injEq] at hn
  omega

/-- A rule that runs past a token of a written text runs past it in the list of tokens. -/
theorem Written.not_runsPast (h : Written table text tokens) (hends : Ends text)
    (hglue : unglued (token :: tokens) = true) {rule : Rule} (hrule : rule ∈ rules) :
    ¬rule.RunsPast token.text.toList text := by
  rintro ⟨hne, n, hn, hlt⟩
  have hwords := keywords_of_isRegular (isRegular_of_mem_rules hrule)
  have hend := phraseEnd?_append_congr hwords hends (ends_spaced tokens)
    (fun _ hlater hne ↦ h.phraseEnd?_eq hlater hne) token.text.toList
  have hpast : ∃ m, rule.length? (token.text.toList ++ spaced tokens) = some m ∧
      token.text.toList.length < m := by
    cases rule with
    | phrase words =>
      obtain ⟨hphrase, hcomplete⟩ := Rule.length?_phrase_eq_some.mp hn
      obtain ⟨m, hm, hlt', hsame⟩ := RunsPast.congr hwords (ends_spaced tokens) hend hphrase hlt
      exact ⟨m, Rule.length?_phrase_eq_some.mpr ⟨hm, hsame.trans hcomplete⟩, hlt'⟩
    | openPhrase words =>
      obtain ⟨m, hm, hlt', -⟩ := RunsPast.congr hwords (ends_spaced tokens) hend hn hlt
      exact ⟨m, hm, hlt'⟩
    | _ => exact absurd rfl hne
  obtain ⟨m, hm, hlt'⟩ := hpast
  simp only [unglued, Bool.and_eq_true, List.all_eq_true] at hglue
  have hle := hglue.1 rule hrule
  rw [hm, Option.all_some, Bool.or_eq_true, List.isEmpty_iff, decide_eq_true_eq] at hle
  have := hle.resolve_left hne
  omega

theorem Token.ofWord_of_singleton (h : ofWord none word = [token]) (last : Option Kind) :
    ofWord last word = [token] := by
  unfold ofWord at h ⊢
  cases hkind : Kind.ofWord? word with
  | some kind => simpa [hkind] using h
  | none =>
    rw [hkind] at h
    dsimp only at h ⊢
    split at h
    · rename_i hnumber
      rw [if_pos hnumber, h]
    · rename_i hnumber
      rw [if_neg hnumber]
      split at h
      · simp at h
      · rename_i hcall
        rw [if_neg hcall, h]

theorem Token.kind_of_ofWord? {kind : Kind} (h : ofWord none word = [token])
    (hkind : Kind.ofWord? word = some kind) : token.kind = kind := by
  simp only [ofWord, hkind, List.cons.injEq, and_true] at h
  rw [← h]

theorem Kind.ofWord?_of_pair {first second : Token} (h : ofWord last word = [first, second]) :
    Kind.ofWord? word = none := by
  cases hkind : Kind.ofWord? word with
  | none => rfl
  | some kind => simp [ofWord, hkind] at h

/-- Which keyword stands in front of a function has no effect unless it is INSERT INTO. -/
theorem Token.ofWord_of_call {name : String} (h : ofWord none word = [⟨.func, name⟩, ⟨.openParen, "("⟩])
    (hlast : last ≠ some .insertWord) : ofWord last word = [⟨.func, name⟩, ⟨.openParen, "("⟩] := by
  simp only [ofWord, Kind.ofWord?_of_pair h, if_neg hlast] at h ⊢
  exact h

theorem scan_paren (last : Option Kind) (rest : List Char) :
    scan last ('(' :: rest) =
      ⟨⟨.openParen, "("⟩ :: (scan (some .openParen) rest).tokens,
        (scan (some .openParen) rest).unclosed⟩ := by
  have hword : ofWord last (String.ofList ['(']) = [⟨.openParen, "("⟩] :=
    ofWord_of_singleton (by decide) last
  have hkind : Kind.ofWord? (String.ofList ['(']) = some .openParen := by decide
  have happend := scan_append '(' [] rest startOf_paren last
  rw [hword, hkind] at happend
  exact happend

/-- The tokens of a text that starts with a whole token. -/
theorem scan_whole (token : Token) (rest : List Char) (htext : token.text = String.ofList (c :: tail))
    (htoken : ofWord none token.text = [token]) (hstart : startOf c (tail ++ rest) = .word (tail.length + 1))
    (last : Option Kind) :
    scan last (token.text.toList ++ rest) =
      ⟨token :: (scan (Kind.ofWord? token.text <|> last) rest).tokens,
        (scan (Kind.ofWord? token.text <|> last) rest).unclosed⟩ := by
  have happend := scan_append c tail rest hstart last
  rw [← htext, ofWord_of_singleton htoken last] at happend
  rw [htext, String.toList_ofList, ← htext]
  exact happend

/-- In front of a written text a whole token is cut as it is alone. -/
theorem Written.startOf_append (h : Written table text tokens) (hends : Ends text)
    (hparen : tokens.head? ≠ some ⟨.openParen, "("⟩) (hglue : unglued (token :: tokens) = true)
    (htext : token.text = String.ofList (c :: tail)) (hstart : startOf c tail = .word (tail.length + 1)) :
    startOf c (tail ++ text) = .word (tail.length + 1) := by
  refine Word.startOf_append hstart hends (fun rule hrule ↦ ?_) ?_
  · have hpast := h.not_runsPast hends hglue hrule
    rwa [htext, String.toList_ofList] at hpast
  · exact callHead_append hends fun hhead ↦ hparen (h.head?_eq_paren hhead)

theorem unglued_of_cons (h : unglued (token :: tokens) = true) : unglued tokens = true := by
  simp only [unglued, Bool.and_eq_true] at h
  exact h.2

/-- A written text is cut into its tokens, if no phrase runs over from one into the next. -/
theorem Written.scan_eq (h : Written table text tokens) (hglue : unglued tokens = true)
    (hlast : last = some .insertWord ↔ table = true) : scan last text = ⟨tokens, none⟩ := by
  induction h generalizing last with
  | nil => rfl
  | blank hc _ ih => rw [scan_cons_of_isBlank hc, ih hglue hlast]
  | @word table token text tokens hwhole hinsert hends hparen hrest ih =>
    obtain ⟨c, tail, htext, hc, hstart, htoken⟩ := exists_of_isWhole hwhole
    -- A keyword ends the wait for the name of a table; other words leave it as it is.
    have hlast' : (Kind.ofWord? token.text <|> last) = some .insertWord ↔
        (table && !token.isReserved) = true := by
      cases hkind : Kind.ofWord? token.text with
      | none => simpa [isReserved, hkind] using hlast
      | some kind =>
        have hne : kind ≠ .insertWord := kind_of_ofWord? htoken hkind ▸ hinsert
        simp [isReserved, hkind, hne]
    rw [scan_whole _ _ htext htoken (hrest.startOf_append hends hparen hglue htext hstart) last,
      ih (unglued_of_cons hglue) hlast']
  | paren _ ih => rw [scan_paren, ih (unglued_of_cons hglue) (by simp)]
  | @inParen table text tokens _ ih =>
    have hscan := scan_whole ⟨.inWord, "IN"⟩ (c := 'I') (' ' :: '(' :: text) rfl (by decide)
      startOf_in_paren last
    have hin : scan last ('I' :: 'N' :: ' ' :: '(' :: text) = _ := hscan
    rw [hin, scan_cons_of_isBlank (by decide), scan_paren,
      ih (unglued_of_cons (unglued_of_cons hglue)) (by simp)]
  | @call name text tokens hname _ ih =>
    obtain ⟨c, tail, htext, hc, hstart, htoken⟩ := exists_of_isCallName hname
    have hcall : startOf c ((tail ++ ['(']) ++ text) = .word ((tail ++ ['(']).length + 1) := by
      simpa using startOf_append_paren text hstart
    have hword : String.ofList (c :: (tail ++ ['('])) = name ++ "(" := by
      rw [htext]
      apply String.toList_inj.mp
      simp
    have happend := scan_append c (tail ++ ['(']) text hcall last
    rw [hword, ofWord_of_call htoken (by simpa using hlast), Kind.ofWord?_of_pair htoken,
      show (none <|> last) = last from rfl, ih (unglued_of_cons (unglued_of_cons hglue)) hlast]
      at happend
    rw [show name.toList ++ '(' :: text = c :: (tail ++ ['(']) ++ text by simp [htext]]
    exact happend
  | @insert table text tokens hends hparen hrest ih =>
    have hwhole : isWhole ⟨.insertWord, "INSERT INTO"⟩ = true :=
      isWhole_of_mem_ownWords (by decide)
    obtain ⟨c, tail, htext, hc, hstart, htoken⟩ := exists_of_isWhole hwhole
    have hkind : Kind.ofWord? "INSERT INTO" = some .insertWord := by decide
    have hscan := scan_whole _ _ htext htoken
      (hrest.startOf_append hends hparen hglue htext hstart) last
    rw [hkind, ih (unglued_of_cons hglue) (by simp)] at hscan
    exact hscan
  | @tableParen name text tokens hname hrest ih =>
    obtain ⟨c, tail, htext, hc, hstart, htoken⟩ :=
      exists_of_isWhole (isWhole_of_isTableName hname)
    change name = String.ofList (c :: tail) at htext
    have hspace : isBlank ' ' = true := by decide
    have htokens := unglued_of_cons (unglued_of_cons hglue)
    have hwritten : Written false (' ' :: '(' :: text) (⟨.openParen, "("⟩ :: tokens) :=
      .blank hspace (.paren (hrest false))
    have hpast : ∀ rule ∈ rules, ¬rule.RunsPast (c :: tail) (' ' :: '(' :: text) := by
      intro rule hrule
      have hpast := hwritten.not_runsPast (by simp [isStop, hspace]) hglue hrule
      rwa [htext, String.toList_ofList] at hpast
    -- The parenthesis is a word of its own or is taken along with the name.
    rcases startOf_append_space_paren hstart hpast with hcut | hcut
    · have hscan := scan_whole ⟨.identifier, name⟩ _ htext htoken hcut last
      rw [scan_cons_of_isBlank hspace, scan_paren, ih false htokens (by simp)] at hscan
      exact hscan
    · have hpair := hname
      simp only [isTableName, Bool.and_eq_true, decide_eq_true_eq] at hpair
      have hword : String.ofList (c :: (tail ++ [' ', '('])) = name ++ " (" := by
        rw [htext]
        apply String.toList_inj.mp
        simp
      have happend := scan_append c (tail ++ [' ', '(']) text
        (by simpa using hcut) last
      rw [hword, hlast.mpr rfl, hpair.2, Kind.ofWord?_of_pair hpair.2,
        show (none <|> some Kind.insertWord) = some Kind.insertWord from rfl,
        ih true htokens (by simp)] at happend
      rw [show name.toList ++ ' ' :: '(' :: text = c :: (tail ++ [' ', '(']) ++ text by
        simp [htext], hlast.mpr rfl]
      exact happend

end SqlLayout
