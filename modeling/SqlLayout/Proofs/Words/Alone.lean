import SqlLayout.Proofs.Words.Letters
import SqlLayout.Proofs.Words.Semicolon
import SqlLayout.Proofs.Words.Written

/-!
# Words that stand alone

A word that is cut off a text is cut off whole when nothing follows it: the rule that found it finds it
again, and no rule in front of that one does.  Only a keyword could be complete for want of further letters,
and a word that ends in front of a letter is no keyword.
-/

namespace SqlLayout.Word

open Text

variable {c : Char} {more letters : List Char} {words : List String} {rule : Rule}

section Prefixes

variable {p : Char → Bool} {word rest : List Char} {n : Nat}

/-- What stands at a place inside the word stands there in the word alone. -/
theorem exists_drop_of_append (hn : n < word.length) (h : (word ++ rest).drop n = c :: more) :
    ∃ tail, word.drop n = c :: tail ∧ more = tail ++ rest ∧ n + 1 + tail.length = word.length := by
  rw [List.drop_append_of_le_length (Nat.le_of_lt hn)] at h
  cases hdrop : word.drop n with
  | nil =>
    rw [List.drop_eq_nil_iff] at hdrop
    omega
  | cons d tail =>
    have hlength : (word.drop n).length = tail.length + 1 := by rw [hdrop]; rfl
    rw [List.length_drop] at hlength
    rw [hdrop, List.cons_append] at h
    obtain ⟨rfl, rfl⟩ := List.cons.inj h
    exact ⟨tail, rfl, rfl, by omega⟩

theorem exists_drop_of_append_cons_cons {d : Char} (hn : n + 2 ≤ word.length)
    (h : (word ++ rest).drop n = c :: d :: more) :
    ∃ tail, word.drop n = c :: d :: tail ∧ more = tail ++ rest := by
  obtain ⟨tail, htail, hmore, hlength⟩ := exists_drop_of_append (by omega) h
  cases tail with
  | nil =>
    rw [List.length_nil] at hlength
    omega
  | cons e tail =>
    obtain ⟨rfl, rfl⟩ := List.cons.inj hmore
    exact ⟨tail, htail, rfl⟩

/-! ### What is found within a prefix is found in it -/

theorem runLength_of_append (h : runLength p (word ++ rest) ≤ word.length) :
    runLength p word = runLength p (word ++ rest) := by
  by_cases hall : word.all p = true
  · rw [runLength_append_of_all rest hall] at h ⊢
    rw [runLength_of_all hall]
    omega
  · rw [Bool.not_eq_true] at hall
    rw [runLength_append_of_not_all rest hall]

theorem runLength?_of_append (h : runLength? p (word ++ rest) = some n) (hn : n ≤ word.length) :
    runLength? p word = some n := by
  rw [runLength?_eq_some] at h ⊢
  obtain ⟨rfl, hpos⟩ := h
  exact ⟨runLength_of_append hn, hpos⟩

theorem spelledLength?_of_append (h : spelledLength? letters (word ++ rest) = some n) (hn : n ≤ word.length) :
    spelledLength? letters word = some n := by
  induction letters generalizing word n with
  | nil => simpa [spelledLength?] using h
  | cons letter letters ih =>
    cases word with
    | nil =>
      have := (length_of_spelledLength? h).1
      simp only [List.length_cons, List.length_nil] at this hn
      omega
    | cons c word =>
      simp only [List.cons_append, spelledLength?] at h ⊢
      split at h
      · rename_i hc
        obtain ⟨m, hm, rfl⟩ := Option.map_eq_some_iff.mp h
        simp only [List.length_cons] at hn
        rw [if_pos hc, ih hm (by omega), Option.map_some]
      · cases h

theorem phraseLength?_of_append (hwords : words.all isKeyword = true)
    (h : phraseLength? words (word ++ rest) = some n) (hn : n ≤ word.length) :
    phraseLength? words word = some n := by
  induction words generalizing word n with
  | nil => simpa [phraseLength?] using h
  | cons first words ih =>
    simp only [List.all_cons, Bool.and_eq_true] at hwords
    cases words with
    | nil => exact spelledLength?_of_append h hn
    | cons next words =>
      obtain ⟨head, gap, tail, hhead, hgap, htail, rfl⟩ := phraseLength?_eq_some.mp h
      have hnext : isKeyword next = true := by
        simpa using List.all_eq_true.mp hwords.2 next List.mem_cons_self
      have hpos := phraseLength?_pos hnext htail
      have hle : head ≤ word.length := by omega
      rw [List.drop_append_of_le_length hle] at hgap
      rw [List.drop_append_of_le_length (show head + gap ≤ word.length by omega)] at htail
      refine phraseLength?_eq_some.mpr ⟨head, gap, tail, spelledLength?_of_append hhead hle,
        runLength?_of_append hgap ?_, ih hwords.2 htail ?_, rfl⟩
      · rw [List.length_drop]
        omega
      · rw [List.length_drop]
        omega

theorem backtickLength?_of_append (h : backtickLength? (word ++ rest) = some n)
    (hn : n ≤ word.length) : backtickLength? word = some n := by
  obtain ⟨inner, m, more, heq, hm, hmore, rfl⟩ := backtickLength?_eq_some.mp h
  cases word with
  | nil => cases hn
  | cons c word =>
    obtain ⟨rfl, rfl⟩ := List.cons.inj heq
    rw [List.length_cons] at hn
    obtain ⟨tail, htail, -⟩ := exists_drop_of_append (by omega) hmore
    exact backtickLength?_eq_some.mpr
      ⟨word, m, tail, rfl, runLength?_of_append hm (by omega), htail, rfl⟩

theorem unsignedLength?_of_append (h : unsignedLength? (word ++ rest) = some n)
    (hn : n ≤ word.length) : unsignedLength? word = some n := by
  obtain ⟨whole, hwhole, ⟨fraction, hdrop, rfl⟩ | ⟨hpoint, rfl⟩⟩ := unsignedLength?_eq_some.mp h
  · obtain ⟨tail, htail, rfl, hlength⟩ := exists_drop_of_append (by omega) hdrop
    have hrun := runLength_of_append (show runLength isDecimal (tail ++ rest) ≤ tail.length by omega)
    exact unsignedLength?_eq_some.mpr
      ⟨whole, runLength?_of_append hwhole (by omega), .inl ⟨tail, htail, by rw [hrun]⟩⟩
  · refine unsignedLength?_eq_some.mpr
      ⟨whole, runLength?_of_append hwhole hn, .inr ⟨fun hhead ↦ hpoint ?_, rfl⟩⟩
    rw [List.drop_append_of_le_length hn, List.head?_append, hhead]
    rfl

theorem numberLength?_of_append (hword : word ≠ []) (h : numberLength? (word ++ rest) = some n)
    (hn : n ≤ word.length) : numberLength? word = some n := by
  cases word with
  | nil => exact absurd rfl hword
  | cons c word =>
    rw [List.cons_append, numberLength?_cons] at h
    rw [numberLength?_cons]
    split at h
    next hsign =>
      obtain ⟨m, hm, rfl⟩ := Option.map_eq_some_iff.mp h
      rw [List.length_cons] at hn
      rw [if_pos hsign, unsignedLength?_of_append hm (by omega), Option.map_some]
    next hsign =>
      rw [if_neg hsign]
      exact unsignedLength?_of_append h hn

/-- A rule that finds a word inside a prefix of a text finds it in the prefix. -/
theorem Rule.length?_of_append (hrule : rule.isRegular = true) (hword : word ≠ [])
    (h : rule.length? (word ++ rest) = some n) (hn : n ≤ word.length) : rule.length? word = some n := by
  have hkeywords := keywords_of_isRegular hrule
  cases rule with
  | phrase words =>
    obtain ⟨hphrase, hend⟩ := length?_phrase_eq_some.mp h
    refine length?_phrase_eq_some.mpr ⟨phraseLength?_of_append hkeywords hphrase hn, ?_⟩
    rw [List.drop_append_of_le_length hn] at hend
    cases hdrop : word.drop n with
    | nil => rfl
    | cons c tail => simpa [hdrop, atWordEnd] using hend
  | openPhrase words => exact phraseLength?_of_append hkeywords h hn
  | symbol s =>
    obtain ⟨hsymbol, rfl⟩ := length?_symbol_eq_some.mp h
    exact length?_symbol_eq_some.mpr
      ⟨List.prefix_of_prefix_length_le hsymbol (List.prefix_append word rest) hn, rfl⟩
  | callHead =>
    obtain ⟨m, more, hm, hmore, rfl⟩ := length?_callHead_eq_some.mp h
    have hle : m ≤ word.length := by omega
    rw [List.drop_append_of_le_length hle] at hmore hn ⊢
    have hgap : runLength isBlank (word.drop m ++ rest) ≤ (word.drop m).length := by
      rw [List.length_drop]
      omega
    rw [← runLength_of_append hgap] at hmore hn ⊢
    obtain ⟨tail, htail, -⟩ := exists_drop_of_append (by omega) hmore
    exact length?_callHead_eq_some.mpr ⟨m, tail, runLength?_of_append hm hle, htail, rfl⟩
  | number => exact numberLength?_of_append hword h hn
  | backtickPair =>
    obtain ⟨m, k, more, hm, hdrop, hk, rfl⟩ := length?_backtickPair_eq_some.mp h
    obtain ⟨tail, htail, rfl, hlength⟩ := exists_drop_of_append (by omega) hdrop
    exact length?_backtickPair_eq_some.mpr ⟨m, k, tail, backtickLength?_of_append hm (by omega), htail,
      backtickLength?_of_append hk (by omega), rfl⟩
  | backtickName => exact backtickLength?_of_append h hn
  | dottedName =>
    obtain ⟨m, k, more, hm, hdrop, hk, rfl⟩ := length?_dottedName_eq_some.mp h
    obtain ⟨tail, htail, rfl, hlength⟩ := exists_drop_of_append (by omega) hdrop
    exact length?_dottedName_eq_some.mpr ⟨m, k, tail, runLength?_of_append hm (by omega), htail,
      runLength?_of_append hk (by omega), rfl⟩
  | dottedStar =>
    obtain ⟨m, more, hm, hdrop, rfl⟩ := length?_dottedStar_eq_some.mp h
    obtain ⟨tail, htail, -⟩ := exists_drop_of_append_cons_cons hn hdrop
    exact length?_dottedStar_eq_some.mpr ⟨m, tail, runLength?_of_append hm (by omega), htail, rfl⟩
  | name => exact runLength?_of_append h hn
  | namedPlaceholder =>
    obtain ⟨inner, m, c, more, heq, hm, hdrop, hc, rfl⟩ := length?_namedPlaceholder_eq_some.mp h
    obtain ⟨tail, rfl, rfl⟩ : ∃ tail, word = '%' :: '(' :: tail ∧ inner = tail ++ rest :=
      exists_drop_of_append_cons_cons (n := 0) (by omega) heq
    simp only [List.length_cons] at hn
    obtain ⟨after, hafter, -⟩ := exists_drop_of_append_cons_cons (by omega) hdrop
    exact length?_namedPlaceholder_eq_some.mpr
      ⟨tail, m, c, after, rfl, runLength?_of_append hm (by omega), hafter, hc, rfl⟩
  | placeholder =>
    obtain ⟨c, more, heq, hc, rfl⟩ := length?_placeholder_eq_some.mp h
    obtain ⟨tail, rfl, -⟩ : ∃ tail, word = '%' :: c :: tail ∧ more = tail ++ rest :=
      exists_drop_of_append_cons_cons (n := 0) hn heq
    exact length?_placeholder_eq_some.mpr ⟨c, tail, rfl, hc, rfl⟩

/-! ### What is found in a prefix is found in the text -/

theorem exists_runLength?_append (rest : List Char) (h : runLength? p word = some n) :
    ∃ m, runLength? p (word ++ rest) = some m := by
  obtain ⟨hrun, hpos⟩ := runLength?_eq_some.mp h
  by_cases hall : word.all p = true
  · rw [runLength_of_all hall] at hrun
    exact ⟨_, runLength?_eq_some.mpr ⟨runLength_append_of_all rest hall, by omega⟩⟩
  · rw [Bool.not_eq_true] at hall
    exact ⟨n, by rw [runLength?_congr (runLength_append_of_not_all rest hall), h]⟩

theorem backtickLength?_append_of_some (h : backtickLength? word = some n) :
    backtickLength? (word ++ rest) = some n := by
  obtain ⟨inner, m, more, rfl, hm, hmore, rfl⟩ := backtickLength?_eq_some.mp h
  exact backtickLength?_eq_some.mpr ⟨inner ++ rest, m, more ++ rest, rfl,
    runLength?_append_of_drop hm hmore, drop_append_of_drop hmore, rfl⟩

theorem exists_unsignedLength?_append (rest : List Char) (h : unsignedLength? word = some n) :
    ∃ m, unsignedLength? (word ++ rest) = some m := by
  obtain ⟨m, hm, -⟩ := unsignedLength?_eq_some.mp h
  obtain ⟨whole, hwhole⟩ := exists_runLength?_append rest hm
  simp only [unsignedLength?, hwhole, Option.bind_eq_bind, Option.bind_some]
  split <;> exact ⟨_, rfl⟩

theorem exists_numberLength?_append (rest : List Char) (h : numberLength? word = some n) :
    ∃ m, numberLength? (word ++ rest) = some m := by
  cases word with
  | nil => cases h
  | cons c word =>
    rw [numberLength?_cons] at h
    rw [List.cons_append, numberLength?_cons]
    split at h
    next hsign =>
      obtain ⟨k, hk, -⟩ := Option.map_eq_some_iff.mp h
      obtain ⟨m, hm⟩ := exists_unsignedLength?_append rest hk
      rw [if_pos hsign, hm]
      exact ⟨m + 1, rfl⟩
    next hsign =>
      rw [if_neg hsign]
      exact exists_unsignedLength?_append rest h

/-- A rule that finds a word in a prefix finds one in the text.  Only a keyword may be complete at the end
of the prefix and go on in the text. -/
theorem Rule.exists_length?_append (hrule : rule.isRegular = true) (rest : List Char)
    (h : rule.length? word = some n) :
    (∃ m, rule.length? (word ++ rest) = some m) ∨
      atWordEnd rest = false ∧ ∃ words, rule = .phrase words ∧ phraseLength? words word = some n ∧
        n = word.length := by
  have hkeywords := keywords_of_isRegular hrule
  cases rule with
  | phrase words =>
    obtain ⟨hphrase, hend⟩ := length?_phrase_eq_some.mp h
    have happend : phraseLength? words (word ++ rest) = some n :=
      phraseLength?_append_of_some hkeywords hphrase
    cases hdrop : word.drop n with
    | cons c more =>
      refine .inl ⟨n, length?_phrase_eq_some.mpr ⟨happend, ?_⟩⟩
      rw [drop_append_of_drop hdrop]
      rwa [hdrop] at hend
    | nil =>
      have hn : n = word.length :=
        Nat.le_antisymm (phraseLength?_le hphrase) (List.drop_eq_nil_iff.mp hdrop)
      cases hrest : atWordEnd rest with
      | false => exact .inr ⟨rfl, words, rfl, hphrase, hn⟩
      | true =>
        refine .inl ⟨n, length?_phrase_eq_some.mpr ⟨happend, ?_⟩⟩
        rw [hn, List.drop_left, hrest]
  | openPhrase words => exact .inl ⟨n, phraseLength?_append_of_some hkeywords h⟩
  | symbol s =>
    obtain ⟨hsymbol, rfl⟩ := length?_symbol_eq_some.mp h
    exact .inl ⟨_, length?_symbol_eq_some.mpr ⟨hsymbol.trans (List.prefix_append word rest), rfl⟩⟩
  | callHead =>
    obtain ⟨m, more, hm, hmore, rfl⟩ := length?_callHead_eq_some.mp h
    have hrun : runLength? isWordChar (word ++ rest) = some m := by
      cases hdrop : word.drop m with
      | cons c tail => exact runLength?_append_of_drop hm hdrop
      | nil =>
        rw [← List.drop_drop, hdrop, List.drop_nil] at hmore
        cases hmore
    have hgap : runLength isBlank ((word ++ rest).drop m) = runLength isBlank (word.drop m) := by
      rw [List.drop_append_of_le_length (runLength?_le hm)]
      exact runLength_append_of_drop rfl (by rw [List.drop_drop, hmore])
    refine .inl ⟨_, length?_callHead_eq_some.mpr ⟨m, more ++ rest, hrun, ?_, rfl⟩⟩
    rw [hgap, drop_append_of_drop hmore]
  | number => exact .inl (exists_numberLength?_append rest h)
  | backtickPair =>
    obtain ⟨m, k, more, hm, hdrop, hk, rfl⟩ := length?_backtickPair_eq_some.mp h
    exact .inl ⟨_, length?_backtickPair_eq_some.mpr ⟨m, k, more ++ rest,
      backtickLength?_append_of_some hm, drop_append_of_drop hdrop, backtickLength?_append_of_some hk, rfl⟩⟩
  | backtickName => exact .inl ⟨n, backtickLength?_append_of_some h⟩
  | dottedName =>
    obtain ⟨m, k, more, hm, hdrop, hk, rfl⟩ := length?_dottedName_eq_some.mp h
    obtain ⟨j, hj⟩ := exists_runLength?_append rest hk
    exact .inl ⟨_, length?_dottedName_eq_some.mpr ⟨m, j, more ++ rest,
      runLength?_append_of_drop hm hdrop, drop_append_of_drop hdrop, hj, rfl⟩⟩
  | dottedStar =>
    obtain ⟨m, more, hm, hdrop, rfl⟩ := length?_dottedStar_eq_some.mp h
    exact .inl ⟨_, length?_dottedStar_eq_some.mpr ⟨m, more ++ rest,
      runLength?_append_of_drop hm hdrop, drop_append_of_drop hdrop, rfl⟩⟩
  | name => exact .inl (exists_runLength?_append rest h)
  | namedPlaceholder => exact .inl ⟨n, namedPlaceholder_append h⟩
  | placeholder => exact .inl ⟨n, placeholder_append h⟩

/-! ### Keywords that go on -/

theorem isWordChar_take_of_spelledLength? (hletters : letters.all isKeywordLetter = true)
    (h : spelledLength? letters word = some n) : (word.take n).all isWordChar = true := by
  induction letters generalizing word n with
  | nil =>
    cases h
    simp
  | cons letter letters ih =>
    simp only [List.all_cons, Bool.and_eq_true] at hletters
    cases word with
    | nil => cases h
    | cons c word =>
      simp only [spelledLength?] at h
      split at h
      · rename_i hspells
        obtain ⟨m, hm, rfl⟩ := Option.map_eq_some_iff.mp h
        simp [isWordChar_of_spells hletters.1 hspells, ih hletters.2 hm]
      · cases h

/-- The name that a phrase starts with is followed by nothing, or by blanks and another keyword. -/
theorem drop_run_of_phrase (hwords : words.all isKeyword = true) (hne : words ≠ [])
    (h : phraseLength? words word = some word.length) :
    word.drop (runLength isWordChar word) = [] ∨
      ∃ c more, word.drop (runLength isWordChar word) = c :: more ∧ isBlank c = true ∧
        ((c :: more).dropWhile isBlank).head? ≠ some '(' := by
  cases words with
  | nil => exact absurd rfl hne
  | cons first words =>
    simp only [List.all_cons, Bool.and_eq_true] at hwords
    have hletters := letters_of_isKeyword hwords.1
    cases words with
    | nil =>
      have hall := isWordChar_take_of_spelledLength? hletters h
      rw [List.take_length] at hall
      left
      rw [runLength_of_all hall, List.drop_length]
    | cons next words =>
      obtain ⟨head, gap, tail, hhead, hgap, htail, -⟩ := phraseLength?_eq_some.mp h
      obtain ⟨c, more, hdrop, hc⟩ := exists_cons_of_runLength? hgap
      right
      have hle : head ≤ word.length := (length_of_spelledLength? hhead).2
      have hrun : runLength isWordChar word = head := by
        have happend : runLength isWordChar (word.take head ++ c :: more) = _ :=
          runLength_append_of_all _ (isWordChar_take_of_spelledLength? hletters hhead)
        rw [← hdrop, List.take_append_drop, hdrop, List.length_take, Nat.min_eq_left hle] at happend
        simpa [runLength, isWordChar_of_isBlank hc] using happend
      refine ⟨c, more, by rw [hrun, hdrop], hc, fun hparen ↦ ?_⟩
      obtain ⟨inner, hinner⟩ := List.head?_eq_some_iff.mp hparen
      rw [← hdrop, ← drop_runLength, (runLength?_eq_some.mp hgap).1, List.drop_drop] at hinner
      rw [hinner, phraseLength?_paren hwords.2 (List.cons_ne_nil _ _)] at htail
      cases htail

def Rule.firstLetter? (rule : Rule) : Option Char :=
  rule.keywords.head?.bind (·.toList.head?)

def Rule.startsApart : Rule → Bool
  | .phrase words => (Rule.phrase words).firstLetter? != some 'g'
  | .openPhrase words => (Rule.openPhrase words).firstLetter? == some 'g'
  | .symbol s => s.toList.head?.any (!isWordChar ·)
  | _ => true

theorem startsApart_of_mem_rules (h : rule ∈ rules) : rule.startsApart = true := by
  revert h rule
  decide +kernel

/-- Where a letter follows a word that spells a phrase, no rule behind that of the phrase finds the word. -/
theorem Rule.length?_ne_of_phrase (hrule : rule ∈ rules) (hphrase : .phrase words ∈ rules)
    (h : phraseLength? words word = some word.length) (hrest : atWordEnd rest = false) :
    rule.length? (word ++ rest) ≠ some word.length := by
  intro hfound
  have hregular := isRegular_of_mem_rules hphrase
  simp only [Rule.isRegular, Bool.and_eq_true, Bool.not_eq_true', List.isEmpty_eq_false_iff] at hregular
  obtain ⟨letter, c, tail, hletter, rfl, hkeyword, hspells⟩ :=
    exists_cons_of_phrase hregular.2 hregular.1 h
  change (Rule.phrase words).firstLetter? = some letter at hletter
  have hc : isWordChar c = true := isWordChar_of_spells hkeyword hspells
  have halone := Rule.length?_of_append (isRegular_of_mem_rules hrule) (List.cons_ne_nil c tail) hfound
    (Nat.le_refl _)
  have hrun := drop_run_of_phrase hregular.2 hregular.1 h
  have hne : ∀ d, isWordChar d = false → c ≠ d := by
    rintro d hd rfl
    simp [hc] at hd
  -- Behind the first name stands no point, since it is followed by nothing or by a blank.
  have hundotted : ∀ {behind more : List Char}, behind = [] ∨ (∃ d others, behind = d :: others ∧
      isBlank d = true ∧ ((d :: others).dropWhile isBlank).head? ≠ some '(') →
      behind ≠ '.' :: more := by
    rintro behind more (rfl | ⟨d, others, rfl, hblank, -⟩) hpoint
    · cases hpoint
    · cases hpoint
      exact absurd hblank (by decide)
  cases rule with
  | phrase others =>
    have hend := (length?_phrase_eq_some.mp hfound).2
    rw [List.drop_left, hrest] at hend
    cases hend
  | openPhrase others =>
    have hothers := isRegular_of_mem_rules hrule
    simp only [Rule.isRegular, Bool.and_eq_true, Bool.not_eq_true', List.isEmpty_eq_false_iff] at hothers
    obtain ⟨other, d, more, hother, hd, hkeyword', hspells'⟩ :=
      exists_cons_of_phrase hothers.2 hothers.1 halone
    cases hd
    have hsame := eq_of_spells hkeyword hkeyword' hspells hspells'
    have hphrase' := startsApart_of_mem_rules hphrase
    have hopen : (Rule.openPhrase others).firstLetter? = some 'g' := by
      simpa [Rule.startsApart] using startsApart_of_mem_rules hrule
    change (Rule.openPhrase others).firstLetter? = some other at hother
    rw [hopen] at hother
    simp only [Rule.startsApart, hletter, hsame, ← hother, bne_self_eq_false, Bool.false_eq_true]
      at hphrase'
  | symbol s =>
    have hsymbol := startsApart_of_mem_rules hrule
    have hstarts := (length?_symbol_eq_some.mp halone).1
    cases hs : s.toList with
    | nil => simp [Rule.startsApart, hs] at hsymbol
    | cons d more =>
      rw [hs] at hstarts
      obtain ⟨rfl, -⟩ := List.cons_prefix_cons.mp hstarts
      simp [Rule.startsApart, hs, hc] at hsymbol
  | callHead =>
    obtain ⟨m, more, hm, hparen, -⟩ := length?_callHead_eq_some.mp halone
    rw [(runLength?_eq_some.mp hm).1] at hrun
    rw [← List.drop_drop, drop_runLength] at hparen
    rcases hrun with hnil | ⟨d, others, hdrop, -, hblank⟩
    · rw [hnil] at hparen
      cases hparen
    · rw [hdrop] at hparen
      exact hblank (by rw [hparen]; rfl)
  | number =>
    have hdecimal : isDecimal c = false := isDecimal_of_spells hkeyword hspells
    simp [Rule.length?, numberLength?, unsignedLength?, runLength?, runLength, hdecimal,
      hne '-' (by decide), hne '+' (by decide)] at halone
  | backtickPair => simp [Rule.length?, backtickLength?, hne '`' (by decide)] at halone
  | backtickName => simp [Rule.length?, backtickLength?, hne '`' (by decide)] at halone
  | dottedName =>
    obtain ⟨m, -, more, hm, hpoint, -⟩ := length?_dottedName_eq_some.mp halone
    rw [(runLength?_eq_some.mp hm).1] at hrun
    exact hundotted hrun hpoint
  | dottedStar =>
    obtain ⟨m, more, hm, hpoint, -⟩ := length?_dottedStar_eq_some.mp halone
    rw [(runLength?_eq_some.mp hm).1] at hrun
    exact hundotted hrun hpoint
  | name =>
    cases rest with
    | nil => cases hrest
    | cons d more =>
      have hd : isWordChar d = true := by simpa [atWordEnd] using hrest
      have hrun := (runLength?_eq_some.mp hfound).1
      by_cases hall : (c :: tail).all isWordChar = true
      · rw [runLength_append_of_all _ hall] at hrun
        simp only [runLength, hd, List.takeWhile_cons_of_pos, List.length_cons] at hrun
        omega
      · rw [Bool.not_eq_true] at hall
        rw [runLength_append_of_not_all _ hall] at hrun
        have hlt := runLength_lt_of_not_all hall
        omega
  | namedPlaceholder => simp [Rule.length?, hne '%' (by decide)] at halone
  | placeholder => simp [Rule.length?, hne '%' (by decide)] at halone

end Prefixes

theorem idxOf?_of_append {word rest : List Char} {n : Nat} (h : (word ++ rest).idxOf? c = some n)
    (hn : n < word.length) : word.idxOf? c = some n := by
  induction word generalizing n with
  | nil => simp at hn
  | cons d word ih =>
    simp only [List.cons_append, List.idxOf?_cons] at h ⊢
    split at h
    · rename_i hd
      simpa [hd] using h
    · rename_i hd
      obtain ⟨m, hm, rfl⟩ := Option.map_eq_some_iff.mp h
      simp only [List.length_cons] at hn
      simp [hd, ih hm (by omega)]

/-- A word that is cut off a text is cut off whole when nothing follows it. -/
theorem startOf_alone {tail rest : List Char} (h : startOf c (tail ++ rest) = .word (tail.length + 1)) :
    startOf c tail = .word (tail.length + 1) := by
  cases hquote : isQuote c with
  | true =>
    rw [startOf_eq_word_of_isQuote hquote] at h ⊢
    obtain ⟨m, hm, hlength⟩ := h
    exact ⟨m, idxOf?_of_append hm (by omega), hlength⟩
  | false =>
    rw [startOf_eq_word_of_not_isQuote hquote] at h ⊢
    obtain ⟨front, rule, back, hrules, hrule, hfront⟩ := List.findSome?_eq_some_iff.mp h
    have hmem : rule ∈ rules := by simp [hrules]
    refine List.findSome?_eq_some_iff.mpr ⟨front, rule, back, hrules, ?_, fun other hother ↦ ?_⟩
    · exact Rule.length?_of_append (isRegular_of_mem_rules hmem) (List.cons_ne_nil c tail) hrule
        (by simp)
    · have hmem' : other ∈ rules := by simp [hrules, hother]
      cases hfound : other.length? (c :: tail) with
      | none => rfl
      | some n =>
        rcases Rule.exists_length?_append (isRegular_of_mem_rules hmem') rest hfound with
          ⟨m, hm⟩ | ⟨hend, words, rfl, hphrase, rfl⟩
        · rw [List.cons_append, hfront other hother] at hm
          cases hm
        · exact absurd hrule (Rule.length?_ne_of_phrase hmem hmem' hphrase hend)

end SqlLayout.Word
