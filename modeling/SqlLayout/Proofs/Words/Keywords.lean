import SqlLayout.Proofs.Words.LetterCase
import SqlLayout.Proofs.Words.Taken

/-!
# The spelling of keywords

A keyword that is looked for in front of the head of a call is a word by itself: whatever blanks or
parentheses follow it, the word ends with its last letter.  So the text of its token in upper case is the
name of the keyword.  That fails for the keywords behind the head of a call, which can take a parenthesis
along.
-/

namespace SqlLayout

open Text Word

variable {kind : Kind} {c : Char}

/-- The keywords that are looked for in front of the head of a call and start no longer phrase. -/
def Kind.isPlainKeyword : Kind → Bool
  | valuesWord | inWord | onWord | ascWord | asWord | isWord | nullWord | descWord | fromWord
  | havingWord | limitWord | notWord | whereWord => true
  | _ => false

/-- The signs that are keywords by themselves. -/
def Kind.isSign : Kind → Bool
  | semicolon | comma | openParen | closeParen => true
  | _ => false

/-- The keywords inside a case expression.  They are looked for behind the head of a call, so a parenthesis
that stands behind one of them with a blank in between becomes part of its text. -/
def Kind.isCaseKeyword : Kind → Bool
  | whenWord | thenWord | elseWord => true
  | _ => false

def Kind.rule (kind : Kind) : Rule :=
  .phrase [String.ofList (kind.name.toList.map Char.toLower)]

def Word.Rule.isForOther (word : String) : Rule → Bool
  | .phrase (first :: _) | .openPhrase (first :: _ :: _) => first != word
  | .symbol _ => true
  | _ => false

/-- The name of a plain keyword is in capitals, and the rules in front of its own are for others. -/
def Kind.isRuled (kind : Kind) : Bool :=
  kind.name.toList.all Char.isUpper && !hasExpansion kind.name.toList &&
    isKeyword (String.ofList (kind.name.toList.map Char.toLower)) &&
    rules.contains kind.rule &&
    (rules.takeWhile (· != kind.rule)).all
      (·.isForOther (String.ofList (kind.name.toList.map Char.toLower)))

theorem Kind.isRuled_of_isPlainKeyword (h : kind.isPlainKeyword = true) : kind.isRuled = true := by
  cases kind with
  | valuesWord | inWord | onWord | ascWord | asWord | isWord | nullWord | descWord | fromWord
  | havingWord | limitWord | notWord | whereWord => decide +kernel
  | _ => cases h

namespace Word

variable {text : List Char} {m : Nat}

/-- Two keywords that are spelled at the same place, each up to its end, are the same. -/
theorem eq_of_spelledLength? {letters others : List Char} {n : Nat}
    (hletters : letters.all isKeywordLetter = true) (hothers : others.all isKeywordLetter = true)
    (h : spelledLength? letters text = some n) (hend : atWordEnd (text.drop n) = true)
    (h' : spelledLength? others text = some m) (hend' : atWordEnd (text.drop m) = true) :
    letters = others := by
  have hnil : ∀ {letter c : Char} {text : List Char}, isKeywordLetter letter = true →
      spells letter c = true → atWordEnd (c :: text) = true → False := by
    intro letter c text hletter hspells hend
    simp [atWordEnd, isWordChar_of_spells hletter hspells] at hend
  induction text generalizing letters others n m with
  | nil =>
    cases letters with
    | cons letter letters => cases h
    | nil =>
      cases others with
      | cons other others => cases h'
      | nil => rfl
  | cons c text ih =>
    cases letters with
    | nil =>
      cases others with
      | nil => rfl
      | cons other others =>
        simp only [List.all_cons, Bool.and_eq_true] at hothers
        cases h
        simp only [spelledLength?] at h'
        split at h'
        · rename_i hspells
          exact (hnil hothers.1 hspells hend).elim
        · cases h'
    | cons letter letters =>
      simp only [List.all_cons, Bool.and_eq_true] at hletters
      simp only [spelledLength?] at h
      split at h
      · rename_i hspells
        obtain ⟨n, hn, rfl⟩ := Option.map_eq_some_iff.mp h
        cases others with
        | nil =>
          cases h'
          exact (hnil hletters.1 hspells hend').elim
        | cons other others =>
          simp only [List.all_cons, Bool.and_eq_true] at hothers
          simp only [spelledLength?] at h'
          split at h'
          · rename_i hspells'
            obtain ⟨m, hm, rfl⟩ := Option.map_eq_some_iff.mp h'
            rw [eq_of_spells hletters.1 hothers.1 hspells hspells',
              ih hletters.2 hothers.2 hn hend hm hend']
          · cases h'
      · cases h

/-- The first keyword of a phrase is spelled up to its end. -/
theorem exists_of_phrase {first : String} {words : List String} {n : Nat}
    (h : phraseLength? (first :: words) text = some n) (hend : words = [] → atWordEnd (text.drop n) = true) :
    ∃ m, spelledLength? first.toList text = some m ∧ atWordEnd (text.drop m) = true := by
  cases words with
  | nil => exact ⟨n, h, hend rfl⟩
  | cons next words =>
    obtain ⟨head, gap, tail, hhead, hgap, -⟩ := phraseLength?_eq_some.mp h
    obtain ⟨c, more, hdrop, hc⟩ := exists_cons_of_runLength? hgap
    exact ⟨head, hhead, by simp [hdrop, atWordEnd, isWordChar_of_isBlank hc]⟩

/-- Where a keyword is spelled up to its end, a rule for others finds nothing. -/
theorem Rule.length?_of_isForOther {rule : Rule} (hrule : rule ∈ rules) {keyword : String}
    (hother : rule.isForOther keyword = true) (hkeyword : isKeyword keyword = true)
    (h : spelledLength? keyword.toList text = some m) (hend : atWordEnd (text.drop m) = true) :
    rule.length? text = none := by
  have hregular := isRegular_of_mem_rules hrule
  -- The first keyword of a phrase that is found would be the keyword.
  have hphrase : ∀ {first : String} {words : List String} {n : Nat},
      (first :: words).all isKeyword = true → first ≠ keyword →
      phraseLength? (first :: words) text = some n →
      (words = [] → atWordEnd (text.drop n) = true) → False := by
    intro first words n hwords hne hn hend'
    simp only [List.all_cons, Bool.and_eq_true] at hwords
    obtain ⟨k, hk, hk'⟩ := exists_of_phrase hn hend'
    apply hne
    apply String.toList_inj.mp
    exact eq_of_spelledLength? (letters_of_isKeyword hwords.1) (letters_of_isKeyword hkeyword) hk hk' h
      hend
  cases hfound : rule.length? text with
  | none => rfl
  | some n =>
    exfalso
    unfold isForOther at hother
    split at hother
    · rename_i first words
      simp only [Rule.isRegular, Bool.and_eq_true] at hregular
      obtain ⟨hfound, hend'⟩ := length?_phrase_eq_some.mp hfound
      exact hphrase hregular.2 (by simpa using hother) hfound fun _ ↦ hend'
    · rename_i first next words
      simp only [Rule.isRegular, Bool.and_eq_true] at hregular
      exact hphrase hregular.2 (by simpa using hother) hfound
        fun hnil ↦ absurd hnil (List.cons_ne_nil _ _)
    · rename_i s
      have hapart := startsApart_of_mem_rules hrule
      have hwords : [keyword].all isKeyword = true := by simpa using hkeyword
      obtain ⟨letter, c, tail, -, rfl, hletter, hspells⟩ :=
        exists_cons_of_phrase hwords (List.cons_ne_nil _ _) h
      have hstarts := (length?_symbol_eq_some.mp hfound).1
      cases hs : s.toList with
      | nil => simp [startsApart, hs] at hapart
      | cons d more =>
        rw [hs] at hstarts
        obtain ⟨rfl, -⟩ := List.cons_prefix_cons.mp hstarts
        simp [startsApart, hs, isWordChar_of_spells hletter hspells] at hapart
    · cases hother

/-- Where a keyword is spelled up to its end, and the rules in front of its own are for others, its own
finds it. -/
theorem findSome?_of_rule {keyword : String} (hmem : .phrase [keyword] ∈ rules)
    (hothers : ∀ rule ∈ rules.takeWhile (· != .phrase [keyword]), rule.isForOther keyword = true)
    (hkeyword : isKeyword keyword = true) (h : spelledLength? keyword.toList text = some m)
    (hend : atWordEnd (text.drop m) = true) : rules.findSome? (Rule.length? text) = some m := by
  have hown : (Rule.phrase [keyword]).length? text = some m := Rule.length?_phrase_eq_some.mpr ⟨h, hend⟩
  have hfront : (rules.takeWhile (· != .phrase [keyword])).findSome? (Rule.length? text) = none := by
    rw [List.findSome?_eq_none_iff]
    intro rule hrule
    exact rule.length?_of_isForOther ((List.takeWhile_prefix _).subset hrule) (hothers rule hrule)
      hkeyword h hend
  rw [← List.takeWhile_append_dropWhile (p := (· != Rule.phrase [keyword])) (l := rules),
    List.findSome?_append, hfront, Option.none_or]
  cases hback : rules.dropWhile (· != .phrase [keyword]) with
  | nil =>
    have hall : rules.takeWhile (· != .phrase [keyword]) = rules := by
      rw [← List.append_nil (rules.takeWhile _), ← hback, List.takeWhile_append_dropWhile]
    have hnot := List.all_eq_true.mp (List.all_takeWhile (p := (· != Rule.phrase [keyword]))
      (l := rules)) (.phrase [keyword]) (by rwa [hall])
    simp at hnot
  | cons rule more =>
    have hhead := List.head?_dropWhile_not (· != Rule.phrase [keyword]) rules
    rw [hback] at hhead
    obtain rfl : rule = .phrase [keyword] := by simpa using hhead
    rw [List.findSome?_cons, hown]

end Word

/-! ### The first piece of a word -/

theorem exists_piecesFrom {piece : List Char} (hpiece : piece ≠ []) (text : List Char) :
    ∃ others, piecesFrom piece text = (piece ++ text.takeWhile (!isBlank ·)) :: others := by
  induction text generalizing piece with
  | nil => exact ⟨[], by simp [piecesFrom, hpiece]⟩
  | cons c text ih =>
    cases hc : isBlank c with
    | true => exact ⟨piecesFrom [] text, by simp [piecesFrom, hc, hpiece]⟩
    | false =>
      obtain ⟨others, hothers⟩ := ih (List.append_ne_nil_of_right_ne_nil piece (List.cons_ne_nil c []))
      exact ⟨others, by simp [piecesFrom, hc, hothers]⟩

/-- A word is recognised as a keyword by the letters in front of its first blank. -/
theorem upper_of_ofWord? {tail : List Char} (hc : isBlank c = false)
    (h : Kind.ofWord? (String.ofList (c :: tail)) = some kind) (hkind : kind ≠ .join) :
    ((c :: tail).takeWhile (!isBlank ·)).flatMap upperChar = kind.name.toList := by
  obtain ⟨others, hpieces⟩ := exists_piecesFrom (List.cons_ne_nil c []) tail
  have hfirst : [c] ++ tail.takeWhile (!isBlank ·) = (c :: tail).takeWhile (!isBlank ·) := by simp [hc]
  rw [hfirst] at hpieces
  have hcons : piecesFrom [] (c :: tail) = piecesFrom [c] tail := by simp [piecesFrom, hc]
  simp only [Kind.ofWord?, Kind.recognise?, pieces, String.toList_ofList, hcons, hpieces, List.map_cons,
    Option.join_some, Kind.ofPieces?] at h
  split at h
  · rename_i found hlookup
    cases h
    obtain ⟨before, behind, hsplit, -⟩ := List.lookup_eq_some_iff.mp hlookup
    have hnames : ∀ entry ∈ Kind.keywords, entry.2.name = entry.1 := by decide
    have hname := hnames _ (hsplit ▸ List.mem_append_right _ List.mem_cons_self)
    dsimp only at hname
    rw [hname, upper, String.toList_ofList, String.toList_ofList]
  · split at h
    · cases h
      exact absurd rfl hkind
    · cases h

/-- A word is recognised as one of the keywords or as a join, which its last piece is the word for. -/
theorem Kind.mem_of_ofWord? {word : String} (h : Kind.ofWord? word = some kind) :
    kind ∈ keywords.map Prod.snd ∨ kind = .join ∧ ∃ last ∈ pieces word, upper last = "JOIN" := by
  simp only [Kind.ofWord?, Kind.recognise?] at h
  split at h
  · cases h
  · rename_i first rest hpieces
    simp only [Option.join_some, Kind.ofPieces?] at h
    split at h
    · rename_i found hlookup
      cases h
      obtain ⟨before, behind, hsplit, -⟩ := List.lookup_eq_some_iff.mp hlookup
      rw [hsplit, List.map_append, List.map_cons]
      exact .inl (List.mem_append_right _ List.mem_cons_self)
    · split at h
      · rename_i hlast
        cases h
        exact .inr ⟨rfl, _, by rw [hpieces]; exact List.getLast_mem _, hlast⟩
      · cases h

namespace Token

variable {token : Token}

theorem plainKind_mem (word : String) : plainKind word ∈ [.str, .compare, .link, .identifier] := by
  unfold plainKind
  repeat' split
  all_goals simp

/-- A token is a keyword, or its kind is told from its form. -/
theorem kind_of_ofWord (h : ofWord none token.text = [token]) :
    Kind.ofWord? token.text = some token.kind ∨
      token.kind = .number ∨ token.kind = plainKind token.text := by
  cases hword : Kind.ofWord? token.text with
  | some kind => exact .inl (by rw [kind_of_ofWord? h hword])
  | none =>
    right
    rw [ofWord, hword] at h
    dsimp only at h
    split at h
    · exact .inl (congrArg Token.kind (List.cons.inj h).1).symm
    · split at h
      · cases (List.cons.inj h).2
      · exact .inr (congrArg Token.kind (List.cons.inj h).1).symm

theorem ofWord?_of_ofWord (h : ofWord none token.text = [token])
    (hkind : token.kind.isPlainKeyword = true ∨ token.kind.isSign = true ∨
      token.kind.isCaseKeyword = true) : Kind.ofWord? token.text = some token.kind := by
  have hforms : ∀ kind ∈ [Kind.number, .str, .compare, .link, .identifier],
      ¬(kind.isPlainKeyword = true ∨ kind.isSign = true ∨ kind.isCaseKeyword = true) := by decide
  rcases kind_of_ofWord h with hword | hnumber | hplain
  · exact hword
  · rw [hnumber] at hkind
    exact absurd hkind (hforms _ List.mem_cons_self)
  · rw [hplain] at hkind
    exact absurd hkind (hforms _ (List.mem_cons_of_mem _ (plainKind_mem _)))

theorem upper_text_of_isPlainKeyword (hwhole : token.isWhole = true)
    (hkind : token.kind.isPlainKeyword = true) : upper token.text = token.kind.name := by
  obtain ⟨c, tail, htext, hc, hstart, htoken⟩ := exists_of_isWhole hwhole
  have hrecognised := ofWord?_of_ofWord htoken (.inl hkind)
  have hruled := Kind.isRuled_of_isPlainKeyword hkind
  simp only [Kind.isRuled, Bool.and_eq_true, Bool.not_eq_true', List.all_eq_true,
    List.contains_iff_mem] at hruled
  obtain ⟨⟨⟨⟨hcapitals, hexpansion⟩, hkeyword⟩, hmem⟩, hothers⟩ := hruled
  have hjoin : token.kind ≠ .join := by
    intro hjoin
    rw [hjoin] at hkind
    cases hkind
  rw [htext] at hrecognised
  have hupper := upper_of_ofWord? hc hrecognised hjoin
  -- The keyword is spelled in front of the first blank, up to its end.
  obtain ⟨hspelled, hlength⟩ := spelledLength?_of_upper (List.all_eq_true.mpr hcapitals) hexpansion
    hupper ((c :: tail).dropWhile (!isBlank ·))
  rw [List.takeWhile_append_dropWhile] at hspelled
  have hdrop : (c :: tail).drop token.kind.name.toList.length =
      (c :: tail).dropWhile (!isBlank ·) := by
    rw [← hlength]
    exact drop_runLength
  have hend : atWordEnd ((c :: tail).drop token.kind.name.toList.length) = true := by
    rw [hdrop]
    cases hrest : (c :: tail).dropWhile (!isBlank ·) with
    | nil => rfl
    | cons d more =>
      have hd : isBlank d = true := by
        have hhead := List.head?_dropWhile_not (!isBlank ·) (c :: tail)
        rw [hrest] at hhead
        simpa using hhead
      simp [atWordEnd, isWordChar_of_isBlank hd]
  have hfound := findSome?_of_rule hmem hothers hkeyword (by simpa using hspelled) hend
  have hquote : isQuote c = false := by
    have hwords : [String.ofList (token.kind.name.toList.map Char.toLower)].all isKeyword = true := by
      simpa using hkeyword
    obtain ⟨letter, d, more, -, hcons, hletter, hspells⟩ :=
      exists_cons_of_phrase hwords (List.cons_ne_nil _ _)
        (by rw [phraseLength?, String.toList_ofList, hspelled])
    obtain ⟨rfl, -⟩ := List.cons.inj hcons
    exact isQuote_of_isWordChar (isWordChar_of_spells hletter hspells)
  rw [startOf_eq_word_of_not_isQuote hquote, hfound, Option.some.injEq] at hstart
  -- The word ends with the keyword.
  have hall : (c :: tail).takeWhile (!isBlank ·) = c :: tail := by
    apply List.IsPrefix.eq_of_length (List.takeWhile_prefix _)
    rw [hlength, hstart, List.length_cons]
  rw [hall] at hupper
  rw [htext]
  apply String.toList_inj.mp
  rw [upper, String.toList_ofList, String.toList_ofList, hupper]

end Token

/-! ### The keywords of a case expression -/

namespace Token

theorem isSettled_of_isWhole {token : Token} (h : token.isWhole = true) : IsSettled token.text.toList := by
  obtain ⟨c, tail, htext, hc, hstart, -⟩ := exists_of_isWhole h
  have hsettled := isSettled_of_startOf hc hstart
  rwa [List.take_of_length_le (by simp), ← String.toList_ofList (l := c :: tail), ← htext] at hsettled

/-- The text of such a keyword in upper case starts with its name and does not end in a blank. -/
theorem upper_text_of_isCaseKeyword {token : Token} (hwhole : token.isWhole = true)
    (hkind : token.kind.isCaseKeyword = true) :
    ∃ rest, (upper token.text).toList = token.kind.name.toList ++ rest ∧ IsSettled rest := by
  obtain ⟨c, tail, htext, hc, hstart, htoken⟩ := exists_of_isWhole hwhole
  have hjoin : token.kind ≠ .join := by
    intro hjoin
    rw [hjoin] at hkind
    cases hkind
  have hrecognised := ofWord?_of_ofWord htoken (.inr (.inr hkind))
  rw [htext] at hrecognised
  have hupper := upper_of_ofWord? hc hrecognised hjoin
  have hsplit : (upper token.text).toList = token.kind.name.toList ++
      ((c :: tail).dropWhile (!isBlank ·)).flatMap upperChar := by
    rw [← hupper, ← List.flatMap_append, List.takeWhile_append_dropWhile, htext, upper,
      String.toList_ofList, String.toList_ofList]
  refine ⟨_, hsplit, ?_⟩
  by_cases hrest : ((c :: tail).dropWhile (!isBlank ·)).flatMap upperChar = []
  · rw [hrest]
    rfl
  · have hsettled := isSettled_upper (isSettled_of_isWhole hwhole)
    rwa [hsplit, isSettled_append hrest] at hsettled

end Token

/-! ### Signs -/

theorem Kind.exists_of_isSign (h : kind.isSign = true) :
    ∃ sign, kind.name.toList = [sign] ∧ sign ∈ [';', ',', '(', ')'] ∧
      ∀ tail, startOf sign tail = .word 1 := by
  cases kind with
  | semicolon => exact ⟨';', by decide, by decide, fun _ ↦ rfl⟩
  | comma => exact ⟨',', by decide, by decide, fun _ ↦ rfl⟩
  | openParen => exact ⟨'(', by decide, by decide, fun _ ↦ rfl⟩
  | closeParen => exact ⟨')', by decide, by decide, fun _ ↦ rfl⟩
  | _ => cases h

/-- A sign is in no upper case but its own. -/
theorem eq_of_upperChar_sign {sign : Char} (hsign : sign ∈ [';', ',', '(', ')']) (h : upperChar c = [sign]) :
    c = sign := by
  have hpoints : bitSet (0 :: resultPoints) &&& bitSet [0x3B, 0x2C, 0x28, 0x29] = 0 := by decide +kernel
  have hmem : sign.toNat ∈ [0x3B, 0x2C, 0x28, 0x29] := List.mem_map_of_mem hsign
  rcases upperChar_eq_or_results c with hself | hresults
  · exact List.singleton_inj.mp (hself.symm.trans h)
  · obtain ⟨n, hn, rfl⟩ := hresults sign (by simp [h])
    exact absurd hmem (disjoint_of_bitSet hpoints (toNat_ofNat_of_result hn))

theorem eq_of_flatMap_upperChar_sign {sign : Char} {text : List Char} (hsign : sign ∈ [';', ',', '(', ')'])
    (h : (c :: text).flatMap upperChar = [sign]) : c = sign := by
  rw [List.flatMap_cons] at h
  apply eq_of_upperChar_sign hsign
  cases hcase : upperChar c with
  | nil => exact absurd hcase (upperChar_ne_nil c)
  | cons d more =>
    rw [hcase, List.cons_append, List.cons.injEq] at h
    rw [h.1, (List.append_eq_nil_iff.mp h.2).1]

namespace Token

variable {token : Token}

theorem text_of_isSign (hwhole : token.isWhole = true) (hkind : token.kind.isSign = true) :
    token.text = token.kind.name := by
  obtain ⟨c, tail, htext, hc, hstart, htoken⟩ := exists_of_isWhole hwhole
  obtain ⟨sign, hname, hsign, hcut⟩ := Kind.exists_of_isSign hkind
  have hjoin : token.kind ≠ .join := by
    intro hjoin
    rw [hjoin] at hkind
    cases hkind
  have hrecognised := ofWord?_of_ofWord htoken (.inr (.inl hkind))
  rw [htext] at hrecognised
  have hupper := upper_of_ofWord? hc hrecognised hjoin
  rw [hname, List.takeWhile_cons_of_pos (by simp [hc])] at hupper
  obtain rfl := eq_of_flatMap_upperChar_sign hsign hupper
  rw [hcut, Start.word.injEq] at hstart
  obtain rfl : tail = [] := List.eq_nil_of_length_eq_zero (by omega)
  rw [htext]
  apply String.toList_inj.mp
  rw [String.toList_ofList, hname]

/-! ### Comparisons and links -/

/-- The name of a function is no word by itself. -/
theorem kind_ne_func_of_isWhole (h : token.isWhole = true) : token.kind ≠ .func := by
  obtain ⟨-, -, -, -, -, htoken⟩ := exists_of_isWhole h
  have hkeywords : ∀ kind ∈ Kind.keywords.map Prod.snd, kind ≠ .func := by decide
  have hforms : ∀ kind ∈ [Kind.str, .compare, .link, .identifier], kind ≠ .func := by decide
  rcases kind_of_ofWord htoken with hword | hnumber | hplain
  · rcases Kind.mem_of_ofWord? hword with hmem | ⟨hjoin, -⟩
    · exact hkeywords _ hmem
    · simp [hjoin]
  · simp [hnumber]
  · rw [hplain]
    exact hforms _ (plainKind_mem _)

theorem isSound_of_isWhole (h : token.isWhole = true) : token.isSound = true := by
  simpa [isSound, kind_ne_func_of_isWhole h] using h

/-- Tokens that come from a text can be written, where no table is named after INSERT INTO. -/
theorem isSound_of_taken {tokens : List Token} (h : Taken false tokens)
    (hinsert : ∀ token ∈ tokens, token.kind ≠ .insertWord) : ∀ token ∈ tokens, token.isSound = true := by
  generalize htable : false = table at h
  induction h with
  | nil => simp
  | word hwhole _ ih =>
    rw [List.forall_mem_cons] at hinsert ⊢
    exact ⟨isSound_of_isWhole hwhole, ih hinsert.2 (by simp [← htable, hinsert.1])⟩
  | call hname _ ih =>
    rw [List.forall_mem_cons, List.forall_mem_cons] at hinsert ⊢
    exact ⟨by simpa [isSound] using hname, by decide, ih hinsert.2.2 rfl⟩
  | tableParen => cases htable

theorem plainKind_of_ofWord (h : ofWord none token.text = [token])
    (hkind : token.kind = .compare ∨ token.kind = .link) : plainKind token.text = token.kind := by
  have hkeywords : ∀ kind ∈ Kind.keywords.map Prod.snd, ¬(kind = .compare ∨ kind = .link) := by decide
  rcases kind_of_ofWord h with hword | hnumber | hplain
  · rcases Kind.mem_of_ofWord? hword with hmem | ⟨hjoin, -⟩
    · exact absurd hkind (hkeywords _ hmem)
    · simp [hjoin] at hkind
  · simp [hnumber] at hkind
  · exact hplain.symm

theorem upper_text_of_compare (hwhole : token.isWhole = true) (hkind : token.kind = .compare) :
    upper token.text ∈ "LIKE" :: comparisons := by
  have hsame : ∀ word ∈ comparisons, upper word = word := by decide
  obtain ⟨-, -, -, -, -, htoken⟩ := exists_of_isWhole hwhole
  have hplain := plainKind_of_ofWord htoken (.inl hkind)
  rw [hkind] at hplain
  unfold plainKind at hplain
  split at hplain
  · cases hplain
  · split at hplain
    · rename_i hword
      simp only [Bool.or_eq_true, List.contains_iff_mem, decide_eq_true_eq] at hword
      rcases hword with hword | hword
      · rw [hsame _ hword]
        exact List.mem_cons_of_mem _ hword
      · rw [hword]
        exact List.mem_cons_self
    · split at hplain <;> cases hplain

theorem upper_text_of_link (hwhole : token.isWhole = true) (hkind : token.kind = .link) :
    upper token.text ∈ ["AND", "OR"] := by
  obtain ⟨-, -, -, -, -, htoken⟩ := exists_of_isWhole hwhole
  have hplain := plainKind_of_ofWord htoken (.inr hkind)
  rw [hkind] at hplain
  unfold plainKind at hplain
  split at hplain
  · cases hplain
  · split at hplain
    · cases hplain
    · split at hplain
      · rename_i hword
        simpa using hword
      · cases hplain

/-! ### Tokens in upper case -/

@[simp] theorem kind_shout (token : Token) : token.shout.kind = token.kind := by
  unfold shout
  split <;> rfl

theorem shout_of_isValue (h : token.kind.isValue = true) : token.shout = token := by
  simp [shout, h]

theorem shout_of_not_isValue (h : token.kind.isValue = false) :
    token.shout = ⟨token.kind, upper token.text⟩ := by
  simp [shout, h]

theorem shout_of_isPlainKeyword (hwhole : token.isWhole = true) (hkind : token.kind.isPlainKeyword = true) :
    token.shout = ⟨token.kind, token.kind.name⟩ := by
  have hvalue : token.kind.isValue = false := by
    obtain ⟨kind, text⟩ := token
    cases kind <;> first | rfl | cases hkind
  rw [shout_of_not_isValue hvalue, upper_text_of_isPlainKeyword hwhole hkind]

theorem shout_of_isSign (hwhole : token.isWhole = true) (hkind : token.kind.isSign = true) :
    token.shout = ⟨token.kind, token.kind.name⟩ := by
  have hupper : ∀ name ∈ [";", ",", "(", ")"], upper name = name := by decide
  obtain ⟨kind, text⟩ := token
  have htext : text = kind.name := text_of_isSign hwhole hkind
  subst htext
  cases kind with
  | semicolon | comma | openParen | closeParen =>
    simp only [shout, Kind.isValue, Kind.name, Bool.false_eq_true, if_false]
    rw [hupper _ (by decide)]
  | _ => cases hkind

end Token

end SqlLayout
