import SqlLayout.Proofs.Words.Reach
import SqlLayout.Proofs.Words.Whole

/-!
# Cutting a text at a semicolon

No word but quoted text runs over a semicolon.  So where no quote is left open, the words of a text with a
semicolon in it are the words in front, the semicolon and the words behind, and the tokens are too.
-/

namespace SqlLayout

open Text

namespace Word

/-! ### Placeholders -/

section Placeholders

variable {stop : Char} {tail : List Char}

theorem spells_of_isStop {letter : Char} (hletter : isKeywordLetter letter = true)
    (hstop : isStop stop = true) : spells letter stop = false := by
  rw [← Bool.not_eq_true]
  intro hspells
  have hword := isWordChar_of_spells hletter hspells
  simp [isWordChar_of_isStop hstop] at hword

/-- A placeholder ends in front of every stop but a parenthesis. -/
theorem namedPlaceholder_append_stop (hstop : isStop stop = true) (hopen : stop ≠ '(')
    (hclose : stop ≠ ')') (rest : List Char) :
    Rule.namedPlaceholder.length? ('%' :: tail ++ stop :: rest) =
      Rule.namedPlaceholder.length? ('%' :: tail) := by
  have hends : Ends (stop :: rest) := ends_cons.mpr hstop
  have hspells : spells 's' stop = false := spells_of_isStop (by decide) hstop
  cases tail with
  | nil => simp [Rule.length?, hopen]
  | cons d inner =>
    by_cases hd : d = '('
    · subst hd
      simp only [List.cons_append, Rule.length?, runLength?_isWordChar_append hends]
      cases hrun : runLength? isWordChar inner with
      | none => rfl
      | some n =>
        simp only [Option.bind_eq_bind, Option.bind_some,
          List.drop_append_of_le_length (runLength?_le hrun)]
        rcases inner.drop n with _ | ⟨e, _ | ⟨f, more⟩⟩
        · simp [hclose]
        · by_cases he : e = ')'
          · subst he
            simp [hspells]
          · simp [he]
        · by_cases he : e = ')'
          · subst he
            rfl
          · simp [he]
    · simp [Rule.length?, hd]

theorem placeholder_append_stop (hstop : isStop stop = true) (rest : List Char) :
    Rule.placeholder.length? ('%' :: tail ++ stop :: rest) =
      Rule.placeholder.length? ('%' :: tail) := by
  have hspells : spells 's' stop = false := spells_of_isStop (by decide) hstop
  cases tail with
  | nil => simp [Rule.length?, hspells]
  | cons d tail => rfl

end Placeholders

/-! ### Words in front of a semicolon -/

section Semicolon

variable {c : Char} {tail : List Char} (rest : List Char)

theorem ends_semicolon : Ends (';' :: rest) := by simp [isStop]

/-- No rule looks past a semicolon. -/
theorem findSome?_semicolon :
    rules.findSome? (Rule.length? (c :: tail ++ ';' :: rest)) =
      rules.findSome? (Rule.length? (c :: tail)) := by
  by_cases hpercent : c = '%'
  · subst hpercent
    rw [List.cons_append, findSome?_percent, findSome?_percent, ← List.cons_append,
      namedPlaceholder_append_stop (by decide) (by decide) (by decide),
      placeholder_append_stop (by decide)]
  have hblank : isBlank ';' = false := by decide
  apply findSome?_congr
  intro rule hrule
  have hregular := isRegular_of_mem_rules hrule
  apply Rule.length?_append hregular (List.cons_ne_nil c tail) (by simpa using hpercent)
    (ends_semicolon rest)
  · exact Rule.not_runsPast_of_not_blank hregular (ends_semicolon rest) hblank
  · intro _
    apply callHead_append (ends_semicolon rest)
    simp [hblank]

theorem startOf_ne_unclosed (hquote : isQuote c = false) : startOf c tail ≠ .unclosed := by
  rw [startOf, hquote]
  cases rules.findSome? (Rule.length? (c :: tail)) <;> simp

theorem startOf_le {n : Nat} (h : startOf c tail = .word n) : n ≤ tail.length + 1 := by
  by_cases hquote : isQuote c = true
  · obtain ⟨m, hm, rfl⟩ := (startOf_eq_word_of_isQuote hquote).mp h
    obtain ⟨hlt, -⟩ := List.idxOf?_eq_some_iff.mp hm
    omega
  · rw [startOf_eq_word_of_not_isQuote (by simpa using hquote)] at h
    obtain ⟨rule, hrule, h⟩ := List.exists_of_findSome?_eq_some h
    exact Rule.length?_le (isRegular_of_mem_rules hrule) h

/-- What a text starts with is the same with a semicolon behind the text, unless it is a quote that is not
closed in front of it. -/
theorem startOf_semicolon (h : startOf c (tail ++ [';']) ≠ .unclosed) :
    startOf c (tail ++ ';' :: rest) = startOf c tail ∧ startOf c tail ≠ .unclosed := by
  by_cases hquote : isQuote c = true
  · have hc : c ≠ ';' := by
      rintro rfl
      cases hquote
    have hmem : c ∈ tail := by
      apply Decidable.byContradiction
      intro hmem
      apply h
      rw [startOf, if_pos hquote, List.idxOf?_eq_none_iff.mpr (by simp [hmem, hc])]
    obtain ⟨m, hm⟩ := Option.isSome_iff_exists.mp (List.isSome_idxOf?.mpr hmem)
    simp [startOf, if_pos hquote, hm, idxOf?_append_of_some hm]
  · rw [Bool.not_eq_true] at hquote
    refine ⟨?_, startOf_ne_unclosed hquote⟩
    simp only [startOf, hquote, ← List.cons_append, findSome?_semicolon]
    rfl

end Semicolon

/-- The words of a text with a semicolon in it. -/
theorem cutFrom_semicolon {skip : Nat} {text : List Char} (hskip : skip ≤ text.length)
    (h : (cutFrom skip (text ++ [';'])).unclosed = none) (rest : List Char) :
    cutFrom skip (text ++ ';' :: rest) =
      ⟨(cutFrom skip text).words ++ ";" :: (cutFrom 0 rest).words, (cutFrom 0 rest).unclosed⟩ := by
  induction text generalizing skip with
  | nil =>
    obtain rfl : skip = 0 := by simpa using hskip
    have hstart : startOf ';' rest = .word 1 := rfl
    simp only [List.nil_append, cutFrom, hstart]
    rfl
  | cons c tail ih =>
    cases skip with
    | succ skip => exact ih (Nat.le_of_succ_le_succ hskip) h
    | zero =>
      have hopen : startOf c (tail ++ [';']) ≠ .unclosed := by
        intro hstart
        simp [cutFrom, hstart] at h
      have hfirst := (startOf_semicolon [] hopen).1
      obtain ⟨hstart, hclosed⟩ := startOf_semicolon rest hopen
      simp only [List.cons_append, cutFrom, hfirst] at h
      simp only [List.cons_append, cutFrom, hstart]
      cases hfound : startOf c tail with
      | word n =>
        have hle := startOf_le hfound
        have htake : (c :: (tail ++ ';' :: rest)).take n = (c :: tail).take n := by
          rw [← List.cons_append, List.take_append_of_le_length hle]
        simp only [hfound] at h
        simp only [htake, ih (show n - 1 ≤ tail.length by omega) h, List.cons_append]
      | dropped =>
        simp only [hfound] at h
        exact ih (Nat.zero_le _) h
      | unclosed => exact absurd hfound hclosed

end Word

/-- Of the kind of the last keyword only INSERT has an effect. -/
theorem Token.ofWords_congr {last other : Option Kind}
    (h : last = some .insertWord ↔ other = some .insertWord) (words : List String) :
    ofWords last words = ofWords other words := by
  induction words generalizing last other with
  | nil => rfl
  | cons word words ih =>
    have hword : ofWord last word = ofWord other word := by
      unfold ofWord
      simp only [h]
    have hnext : (Kind.ofWord? word <|> last) = some .insertWord ↔
        (Kind.ofWord? word <|> other) = some .insertWord := by
      cases Kind.ofWord? word with
      | none => exact h
      | some kind => exact Iff.rfl
    simp only [ofWords, hword, ih hnext]

theorem Token.ofWords_semicolon (last : Option Kind) (words more : List String) :
    ofWords last (words ++ ";" :: more) =
      ofWords last words ++ ⟨.semicolon, ";"⟩ :: ofWords none more := by
  induction words generalizing last with
  | nil =>
    have hlast : ofWords (some .semicolon) more = ofWords none more := ofWords_congr (by simp) more
    have hword : ofWord last ";" = [⟨.semicolon, ";"⟩] := rfl
    simp only [List.nil_append, ofWords, hword, ← hlast]
    rfl
  | cons word words ih => simp only [List.cons_append, ofWords, ih, List.append_assoc]

/-- The tokens of a text with a semicolon in it. -/
theorem tokenize_semicolon {first : String} (h : (tokenize (first ++ ";")).unclosed = none)
    (second : String) :
    tokenize (first ++ ";" ++ second) =
      ⟨(tokenize first).tokens ++ ⟨.semicolon, ";"⟩ :: (tokenize second).tokens,
        (tokenize second).unclosed⟩ := by
  have hsemicolon : ";".toList = [';'] := rfl
  simp only [tokenize, Word.cut, String.toList_append, hsemicolon] at h ⊢
  rw [List.append_assoc, List.singleton_append, Word.cutFrom_semicolon (Nat.zero_le _) h,
    Token.ofWords_semicolon]

end SqlLayout
