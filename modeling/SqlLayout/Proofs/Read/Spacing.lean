import SqlLayout.Format
import SqlLayout.Proofs.Read.Related
import SqlLayout.Proofs.Words.Spacing

/-!
# Reading texts that differ in their blanks

Texts that differ in the amount of their blanks alone have tokens of the same kinds, whose texts differ in
the amount of their blanks alone, and are read as trees of the same shape.
-/

namespace SqlLayout

open Text Word

/-- The text is not empty and does not end in a blank. -/
def IsTight (text : String) : Prop :=
  text ≠ "" ∧ IsSettled text.toList

def Respaced (text other : String) : Prop :=
  collapse text = collapse other ∧ IsTight text ∧ IsTight other

section Words

variable {word other : String}

theorem collapseChars_eq_of_collapse (h : collapse word = collapse other) :
    collapseChars word.toList = collapseChars other.toList := by
  rw [← toList_collapse, h, toList_collapse]

theorem eq_of_collapse_eq (hword : word.toList.all (!isBlank ·) = true)
    (h : collapse word = collapse other) : word = other :=
  String.toList_inj.mp (eq_of_collapseChars_eq hword (collapseChars_eq_of_collapse h))

theorem all_of_upper (h : (upper word).toList.all (!isBlank ·) = true) :
    word.toList.all (!isBlank ·) = true := by
  rw [List.all_eq_true] at h ⊢
  intro c hc
  cases hblank : isBlank c with
  | false => rfl
  | true =>
    have hupper : c ∈ (upper word).toList := by
      rw [upper, String.toList_ofList, List.mem_flatMap]
      exact ⟨c, hc, by simp [upperChar_of_isBlank hblank]⟩
    simpa [hblank] using h c hupper

/-- A text whose upper case has no blank is equal to every text that differs from it in its blanks alone.
-/
theorem upper_eq_iff {text : String} (htext : text.toList.all (!isBlank ·) = true)
    (h : collapse word = collapse other) : upper word = text ↔ upper other = text := by
  constructor
  · rintro rfl
    rw [eq_of_collapse_eq (all_of_upper htext) h]
  · rintro rfl
    rw [eq_of_collapse_eq (all_of_upper htext) h.symm]

theorem isTight_of_isTrimmed (h : IsTrimmed word.toList) : IsTight word := by
  refine ⟨?_, h.2⟩
  rintro rfl
  simp [IsTrimmed] at h

theorem respaced_of_isTrimmed (hword : IsTrimmed word.toList)
    (hother : IsTrimmed other.toList) (h : collapse word = collapse other) :
    Respaced word other :=
  ⟨h, isTight_of_isTrimmed hword, isTight_of_isTrimmed hother⟩

theorem head?_collapseChars_of_isTrimmed {text : List Char} (h : IsTrimmed text) :
    (collapseChars text).head? = text.head? := by
  cases text with
  | nil => rfl
  | cons c rest =>
    have hc : isBlank c = false := by simpa [IsTrimmed] using h.1
    simp [head?_collapseChars, hc]

theorem head?_eq_of_collapse (hword : IsTrimmed word.toList) (hother : IsTrimmed other.toList)
    (h : collapse word = collapse other) : word.toList.head? = other.toList.head? := by
  rw [← head?_collapseChars_of_isTrimmed hword, collapseChars_eq_of_collapse h,
    head?_collapseChars_of_isTrimmed hother]

theorem getLast?_eq_of_collapse (hword : IsTrimmed word.toList) (hother : IsTrimmed other.toList)
    (h : collapse word = collapse other) : word.toList.getLast? = other.toList.getLast? := by
  rw [← getLast?_collapseChars hword.2, collapseChars_eq_of_collapse h,
    getLast?_collapseChars hother.2]

theorem ofWord?_eq_of_collapse (h : collapse word = collapse other) :
    Kind.ofWord? word = Kind.ofWord? other := by
  simp only [Kind.ofWord?, Kind.recognise?]
  rw [← pieces_collapse word, h, pieces_collapse]

theorem contains_comparisons_iff (h : collapse word = collapse other) :
    Token.comparisons.contains word = Token.comparisons.contains other := by
  have hall : ∀ text ∈ Token.comparisons, text.toList.all (!isBlank ·) = true := by decide
  rw [Bool.eq_iff_iff, List.contains_iff_mem, List.contains_iff_mem]
  constructor
  · intro hmem
    rwa [← eq_of_collapse_eq (hall word hmem) h]
  · intro hmem
    rwa [← eq_of_collapse_eq (hall other hmem) h.symm]

theorem plainKind_eq_of_collapse (hhead : word.toList.head? = other.toList.head?)
    (h : collapse word = collapse other) : Token.plainKind word = Token.plainKind other := by
  have hupper : ∀ text : String, text.toList.all (!isBlank ·) = true →
      decide (upper word = text) = decide (upper other = text) := fun text htext ↦
    decide_eq_decide.mpr (upper_eq_iff htext h)
  simp only [Token.plainKind, hhead, contains_comparisons_iff h, hupper "LIKE" (by decide),
    hupper "AND" (by decide), hupper "OR" (by decide)]

/-! ### The name in front of a parenthesis -/

theorem trim_ne_empty {text : List Char} (h : text.head?.any (!isBlank ·) = true) :
    trim (String.ofList text) ≠ "" := by
  cases text with
  | nil => simp at h
  | cons c rest =>
    have hc : isBlank c = false := by simpa using h
    intro hempty
    have hchars := congrArg String.toList hempty
    simp only [trim, trimEnd, String.toList_ofList, String.toList_empty,
      List.reverse_eq_nil_iff] at hchars
    rw [List.dropWhile_cons_of_neg (by simp [hc])] at hchars
    have hmem : c ∈ (c :: rest).reverse := by simp
    rw [← List.takeWhile_append_dropWhile (p := isBlank) (l := (c :: rest).reverse), hchars,
      List.append_nil] at hmem
    have := List.all_eq_true.mp List.all_takeWhile c hmem
    simp [hc] at this

theorem isTight_trim_dropLast (hword : IsTrimmed word.toList)
    (hlast : word.toList.getLast? = some '(') (hkeyword : Kind.ofWord? word = none) :
    IsTight (trim (String.ofList word.toList.dropLast)) := by
  obtain ⟨front, hfront⟩ := List.getLast?_eq_some_iff.mp hlast
  refine ⟨?_, isSettled_trimEnd _⟩
  rw [hfront, List.dropLast_concat]
  apply trim_ne_empty
  cases front with
  | nil =>
    -- A parenthesis by itself is a keyword.
    obtain rfl : word = "(" := String.toList_inj.mp hfront
    revert hkeyword
    decide
  | cons c front => simpa [IsTrimmed, hfront] using hword.1

theorem collapse_trim_dropLast (h : collapse word = collapse other)
    (hlast : word.toList.getLast? = some '(') (hother : other.toList.getLast? = some '(') :
    collapse (trim (String.ofList word.toList.dropLast)) =
      collapse (trim (String.ofList other.toList.dropLast)) := by
  obtain ⟨front, hfront⟩ := List.getLast?_eq_some_iff.mp hlast
  obtain ⟨more, hmore⟩ := List.getLast?_eq_some_iff.mp hother
  have hchars := collapseChars_eq_of_collapse h
  have hparen : ∀ text : List Char, collapseChars (text ++ ['(']) = collapseChars text ++ ['('] :=
    fun text ↦ collapseChars_append (.inr rfl)
  rw [hfront, hmore, hparen, hparen, List.append_left_inj] at hchars
  rw [hfront, hmore, List.dropLast_concat, List.dropLast_concat, collapse_trim, collapse_trim]
  simp [collapse, hchars]

end Words

/-! ### Tokens -/

section Tokens

open Read

variable {word other : String}

theorem ofWord_related (last : Option Kind) (hword : IsTrimmed word.toList)
    (hother : IsTrimmed other.toList) (h : collapse word = collapse other) :
    RelatedTokens (fun _ ↦ Respaced) (Token.ofWord last word) (Token.ofWord last other) := by
  have hhead := head?_eq_of_collapse hword hother h
  have hlast := getLast?_eq_of_collapse hword hother h
  have hrespaced := respaced_of_isTrimmed hword hother h
  have hkeyword := ofWord?_eq_of_collapse h
  unfold Token.ofWord
  rw [← hkeyword]
  cases hkind : Kind.ofWord? word with
  | some kind => exact .cons (.mk hrespaced) .nil
  | none =>
    have hnumber : Token.isNumber other = Token.isNumber word := by
      rw [Token.isNumber, ← hhead, Token.isNumber]
    dsimp only
    rw [hnumber, ← hlast, ← plainKind_eq_of_collapse hhead h]
    split
    · exact .cons (.mk hrespaced) .nil
    · split
      · rename_i hparen
        have htexts := collapse_trim_dropLast h hparen (hlast ▸ hparen)
        have htight : IsTight "(" := ⟨by decide, rfl⟩
        have hparen' : Respaced "(" "(" := ⟨rfl, htight, htight⟩
        exact .cons (.mk ⟨htexts, isTight_trim_dropLast hword hparen hkind,
          isTight_trim_dropLast hother (hlast ▸ hparen) (hkeyword ▸ hkind)⟩) (.cons (.mk hparen') .nil)
      · exact .cons (.mk hrespaced) .nil

theorem ofWords_related (last : Option Kind) {words others : List String}
    (hwords : ∀ word ∈ words, IsTrimmed word.toList) (hothers : ∀ word ∈ others, IsTrimmed word.toList)
    (h : words.map collapse = others.map collapse) :
    RelatedTokens (fun _ ↦ Respaced) (Token.ofWords last words) (Token.ofWords last others) := by
  induction words generalizing others last with
  | nil =>
    obtain rfl : others = [] := by simpa using h.symm
    exact .nil
  | cons word words ih =>
    cases others with
    | nil => cases h
    | cons other others =>
      obtain ⟨hword, hwords⟩ := List.forall_mem_cons.mp hwords
      obtain ⟨hother, hothers⟩ := List.forall_mem_cons.mp hothers
      simp only [List.map_cons, List.cons.injEq] at h
      rw [Token.ofWords, Token.ofWords, ← ofWord?_eq_of_collapse h.1]
      exact List.rel_append (ofWord_related last hword hother h.1) (ih _ hwords hothers h.2)

/-- Texts that differ in their blanks alone have tokens that differ so, or both leave a quote open. -/
theorem tokensOf_related {sql other : String} (h : collapse sql = collapse other) :
    Agree (RelatedTokens fun _ ↦ Respaced) (tokensOf sql) (tokensOf other) := by
  have hcut : (cut sql).collapsed = (cut other).collapsed := by
    rw [← cut_collapse, h, cut_collapse]
  have hwords : (cut sql).words.map collapse = (cut other).words.map collapse :=
    congrArg Cut.words hcut
  have hunclosed : (cut sql).unclosed.map collapse = (cut other).unclosed.map collapse :=
    congrArg Cut.unclosed hcut
  unfold tokensOf tokenize
  dsimp only
  cases hfirst : (cut sql).unclosed with
  | some rest =>
    cases hsecond : (cut other).unclosed with
    | some more => exact .error rfl
    | none => simp [hfirst, hsecond] at hunclosed
  | none =>
    cases hsecond : (cut other).unclosed with
    | some more => simp [hfirst, hsecond] at hunclosed
    | none =>
      exact .ok (ofWords_related none (fun _ ↦ isTrimmed_of_mem_cutFrom)
        (fun _ ↦ isTrimmed_of_mem_cutFrom) hwords)

theorem keepsOffset_respaced : KeepsOffset fun _ ↦ Respaced := fun h ↦ upper_eq_iff (by decide) h.1

end Tokens

end SqlLayout
