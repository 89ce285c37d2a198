import SqlLayout.Proofs.Words.Seams
import SqlLayout.Token

/-!
# Cutting a text word by word

A word that is cut as a whole when it stands alone is cut as a whole in front of any stop, unless a
phrase or a call runs on past it.  The tokens of a text are then those of the word followed by those of
the rest, and blanks in between have no effect.
-/

namespace SqlLayout

open Text

namespace Word

variable {c : Char} {text : List Char} {n : Nat}

theorem startOf_eq_word_of_isQuote (hc : isQuote c = true) :
    startOf c text = .word n ↔ ∃ m, text.idxOf? c = some m ∧ m + 2 = n := by
  rw [startOf, if_pos hc]
  cases text.idxOf? c <;> simp

theorem startOf_eq_word_of_not_isQuote (hc : isQuote c = false) :
    startOf c text = .word n ↔ rules.findSome? (Rule.length? (c :: text)) = some n := by
  rw [startOf, if_neg (by simp [hc])]
  cases rules.findSome? (Rule.length? (c :: text)) <;> simp

theorem findSome?_congr {α β : Type} {f g : α → Option β} {list : List α}
    (h : ∀ a ∈ list, f a = g a) : list.findSome? f = list.findSome? g := by
  induction list with
  | nil => rfl
  | cons a list ih =>
    simp only [List.findSome?_cons, h a List.mem_cons_self]
    rw [ih fun b hb ↦ h b (List.mem_cons_of_mem _ hb)]

theorem idxOf?_append_of_some {rest : List Char} (h : text.idxOf? c = some n) :
    (text ++ rest).idxOf? c = some n := by
  induction text generalizing n with
  | nil => simp at h
  | cons d text ih =>
    simp only [List.idxOf?_cons, List.cons_append] at h ⊢
    split at h
    · rename_i hd
      simpa [hd] using h
    · rename_i hd
      obtain ⟨m, hm, rfl⟩ := Option.map_eq_some_iff.mp h
      simp [hd, ih hm]

section Starts

variable {c : Char} {tail rest : List Char}

theorem startOf_append_of_isQuote (hc : isQuote c = true)
    (h : startOf c tail = .word (tail.length + 1)) :
    startOf c (tail ++ rest) = .word (tail.length + 1) := by
  obtain ⟨m, hm, hlen⟩ := (startOf_eq_word_of_isQuote hc).mp h
  exact (startOf_eq_word_of_isQuote hc).mpr ⟨m, idxOf?_append_of_some hm, hlen⟩

/-- Only placeholders start with a percent sign. -/
theorem findSome?_percent (text : List Char) :
    rules.findSome? (Rule.length? ('%' :: text)) =
      (Rule.namedPlaceholder.length? ('%' :: text)).or
        (Rule.placeholder.length? ('%' :: text)) := by
  have hrules : rules = rules.take 53 ++ [.namedPlaceholder, .placeholder, .symbol "*"] := rfl
  have hfirst : (rules.take 53).findSome? (Rule.length? ('%' :: text)) = none := rfl
  have hlast : (Rule.symbol "*").length? ('%' :: text) = none := rfl
  rw [hrules, List.findSome?_append, hfirst, Option.none_or]
  simp only [List.findSome?_cons, List.findSome?_nil, hlast]
  cases Rule.namedPlaceholder.length? ('%' :: text) <;>
    cases Rule.placeholder.length? ('%' :: text) <;> rfl

theorem namedPlaceholder_append (h : Rule.namedPlaceholder.length? tail = some n) :
    Rule.namedPlaceholder.length? (tail ++ rest) = some n := by
  obtain ⟨inner, m, d, more, rfl, hm, hdrop, hd, rfl⟩ := Rule.length?_namedPlaceholder_eq_some.mp h
  exact Rule.length?_namedPlaceholder_eq_some.mpr ⟨inner ++ rest, m, d, more ++ rest, rfl,
    runLength?_append_of_drop hm hdrop, drop_append_of_drop hdrop, hd, rfl⟩

theorem placeholder_append (h : Rule.placeholder.length? tail = some n) :
    Rule.placeholder.length? (tail ++ rest) = some n := by
  obtain ⟨d, more, rfl, hd, rfl⟩ := Rule.length?_placeholder_eq_some.mp h
  exact Rule.length?_placeholder_eq_some.mpr ⟨d, more ++ rest, rfl, hd, rfl⟩

theorem startOf_append_of_percent (h : startOf '%' tail = .word (tail.length + 1)) :
    startOf '%' (tail ++ rest) = .word (tail.length + 1) := by
  have hquote : isQuote '%' = false := by decide
  rw [startOf_eq_word_of_not_isQuote hquote, findSome?_percent] at h ⊢
  cases hnamed : Rule.namedPlaceholder.length? ('%' :: tail) with
  | some n =>
    rw [hnamed, Option.some_or] at h
    rw [← List.cons_append, namedPlaceholder_append hnamed, Option.some_or, h]
  | none =>
    rw [hnamed, Option.none_or] at h
    -- The short form has no parenthesis behind the sign, so the long form cannot fit there.
    have hshort : Rule.namedPlaceholder.length? ('%' :: (tail ++ rest)) = none := by
      cases tail with
      | nil => simp [Rule.length?] at h
      | cons d tail =>
        have hd : d ≠ '(' := by
          rintro rfl
          simp [Rule.length?, show spells 's' '(' = false by decide] at h
        simp [Rule.length?, hd]
    rw [hshort, Option.none_or, ← List.cons_append, placeholder_append h]

/-- A word that is cut whole when it stands alone is cut whole in front of a stop, unless a phrase or
a call runs on. -/
theorem startOf_append (h : startOf c tail = .word (tail.length + 1)) (hrest : Ends rest)
    (hpast : ∀ rule ∈ rules, ¬rule.RunsPast (c :: tail) rest)
    (hcall : Rule.callHead.length? (c :: tail ++ rest) = Rule.callHead.length? (c :: tail)) :
    startOf c (tail ++ rest) = .word (tail.length + 1) := by
  by_cases hquote : isQuote c = true
  · exact startOf_append_of_isQuote hquote h
  rw [Bool.not_eq_true] at hquote
  by_cases hpercent : c = '%'
  · subst hpercent
    exact startOf_append_of_percent h
  rw [startOf_eq_word_of_not_isQuote hquote] at h ⊢
  rw [← h, ← List.cons_append]
  refine findSome?_congr fun rule hrule ↦ ?_
  exact Rule.length?_append (isRegular_of_mem_rules hrule) (List.cons_ne_nil c tail)
    (by simpa using hpercent) hrest (hpast rule hrule) fun _ ↦ hcall

/-- Behind its parenthesis nothing has an effect on the head of a call. -/
theorem callHead_append_paren (word : List Char) :
    Rule.callHead.length? (word ++ '(' :: rest) = Rule.callHead.length? (word ++ ['(']) := by
  have hends : ∀ more, Ends ('(' :: more) := fun more ↦ by simp [isStop]
  simp only [Rule.length?, runLength?_isWordChar_append (hends _)]
  cases hrun : runLength? isWordChar word with
  | none => rfl
  | some n =>
    have hle : n ≤ word.length := (runLength?_eq_some.mp hrun).1 ▸ runLength_le
    have hblank : ∀ more, ∀ c ∈ ('(' :: more).head?, isBlank c = false := fun more ↦ by
      simp only [List.head?_cons, Option.mem_def, Option.some.injEq]
      rintro c rfl
      decide
    simp only [Option.bind_eq_bind, Option.bind_some, List.drop_append_of_le_length hle,
      runLength_append_of_head (hblank _)]
    have hgap : runLength isBlank (word.drop n) ≤ (word.drop n).length := runLength_le
    rw [List.length_drop] at hgap
    simp only [List.drop_append_of_le_length
      (show n + runLength isBlank (word.drop n) ≤ word.length by omega)]
    cases word.drop (n + runLength isBlank (word.drop n)) <;> rfl

/-- A word with the parenthesis of a call behind it is cut whole whatever stands in the
parenthesis. -/
theorem startOf_append_paren (rest : List Char)
    (h : startOf c (tail ++ ['(']) = .word (tail.length + 2)) :
    startOf c (tail ++ '(' :: rest) = .word (tail.length + 2) := by
  have hassoc : tail ++ '(' :: rest = (tail ++ ['(']) ++ rest := by simp
  have hlen : tail.length + 2 = (tail ++ ['(']).length + 1 := by simp
  by_cases hquote : isQuote c = true
  · rw [hassoc, hlen]
    exact startOf_append_of_isQuote hquote (hlen ▸ h)
  rw [Bool.not_eq_true] at hquote
  by_cases hpercent : c = '%'
  · subst hpercent
    rw [hassoc, hlen]
    exact startOf_append_of_percent (hlen ▸ h)
  rw [startOf_eq_word_of_not_isQuote hquote] at h ⊢
  rw [← h, ← List.cons_append, ← List.cons_append]
  refine findSome?_congr fun rule hrule ↦ ?_
  by_cases hcall : rule = .callHead
  · subst hcall
    exact callHead_append_paren (c :: tail)
  -- Every other rule stops in front of the parenthesis.
  have hregular := isRegular_of_mem_rules hrule
  have hword : ∀ more, rule.length? (c :: tail ++ '(' :: more) = rule.length? (c :: tail) := by
    intro more
    have hends : Ends ('(' :: more) := by simp [isStop]
    exact Rule.length?_append hregular (List.cons_ne_nil c tail) (by simpa using hpercent) hends
      (Rule.not_runsPast_of_not_blank hregular hends (by decide))
      fun h ↦ absurd h hcall
  rw [hword, hword]

/-- With a parenthesis further on, the head of a call is either found in the word alone or reaches from
its start to the parenthesis. -/
theorem callHead_append_space_paren (word rest : List Char) :
    Rule.callHead.length? (word ++ ' ' :: '(' :: rest) = Rule.callHead.length? word ∨
      Rule.callHead.length? (word ++ ' ' :: '(' :: rest) = some (word.length + 2) := by
  have hspace : isBlank ' ' = true := by decide
  have hends : Ends (' ' :: '(' :: rest) := by simp [isStop, hspace]
  simp only [Rule.length?, runLength?_isWordChar_append hends]
  cases hrun : runLength? isWordChar word with
  | none => exact .inl rfl
  | some n =>
    have hle : n ≤ word.length := (runLength?_eq_some.mp hrun).1 ▸ runLength_le
    simp only [Option.bind_eq_bind, Option.bind_some, List.drop_append_of_le_length hle]
    by_cases hblank : (word.drop n).all isBlank = true
    · right
      have hgap : runLength isBlank (' ' :: '(' :: rest) = 1 := by
        simp [runLength, hspace, show isBlank '(' = false by decide]
      rw [runLength_append_of_all _ hblank, hgap, List.length_drop]
      rw [show n + (word.length - n + 1) = word.length + 1 by omega, List.drop_append,
        List.drop_eq_nil_of_le (by omega), Nat.add_sub_cancel_left]
      simp
    · left
      rw [Bool.not_eq_true] at hblank
      have hlt := runLength_lt_of_not_all hblank
      rw [List.length_drop] at hlt
      rw [runLength_append_of_not_all _ hblank, List.drop_append_of_le_length (by omega)]
      cases hdrop : word.drop (n + runLength isBlank (word.drop n)) with
      | nil =>
        rw [List.drop_eq_nil_iff] at hdrop
        omega
      | cons d more => simp

/-- A word with a space and a parenthesis behind it is cut in front of the space or behind the
parenthesis. -/
theorem startOf_append_space_paren (h : startOf c tail = .word (tail.length + 1))
    (hpast : ∀ rule ∈ rules, ¬rule.RunsPast (c :: tail) (' ' :: '(' :: rest)) :
    startOf c (tail ++ ' ' :: '(' :: rest) = .word (tail.length + 1) ∨
      startOf c (tail ++ ' ' :: '(' :: rest) = .word (tail.length + 3) := by
  by_cases hquote : isQuote c = true
  · exact .inl (startOf_append_of_isQuote hquote h)
  rw [Bool.not_eq_true] at hquote
  by_cases hpercent : c = '%'
  · subst hpercent
    exact .inl (startOf_append_of_percent h)
  have hends : Ends (' ' :: '(' :: rest) := by simp [isStop, show isBlank ' ' = true by decide]
  rcases callHead_append_space_paren (c :: tail) rest with hcall | hcall
  · exact .inl (startOf_append h hends hpast hcall)
  simp only [startOf_eq_word_of_not_isQuote hquote] at h ⊢
  obtain ⟨front, back, hrules, hfront⟩ :=
    List.eq_append_cons_of_mem (show Rule.callHead ∈ rules by decide)
  -- The rules in front of the one for calls find what they find in the word alone.
  have hfirst : front.findSome? (Rule.length? (c :: (tail ++ ' ' :: '(' :: rest))) =
      front.findSome? (Rule.length? (c :: tail)) := by
    refine findSome?_congr fun rule hrule ↦ ?_
    have hmem : rule ∈ rules := hrules ▸ List.mem_append_left _ hrule
    have hne : rule ≠ .callHead := by
      rintro rfl
      exact hfront hrule
    rw [← List.cons_append]
    exact Rule.length?_append (isRegular_of_mem_rules hmem)
      (List.cons_ne_nil c tail) (by simpa using hpercent) hends (hpast rule hmem)
      fun h ↦ absurd h hne
  rw [hrules, List.findSome?_append] at h ⊢
  rw [hfirst]
  cases hfound : front.findSome? (Rule.length? (c :: tail)) with
  | some n =>
    rw [hfound, Option.some_or] at h
    exact .inl h
  | none =>
    rw [Option.none_or, List.findSome?_cons]
    rw [List.cons_append] at hcall
    simp [hcall]

theorem ne_of_isBlank {d : Char} (hc : isBlank c = true) (hd : isBlank d = false) : c ≠ d := by
  rintro rfl
  simp [hc] at hd

theorem Rule.length?_of_isBlank {rule : Rule} (hrule : rule.isRegular = true)
    (hc : isBlank c = true) : rule.length? (c :: tail) = none := by
  have hrun : runLength? isWordChar (c :: tail) = none := by
    simp [runLength?, runLength, isWordChar_of_isBlank hc]
  have hnumber : runLength? isDecimal (c :: tail) = none := by
    simp [runLength?, runLength, isDecimal_of_isStop (isStop_of_isBlank hc)]
  have hbacktick : backtickLength? (c :: tail) = none := by
    simp [backtickLength?, ne_of_isBlank (d := '`') hc (by decide)]
  have hpercent : c ≠ '%' := ne_of_isBlank hc (by decide)
  have hhead : ∀ d ∈ (c :: tail).head?, isWordChar d = false := by simp [isWordChar_of_isBlank hc]
  cases rule with
  | phrase words =>
    simp only [Rule.isRegular, Bool.and_eq_true, Bool.not_eq_true', List.isEmpty_eq_false_iff]
      at hrule
    simp [Rule.length?, phraseLength?_eq_none hrule.2 hrule.1 hhead]
  | openPhrase words =>
    simp only [Rule.isRegular, Bool.and_eq_true, Bool.not_eq_true', List.isEmpty_eq_false_iff]
      at hrule
    exact phraseLength?_eq_none hrule.2 hrule.1 hhead
  | symbol text =>
    cases htext : text.toList with
    | nil => simp [Rule.isRegular, htext] at hrule
    | cons first others =>
      simp only [Rule.isRegular, htext, Bool.and_eq_true, Bool.not_eq_true'] at hrule
      simp [Rule.length?, htext, List.isPrefixOf, (ne_of_isBlank hc hrule.1).symm]
  | number =>
    simp [Rule.length?, numberLength?, unsignedLength?, hnumber,
      ne_of_isBlank (d := '-') hc (by decide), ne_of_isBlank (d := '+') hc (by decide)]
  | callHead | dottedName | dottedStar => simp [Rule.length?, hrun]
  | name => exact hrun
  | backtickPair => simp [Rule.length?, hbacktick]
  | backtickName => exact hbacktick
  | namedPlaceholder | placeholder => simp [Rule.length?, hpercent]

theorem startOf_of_isBlank (hc : isBlank c = true) : startOf c tail = .dropped := by
  have hquote : isQuote c = false := by
    simp [isQuote, ne_of_isBlank (d := '"') hc (by decide),
      ne_of_isBlank (d := '\'') hc (by decide)]
  have hrules : rules.findSome? (Rule.length? (c :: tail)) = none := by
    rw [List.findSome?_eq_none_iff]
    exact fun rule hrule ↦ Rule.length?_of_isBlank (isRegular_of_mem_rules hrule) hc
  simp [startOf, hquote, hrules]

theorem isBlank_of_startOf {n : Nat} (h : startOf c tail = .word n) : isBlank c = false := by
  rw [← Bool.not_eq_true]
  intro hc
  rw [startOf_of_isBlank hc] at h
  cases h

theorem startOf_paren : startOf '(' rest = .word 1 := by rfl

theorem startOf_in_paren : startOf 'I' ('N' :: ' ' :: '(' :: rest) = .word 2 := by rfl

end Starts

theorem cutFrom_eq_drop (skip : Nat) (text : List Char) :
    cutFrom skip text = cutFrom 0 (text.drop skip) := by
  induction skip generalizing text with
  | zero => rfl
  | succ skip ih =>
    cases text with
    | nil => rfl
    | cons c text => simpa [cutFrom] using ih text

theorem cutFrom_append (word rest : List Char) :
    cutFrom word.length (word ++ rest) = cutFrom 0 rest := by
  rw [cutFrom_eq_drop, List.drop_left]

end Word

/-- The tokens of a text; `last` is the kind of the last keyword in front of it. -/
def scan (last : Option Kind) (text : List Char) : Tokens :=
  ⟨Token.ofWords last (Word.cutFrom 0 text).words, (Word.cutFrom 0 text).unclosed⟩

theorem tokenize_eq_scan (text : String) : tokenize text = scan none text.toList := rfl

theorem scan_cons_of_isBlank {c : Char} (hc : isBlank c = true) (last : Option Kind)
    (text : List Char) : scan last (c :: text) = scan last text := by
  simp only [scan, Word.cutFrom, Word.startOf_of_isBlank hc]

/-- The tokens of a text are those of the word it starts with and those of the rest. -/
theorem scan_append (c : Char) (tail rest : List Char)
    (h : Word.startOf c (tail ++ rest) = .word (tail.length + 1)) (last : Option Kind) :
    scan last (c :: tail ++ rest) =
      ⟨Token.ofWord last (String.ofList (c :: tail)) ++
          (scan (Kind.ofWord? (String.ofList (c :: tail)) <|> last) rest).tokens,
        (scan (Kind.ofWord? (String.ofList (c :: tail)) <|> last) rest).unclosed⟩ := by
  have htake : (c :: tail ++ rest).take (tail.length + 1) = c :: tail := by simp
  simp only [scan, List.cons_append, Word.cutFrom, h, Nat.add_sub_cancel, Word.cutFrom_append]
  rw [← List.cons_append, htake]
  rfl

end SqlLayout
