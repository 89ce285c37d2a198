import SqlLayout.Proofs.Text.Collapse
import SqlLayout.Proofs.Words.Semicolon

/-!
# Words and the amount of blanks

A text with its blanks collapsed is cut into the words of the text with their blanks collapsed.  A rule
that finds a word at the start of a text finds the collapsed word at the start of the collapsed text, as no
word starts or ends inside a run of blanks.
-/

namespace SqlLayout

open Text

namespace Word

variable {words : List String} {n : Nat}

/-- How long the first `n` characters of a text are once their blanks are collapsed. -/
def width (text : List Char) (n : Nat) : Nat :=
  (collapseChars (text.take n)).length

/-- No run of blanks is cut in two behind the first `n` characters. -/
def IsSeam (text : List Char) (n : Nat) : Prop :=
  IsSettled (text.take n) ∨ (text.drop n).head?.any isBlank = false

section Seams

variable {p : Char → Bool} {text : List Char} {n : Nat}

theorem collapseChars_eq_append (h : IsSeam text n) :
    collapseChars text = collapseChars (text.take n) ++ collapseChars (text.drop n) := by
  rw [← collapseChars_append h, List.take_append_drop]

theorem drop_width (h : IsSeam text n) :
    (collapseChars text).drop (width text n) = collapseChars (text.drop n) := by
  rw [collapseChars_eq_append h, width, List.drop_left]

theorem take_width (h : IsSeam text n) :
    (collapseChars text).take (width text n) = collapseChars (text.take n) := by
  rw [collapseChars_eq_append h, width, List.take_left]

theorem width_add (h : IsSeam text n) (m : Nat) :
    width text (n + m) = width text n + width (text.drop n) m := by
  have hnext : IsSettled (text.take n) ∨ ((text.drop n).take m).head?.any isBlank = false := by
    refine h.imp_right fun hdrop ↦ ?_
    cases m with
    | zero => simp
    | succ m => rwa [List.head?_take, if_neg (by omega)]
  simp only [width, List.take_add, collapseChars_append hnext, List.length_append]

theorem width_of_all (hn : n ≤ text.length) (h : (text.take n).all (!isBlank ·) = true) :
    width text n = n := by
  rw [width, collapseChars_of_all h, List.length_take, Nat.min_eq_left hn]

/-! ### Runs -/

theorem not_isBlank_of_mem_takeWhile (hp : ∀ c, isBlank c = true → p c = false) :
    (text.takeWhile p).all (!isBlank ·) = true := by
  rw [List.all_eq_true]
  intro c hc
  have hpc := List.all_eq_true.mp (List.all_takeWhile (l := text) (p := p)) c hc
  cases hblank : isBlank c with
  | false => rfl
  | true => simp [hp c hblank] at hpc

theorem isSeam_runLength (hp : ∀ c, isBlank c = true → p c = false) :
    IsSeam text (runLength p text) := by
  left
  rw [take_runLength]
  exact isSettled_of_all (not_isBlank_of_mem_takeWhile hp)

theorem runLength_collapseChars (hp : ∀ c, isBlank c = true → p c = false) (text : List Char) :
    runLength p (collapseChars text) = runLength p text := by
  rw [runLength, takeWhile_collapseChars hp, runLength]

theorem runLength?_collapseChars (hp : ∀ c, isBlank c = true → p c = false) (text : List Char) :
    runLength? p (collapseChars text) = runLength? p text := by
  simp only [runLength?, runLength_collapseChars hp]

theorem width_runLength (hp : ∀ c, isBlank c = true → p c = false) :
    width text (runLength p text) = runLength p text := by
  refine width_of_all runLength_le ?_
  rw [take_runLength]
  exact not_isBlank_of_mem_takeWhile hp

theorem isSeam_gap : IsSeam text (runLength isBlank text) := by
  right
  rw [drop_runLength]
  exact any_head?_dropWhile_isBlank text

/-- A run of blanks is collapsed to the run of blanks of the collapsed text. -/
theorem runLength_isBlank_collapseChars (text : List Char) :
    runLength isBlank (collapseChars text) = width text (runLength isBlank text) := by
  have hrun : (collapseChars (text.takeWhile isBlank)).all isBlank = true := by
    cases hfront : text.takeWhile isBlank with
    | nil => rfl
    | cons c front =>
      have hall := List.all_takeWhile (l := text) (p := isBlank)
      rw [hfront, List.all_cons, Bool.and_eq_true] at hall
      have hrest : front.dropWhile isBlank = [] := by
        rw [← List.append_nil front, List.dropWhile_append_of_pos (List.all_eq_true.mp hall.2)]
        rfl
      simp [collapseChars_cons_of_isBlank hall.1, hrest, isBlank_space]
  have hstop : ∀ c ∈ (collapseChars (text.dropWhile isBlank)).head?, isBlank c = false := by
    have hany := any_head?_dropWhile_isBlank text
    rw [← any_head?_collapseChars] at hany
    intro c hc
    rw [Option.mem_def] at hc
    simpa [hc] using hany
  have hseam : IsSeam text (runLength isBlank text) := isSeam_gap
  have hsplit := collapseChars_eq_append hseam
  rw [take_runLength, drop_runLength] at hsplit
  rw [hsplit, runLength_append_of_head hstop, runLength_of_all hrun, width, take_runLength]

theorem runLength?_isBlank_collapseChars (text : List Char) :
    runLength? isBlank (collapseChars text) = (runLength? isBlank text).map (width text) := by
  have hrun := runLength_isBlank_collapseChars text
  cases h : runLength? isBlank text with
  | none =>
    have hzero : runLength isBlank text = 0 := by
      unfold runLength? at h
      split at h
      · assumption
      · cases h
    simp [runLength?, hrun, hzero, width]
  | some n =>
    obtain ⟨rfl, hpos⟩ := runLength?_eq_some.mp h
    rw [Option.map_some, runLength?_eq_some]
    refine ⟨hrun, ?_⟩
    rw [width, List.length_pos_iff, ne_eq, collapseChars_eq_nil, List.take_eq_nil_iff]
    rintro (hzero | rfl)
    · omega
    · simp [runLength] at hpos

end Seams

/-! ### Keyword phrases -/

section Phrases

variable {text : List Char} {n : Nat}

theorem spelledLength?_collapseChars {letters : List Char}
    (hletters : letters.all isKeywordLetter = true) (text : List Char) :
    spelledLength? letters (collapseChars text) = spelledLength? letters text := by
  induction letters generalizing text with
  | nil => rfl
  | cons letter letters ih =>
    simp only [List.all_cons, Bool.and_eq_true] at hletters
    cases text with
    | nil => rfl
    | cons c rest =>
      cases hc : isBlank c with
      | false => simp only [collapseChars_cons_of_not_isBlank hc, spelledLength?, ih hletters.2]
      | true =>
        have hspace := spells_of_isStop hletters.1 (isStop_of_isBlank isBlank_space)
        have hblank := spells_of_isStop hletters.1 (isStop_of_isBlank hc)
        simp [collapseChars_cons_of_isBlank hc, spelledLength?, hspace, hblank]

theorem all_take_of_spelledLength? {letters : List Char}
    (hletters : letters.all isKeywordLetter = true) (h : spelledLength? letters text = some n) :
    (text.take n).all (!isBlank ·) = true := by
  induction letters generalizing text n with
  | nil =>
    obtain rfl : 0 = n := by simpa [spelledLength?] using h
    rfl
  | cons letter letters ih =>
    simp only [List.all_cons, Bool.and_eq_true] at hletters
    cases text with
    | nil => simp
    | cons c rest =>
      rw [spelledLength?] at h
      split at h
      · rename_i hspells
        obtain ⟨m, hm, rfl⟩ := Option.map_eq_some_iff.mp h
        have hc : isBlank c = false := by
          rw [← Bool.not_eq_true]
          intro hblank
          simp [spells_of_isStop hletters.1 (isStop_of_isBlank hblank)] at hspells
        simp [hc, ih hletters.2 hm]
      · cases h

theorem phraseLength?_collapseChars (hwords : words.all isKeyword = true) (text : List Char) :
    phraseLength? words (collapseChars text) = (phraseLength? words text).map (width text) := by
  induction words generalizing text with
  | nil => rfl
  | cons first words ih =>
    simp only [List.all_cons, Bool.and_eq_true] at hwords
    have hletters := letters_of_isKeyword hwords.1
    have hspelled := spelledLength?_collapseChars hletters text
    have hwidth : ∀ {n}, spelledLength? first.toList text = some n → width text n = n := fun h ↦
      width_of_all (length_of_spelledLength? h).2 (all_take_of_spelledLength? hletters h)
    cases words with
    | nil =>
      simp only [phraseLength?, hspelled]
      cases hfound : spelledLength? first.toList text with
      | none => rfl
      | some n => rw [Option.map_some, hwidth hfound]
    | cons next words =>
      rw [phraseLength?_cons_cons, phraseLength?_cons_cons, hspelled]
      cases hfound : spelledLength? first.toList text with
      | none => rfl
      | some head =>
        have hseam : IsSeam text head :=
          .inl (isSettled_of_all (all_take_of_spelledLength? hletters hfound))
        have hdrop := drop_width hseam
        rw [hwidth hfound] at hdrop
        rw [Option.bind_some, Option.bind_some, hdrop, runLength?_isBlank_collapseChars]
        cases hrun : runLength? isBlank (text.drop head) with
        | none => rfl
        | some gap =>
          have hgap : IsSeam (text.drop head) gap :=
            (runLength?_eq_some.mp hrun).1 ▸ isSeam_gap
          rw [Option.map_some, Option.bind_some, Option.bind_some, ← List.drop_drop, hdrop,
            drop_width hgap, ih hwords.2, List.drop_drop]
          cases phraseLength? (next :: words) (text.drop (head + gap)) with
          | none => rfl
          | some tail =>
            have hlen : width text (head + gap + tail) =
                head + width (text.drop head) gap + width (text.drop (head + gap)) tail := by
              rw [Nat.add_assoc, width_add hseam, width_add hgap, List.drop_drop,
                hwidth hfound, Nat.add_assoc]
            simp [hlen]

theorem isSettled_of_phraseLength? (hwords : words.all isKeyword = true)
    (h : phraseLength? words text = some n) : IsSettled (text.take n) := by
  induction words generalizing text n with
  | nil =>
    obtain rfl : 0 = n := by simpa [phraseLength?] using h
    rfl
  | cons first words ih =>
    simp only [List.all_cons, Bool.and_eq_true] at hwords
    cases words with
    | nil => exact isSettled_of_all (all_take_of_spelledLength? (letters_of_isKeyword hwords.1)
        (by simpa [phraseLength?] using h))
    | cons next words =>
      obtain ⟨head, gap, tail, -, -, htail, rfl⟩ := phraseLength?_eq_some.mp h
      have hnext : isKeyword next = true := by
        have := hwords.2
        simp only [List.all_cons, Bool.and_eq_true] at this
        exact this.1
      have hpos := phraseLength?_pos hnext htail
      have hle := phraseLength?_le htail
      rw [List.take_add, isSettled_append]
      · exact ih hwords.2 htail
      · rw [ne_eq, List.take_eq_nil_iff, not_or]
        exact ⟨by omega, fun hnil ↦ by simp [hnil] at hle; omega⟩

theorem atWordEnd_collapseChars (text : List Char) :
    atWordEnd (collapseChars text) = atWordEnd text := by
  cases text with
  | nil => rfl
  | cons c rest =>
    cases hc : isBlank c with
    | false => simp [collapseChars_cons_of_not_isBlank hc, atWordEnd]
    | true =>
      simp [collapseChars_cons_of_isBlank hc, atWordEnd, isWordChar_of_isBlank hc,
        isWordChar_of_isBlank isBlank_space]

end Phrases

/-! ### Rules -/

/-- At the start of a text the rule finds a word that ends in no blank, and at the start of the collapsed
text the collapsed word. -/
structure Rule.KeepsSpacing (rule : Rule) (text : List Char) : Prop where
  length?_collapseChars : rule.length? (collapseChars text) = (rule.length? text).map (width text)
  isSettled : ∀ n, rule.length? text = some n → IsSettled (text.take n)

section Rules

variable {rule : Rule} {c : Char} {text tail : List Char}

theorem keepsSpacing_openPhrase (hwords : words.all isKeyword = true) (text : List Char) :
    (Rule.openPhrase words).KeepsSpacing text where
  length?_collapseChars := phraseLength?_collapseChars hwords text
  isSettled _ h := isSettled_of_phraseLength? hwords h

theorem keepsSpacing_phrase (hwords : words.all isKeyword = true) (text : List Char) :
    (Rule.phrase words).KeepsSpacing text where
  length?_collapseChars := by
    simp only [Rule.length?, phraseLength?_collapseChars hwords]
    cases hphrase : phraseLength? words text with
    | none => rfl
    | some n =>
      have hseam : IsSeam text n := .inl (isSettled_of_phraseLength? hwords hphrase)
      simp only [Option.map_some, Option.bind_eq_bind, Option.bind_some, drop_width hseam,
        atWordEnd_collapseChars]
      split <;> rfl
  isSettled _ h := isSettled_of_phraseLength? hwords (Rule.length?_phrase_eq_some.mp h).1

theorem not_isWordChar_of_isBlank : ∀ c, isBlank c = true → isWordChar c = false :=
  fun _ ↦ isWordChar_of_isBlank

theorem keepsSpacing_callHead (text : List Char) : Rule.callHead.KeepsSpacing text where
  length?_collapseChars := by
    simp only [Rule.length?, runLength?_collapseChars not_isWordChar_of_isBlank]
    cases hrun : runLength? isWordChar text with
    | none => rfl
    | some n =>
      obtain ⟨hn, -⟩ := runLength?_eq_some.mp hrun
      have hseam : IsSeam text n := hn ▸ isSeam_runLength not_isWordChar_of_isBlank
      have hwidth : width text n = n := hn ▸ width_runLength not_isWordChar_of_isBlank
      have hdrop := drop_width hseam
      rw [hwidth] at hdrop
      simp only [Option.bind_eq_bind, Option.bind_some, hdrop, ← List.drop_drop,
        runLength_isBlank_collapseChars, drop_width isSeam_gap,
        head?_collapseChars_eq_some (show isBlank '(' = false by decide)]
      split
      · rename_i hparen
        -- The parenthesis keeps its place behind the collapsed gap.
        have hone : width ((text.drop n).drop (runLength isBlank (text.drop n))) 1 = 1 := by
          obtain ⟨more, hmore⟩ := List.head?_eq_some_iff.mp hparen
          rw [hmore]
          rfl
        have hlen : width text (n + runLength isBlank (text.drop n) + 1) =
            n + width (text.drop n) (runLength isBlank (text.drop n)) + 1 := by
          rw [Nat.add_assoc, width_add hseam, width_add isSeam_gap, hone, hwidth, Nat.add_assoc]
        rw [Option.map_some, hlen]
      · rfl
  isSettled n h := by
    obtain ⟨m, more, -, hmore, rfl⟩ := Rule.length?_callHead_eq_some.mp h
    rw [List.take_add, hmore, isSettled_append (by simp)]
    rfl

/-- The first piece of a text alone decides what a rule without blanks finds. -/
theorem keepsSpacing_of_front (hrule : rule.isRegular = true)
    (h : ∀ rest : List Char, rest.head?.all isBlank = true →
      rule.length? (text.takeWhile (!isBlank ·) ++ rest) =
        rule.length? (text.takeWhile (!isBlank ·))) : rule.KeepsSpacing text := by
  have hp : ∀ c, isBlank c = true → (!isBlank c) = false := by simp
  have hblank : ∀ text : List Char, (text.dropWhile (!isBlank ·)).head?.all isBlank = true := by
    intro text
    cases hhead : (text.dropWhile (!isBlank ·)).head? with
    | none => rfl
    | some c =>
      have hc := List.head?_dropWhile_not (!isBlank ·) text
      rw [hhead] at hc
      simpa using hc
  have hfront : rule.length? text = rule.length? (text.takeWhile (!isBlank ·)) := by
    rw [← h _ (hblank text), List.takeWhile_append_dropWhile]
  have hcollapsed : rule.length? (collapseChars text) =
      rule.length? (text.takeWhile (!isBlank ·)) := by
    have hsplit := List.takeWhile_append_dropWhile (p := (!isBlank ·)) (l := collapseChars text)
    rw [takeWhile_collapseChars hp] at hsplit
    rw [← hsplit, h _ (hblank _)]
  have hall : ∀ n, rule.length? text = some n →
      n ≤ text.length ∧ (text.take n).all (!isBlank ·) = true := by
    intro n hn
    have hle : n ≤ (text.takeWhile (!isBlank ·)).length := Rule.length?_le hrule (hfront ▸ hn)
    refine ⟨Rule.length?_le hrule hn, ?_⟩
    rw [← List.takeWhile_append_dropWhile (p := (!isBlank ·)) (l := text),
      List.take_append_of_le_length hle, List.all_eq_true]
    intro c hc
    exact List.all_eq_true.mp (not_isBlank_of_mem_takeWhile hp) c (List.mem_of_mem_take hc)
  constructor
  · rw [hcollapsed, ← hfront]
    cases hn : rule.length? text with
    | none => rfl
    | some n => rw [Option.map_some, width_of_all (hall n hn).1 (hall n hn).2]
  · intro n hn
    exact isSettled_of_all (hall n hn).2

theorem takeWhile_cons_front (hc : isBlank c = false) :
    (c :: tail).takeWhile (!isBlank ·) = c :: tail.takeWhile (!isBlank ·) :=
  List.takeWhile_cons_of_pos (by simp [hc])

theorem Rule.keepsSpacing (hrule : rule.isRegular = true) (hc : isBlank c = false)
    (hpercent : c ≠ '%') : rule.KeepsSpacing (c :: tail) := by
  have hfront : rule.keywords = [] → rule ≠ .callHead → rule.KeepsSpacing (c :: tail) := by
    intro hkeywords hcall
    apply keepsSpacing_of_front hrule
    intro rest hrest
    rw [takeWhile_cons_front hc]
    apply Rule.length?_append hrule (List.cons_ne_nil _ _) (by simpa using hpercent)
    · intro d hd
      rw [Option.mem_def] at hd
      exact isStop_of_isBlank (by simpa [hd] using hrest)
    · exact fun h ↦ h.1 hkeywords
    · exact fun h ↦ absurd h hcall
  cases rule with
  | phrase words => exact keepsSpacing_phrase (keywords_of_isRegular hrule) _
  | openPhrase words => exact keepsSpacing_openPhrase (keywords_of_isRegular hrule) _
  | callHead => exact keepsSpacing_callHead _
  | _ => exact hfront rfl (by simp)

theorem keepsSpacing_namedPlaceholder (tail : List Char) :
    Rule.namedPlaceholder.KeepsSpacing ('%' :: tail) := by
  apply keepsSpacing_of_front rfl
  intro rest hrest
  rw [takeWhile_cons_front (by decide)]
  cases rest with
  | nil => rw [List.append_nil]
  | cons d rest =>
    have hd : isBlank d = true := by simpa using hrest
    exact namedPlaceholder_append_stop (isStop_of_isBlank hd) (ne_of_isBlank hd (by decide))
      (ne_of_isBlank hd (by decide)) rest

theorem keepsSpacing_placeholder (tail : List Char) :
    Rule.placeholder.KeepsSpacing ('%' :: tail) := by
  apply keepsSpacing_of_front rfl
  intro rest hrest
  rw [takeWhile_cons_front (by decide)]
  cases rest with
  | nil => rw [List.append_nil]
  | cons d rest => exact placeholder_append_stop (isStop_of_isBlank (by simpa using hrest)) rest

theorem findSome?_collapseChars (hc : isBlank c = false) :
    rules.findSome? (Rule.length? (c :: collapseChars tail)) =
      (rules.findSome? (Rule.length? (c :: tail))).map (width (c :: tail)) := by
  rw [← collapseChars_cons_of_not_isBlank hc]
  by_cases hpercent : c = '%'
  · subst hpercent
    have hnamed := (keepsSpacing_namedPlaceholder tail).length?_collapseChars
    have hshort := (keepsSpacing_placeholder tail).length?_collapseChars
    rw [collapseChars_cons_of_not_isBlank hc] at hnamed hshort ⊢
    rw [findSome?_percent, findSome?_percent, hnamed, hshort, Option.map_or]
  · rw [List.map_findSome?]
    apply findSome?_congr
    intro rule hrule
    exact (Rule.keepsSpacing (isRegular_of_mem_rules hrule) hc hpercent).length?_collapseChars

theorem isSettled_of_findSome? (hc : isBlank c = false)
    (h : rules.findSome? (Rule.length? (c :: tail)) = some n) : IsSettled ((c :: tail).take n) := by
  by_cases hpercent : c = '%'
  · subst hpercent
    rw [findSome?_percent, Option.or_eq_some_iff] at h
    rcases h with h | ⟨-, h⟩
    · exact (keepsSpacing_namedPlaceholder tail).isSettled n h
    · exact (keepsSpacing_placeholder tail).isSettled n h
  · obtain ⟨rule, hrule, h⟩ := List.exists_of_findSome?_eq_some h
    exact (Rule.keepsSpacing (isRegular_of_mem_rules hrule) hc hpercent).isSettled n h

end Rules

/-! ### Words -/

section Cuts

variable {c : Char} {text rest : List Char}

theorem not_isBlank_of_isQuote (hc : isQuote c = true) : isBlank c = false := by
  simp only [isQuote, Bool.or_eq_true, beq_iff_eq] at hc
  rcases hc with rfl | rfl <;> decide

theorem mem_collapseChars (hc : isBlank c = false) : c ∈ collapseChars text ↔ c ∈ text := by
  induction text with
  | nil => rfl
  | cons d text ih =>
    cases hd : isBlank d with
    | false => simp [collapseChars_cons_of_not_isBlank hd, ih]
    | true =>
      have hspace : c ≠ ' ' := (ne_of_isBlank isBlank_space hc).symm
      have hne : c ≠ d := (ne_of_isBlank hd hc).symm
      rw [collapseChars, if_pos hd]
      split <;> simp [ih, hspace, hne]

theorem idxOf?_append_cons {front back : List Char} (h : c ∉ front) :
    (front ++ c :: back).idxOf? c = some front.length := by
  induction front with
  | nil => simp [List.idxOf?_cons]
  | cons d front ih =>
    simp only [List.mem_cons, not_or] at h
    simp [List.idxOf?_cons, ih h.2, Ne.symm h.1]

theorem take_quoted (c : Char) (front back : List Char) :
    (c :: (front ++ c :: back)).take (front.length + 2) = c :: (front ++ [c]) := by
  have h : c :: (front ++ c :: back) = c :: (front ++ [c]) ++ back := by simp
  rw [h]
  exact List.take_left' (by simp)

def Start.collapsed (text : List Char) : Start → Start
  | .word n => .word (width text n)
  | start => start

theorem startOf_collapseChars (hc : isBlank c = false) (rest : List Char) :
    startOf c (collapseChars rest) = (startOf c rest).collapsed (c :: rest) := by
  by_cases hquote : isQuote c = true
  · by_cases hmem : c ∈ rest
    · -- The next equal quote is kept with the text in between.
      obtain ⟨front, back, rfl, hfront⟩ := List.eq_append_cons_of_mem hmem
      have hsplit : collapseChars (front ++ c :: back) =
          collapseChars front ++ c :: collapseChars back := by
        rw [collapseChars_append (.inr (by simpa using hc)), collapseChars_cons_of_not_isBlank hc]
      have hword : width (c :: (front ++ c :: back)) (front.length + 2) =
          (collapseChars front).length + 2 := by
        rw [width, take_quoted, collapseChars_cons_of_not_isBlank hc,
          collapseChars_append (.inr (by simpa using hc)), collapseChars_cons_of_not_isBlank hc]
        simp
      have hfront' : c ∉ collapseChars front := (not_congr (mem_collapseChars hc)).mpr hfront
      simp only [startOf, if_pos hquote, hsplit, idxOf?_append_cons hfront,
        idxOf?_append_cons hfront', Start.collapsed, hword]
    · have hnone : rest.idxOf? c = none := List.idxOf?_eq_none_iff.mpr hmem
      have hnone' : (collapseChars rest).idxOf? c = none :=
        List.idxOf?_eq_none_iff.mpr ((not_congr (mem_collapseChars hc)).mpr hmem)
      simp only [startOf, if_pos hquote, hnone, hnone', Start.collapsed]
  · simp only [startOf, if_neg hquote, findSome?_collapseChars hc]
    cases rules.findSome? (Rule.length? (c :: rest)) <;> rfl

theorem isSettled_of_startOf (hc : isBlank c = false) (h : startOf c rest = .word n) :
    IsSettled ((c :: rest).take n) := by
  by_cases hquote : isQuote c = true
  · obtain ⟨m, hm, rfl⟩ := (startOf_eq_word_of_isQuote hquote).mp h
    have hmem : c ∈ rest := by
      rw [← List.isSome_idxOf?, hm]
      rfl
    obtain ⟨front, back, rfl, hfront⟩ := List.eq_append_cons_of_mem hmem
    obtain rfl : front.length = m := by simpa [idxOf?_append_cons hfront] using hm
    rw [take_quoted, ← List.cons_append, isSettled_append (List.cons_ne_nil _ _)]
    simpa [IsSettled] using hc
  · rw [Bool.not_eq_true] at hquote
    exact isSettled_of_findSome? hc ((startOf_eq_word_of_not_isQuote hquote).mp h)

def Cut.collapsed (cut : Cut) : Cut :=
  ⟨cut.words.map collapse, cut.unclosed.map collapse⟩

theorem cutFrom_dropWhile_isBlank (text : List Char) :
    cutFrom 0 (text.dropWhile isBlank) = cutFrom 0 text := by
  induction text with
  | nil => rfl
  | cons c rest ih =>
    cases hc : isBlank c with
    | false => rw [List.dropWhile_cons_of_neg (by simp [hc])]
    | true => rw [List.dropWhile_cons_of_pos hc, ih, cutFrom, startOf_of_isBlank hc]

theorem width_sub_one (hc : isBlank c = false) (n : Nat) :
    width (c :: rest) n - 1 = width rest (n - 1) := by
  cases n with
  | zero => simp [width]
  | succ n => simp [width, collapseChars_cons_of_not_isBlank hc]

theorem cutFrom_collapseChars (text : List Char) :
    cutFrom 0 (collapseChars text) = (cutFrom 0 text).collapsed := by
  induction hlen : text.length using Nat.strongRecOn generalizing text with
  | ind len ih =>
    cases text with
    | nil => rfl
    | cons c rest =>
      have hshort : ∀ more : List Char, more.length ≤ rest.length →
          cutFrom 0 (collapseChars more) = (cutFrom 0 more).collapsed := fun more hmore ↦
        ih more.length (by simp only [List.length_cons] at hlen; omega) more rfl
      cases hc : isBlank c with
      | true =>
        rw [collapseChars_cons_of_isBlank hc, cutFrom, startOf_of_isBlank isBlank_space, cutFrom,
          startOf_of_isBlank hc, ← cutFrom_dropWhile_isBlank rest]
        exact hshort _ (List.dropWhile_suffix _).length_le
      | false =>
        have hfull := collapseChars_cons_of_not_isBlank hc rest
        rw [hfull, cutFrom, startOf_collapseChars hc, cutFrom]
        cases hstart : startOf c rest with
        | dropped => exact hshort rest (Nat.le_refl _)
        | unclosed => simp [Start.collapsed, Cut.collapsed, collapse, hfull]
        | word n =>
          -- The text behind the word starts at a seam of the text behind its first character.
          have hseam : IsSeam (c :: rest) n := .inl (isSettled_of_startOf hc hstart)
          have hseam' : IsSeam rest (n - 1) := by
            cases n with
            | zero => exact .inl rfl
            | succ n =>
              refine hseam.imp_left fun hsettled ↦ ?_
              cases hfront : rest.take n with
              | nil => simp [IsSettled, hfront]
              | cons d front => simpa [IsSettled, hfront] using hsettled
          have htake := take_width hseam
          rw [hfull] at htake
          have hrest := hshort (rest.drop (n - 1)) (by simp)
          simp only [Start.collapsed, width_sub_one hc, cutFrom_eq_drop (width rest (n - 1)),
            cutFrom_eq_drop (n - 1), drop_width hseam', hrest, htake, Cut.collapsed,
            List.map_cons, collapse, String.toList_ofList]

theorem cut_collapse (text : String) : cut (collapse text) = (cut text).collapsed := by
  rw [cut, toList_collapse, cutFrom_collapseChars, cut]

/-! ### Words start and end with nonblank characters -/

theorem startOf_pos (h : startOf c rest = .word n) : 0 < n := by
  by_cases hquote : isQuote c = true
  · obtain ⟨m, -, rfl⟩ := (startOf_eq_word_of_isQuote hquote).mp h
    omega
  · rw [startOf_eq_word_of_not_isQuote (by simpa using hquote)] at h
    obtain ⟨rule, hrule, h⟩ := List.exists_of_findSome?_eq_some h
    exact Rule.length?_pos (isRegular_of_mem_rules hrule) h

def IsTrimmed (text : List Char) : Prop :=
  text.head?.any (!isBlank ·) = true ∧ IsSettled text

/-- Every word of a text is taken where one starts. -/
theorem exists_startOf_of_mem_cutFrom {skip : Nat} {word : String}
    (h : word ∈ (cutFrom skip text).words) :
    ∃ c rest n, startOf c rest = .word n ∧ word = String.ofList ((c :: rest).take n) := by
  induction text generalizing skip with
  | nil => simp [cutFrom] at h
  | cons c rest ih =>
    cases skip with
    | succ skip => exact ih h
    | zero =>
      rw [cutFrom] at h
      cases hstart : startOf c rest with
      | dropped =>
        rw [hstart] at h
        exact ih h
      | unclosed =>
        rw [hstart] at h
        cases h
      | word n =>
        rw [hstart] at h
        rcases List.mem_cons.mp h with rfl | h
        · exact ⟨c, rest, n, hstart, rfl⟩
        · exact ih h

theorem isTrimmed_of_mem_cutFrom {skip : Nat} {word : String}
    (h : word ∈ (cutFrom skip text).words) : IsTrimmed word.toList := by
  obtain ⟨c, rest, n, hstart, rfl⟩ := exists_startOf_of_mem_cutFrom h
  cases hc : isBlank c with
  | true => simp [isBlank_of_startOf hstart] at hc
  | false =>
    have hpos := startOf_pos hstart
    rw [String.toList_ofList]
    refine ⟨?_, isSettled_of_startOf hc hstart⟩
    rw [List.head?_take, if_neg (by omega)]
    simp [hc]

end Cuts

end Word

end SqlLayout
