import SqlLayout.Proofs.Text.Classes
import SqlLayout.Proofs.Words.Rules

/-!
# What follows a word

A rule that finds a word at the start of a text finds the same word when a stop and more text
follow, with two exceptions: a keyword phrase may run on past the stop, and so may the head of a call
that looks for its parenthesis.  Where neither happens, the start of a text decides by itself which
word stands there.
-/

namespace SqlLayout.Word

open Text

variable {c : Char} {n : Nat} {text : List Char} {first : String} {words : List String} {rule : Rule}

/-- Whether a text ends any word in front of it. -/
def Ends (rest : List Char) : Prop :=
  ∀ c ∈ rest.head?, isStop c = true

theorem ends_nil : Ends [] := by simp [Ends]

@[simp] theorem ends_cons {rest : List Char} : Ends (c :: rest) ↔ isStop c = true := by
  simp [Ends]

section Runs

variable {p : Char → Bool} {text rest : List Char}

theorem runLength_append_of_head (h : ∀ c ∈ rest.head?, p c = false) :
    runLength p (text ++ rest) = runLength p text := by
  induction text with
  | nil =>
    cases rest with
    | nil => rfl
    | cons c rest => simp [runLength, h c rfl]
  | cons c text ih =>
    by_cases hc : p c = true
    · simpa [runLength, hc] using ih
    · simp [runLength, hc]

theorem runLength_append_of_not_all (rest : List Char) (h : text.all p = false) :
    runLength p (text ++ rest) = runLength p text := by
  induction text with
  | nil => simp at h
  | cons c text ih =>
    by_cases hc : p c = true
    · have hrest : text.all p = false := by simpa [hc] using h
      simpa [runLength, hc] using ih hrest
    · simp [runLength, hc]

theorem runLength_append_of_all (rest : List Char) (h : text.all p = true) :
    runLength p (text ++ rest) = text.length + runLength p rest := by
  rw [List.all_eq_true] at h
  simp [runLength, List.takeWhile_append_of_pos h]

theorem runLength_of_all (h : text.all p = true) : runLength p text = text.length := by
  simpa [runLength] using runLength_append_of_all [] h

theorem runLength_lt_of_not_all (h : text.all p = false) : runLength p text < text.length := by
  induction text with
  | nil => simp at h
  | cons c text ih =>
    by_cases hc : p c = true
    · have hrest : text.all p = false := by simpa [hc] using h
      simpa [runLength, hc] using ih hrest
    · simp [runLength, hc]

theorem runLength_le : runLength p text ≤ text.length :=
  (List.takeWhile_prefix p).length_le

theorem drop_runLength : text.drop (runLength p text) = text.dropWhile p := by
  induction text with
  | nil => rfl
  | cons c text ih =>
    by_cases hc : p c = true
    · simpa [runLength, hc] using ih
    · simp [runLength, hc]

theorem drop_append_runLength {word : List Char} :
    (word ++ rest).drop (word.length + runLength p rest) = rest.dropWhile p := by
  rw [List.drop_append, List.drop_eq_nil_of_le (by omega), Nat.add_sub_cancel_left,
    List.nil_append, drop_runLength]

theorem runLength?_eq_some : runLength? p text = some n ↔ runLength p text = n ∧ 0 < n := by
  unfold runLength?
  split
  · simp_all
  · simp_all
    omega

theorem runLength?_congr (h : runLength p text = runLength p rest) :
    runLength? p text = runLength? p rest := by
  simp [runLength?, h]

/-- A run that is not empty starts with a character of its class. -/
theorem exists_cons_of_runLength? (h : runLength? p text = some n) :
    ∃ c more, text = c :: more ∧ p c = true := by
  obtain ⟨rfl, hpos⟩ := runLength?_eq_some.mp h
  cases text with
  | nil => cases hpos
  | cons c more =>
    refine ⟨c, more, rfl, ?_⟩
    rw [← Bool.not_eq_false]
    intro hc
    simp [runLength, hc] at hpos

theorem exists_runLength? (text : List Char) (hc : p c = true) :
    ∃ n, runLength? p (c :: text) = some n :=
  ⟨_, runLength?_eq_some.mpr ⟨rfl, by simp [runLength, hc]⟩⟩

theorem drop_append_of_drop {more : List Char} (hdrop : text.drop n = c :: more) :
    (text ++ rest).drop n = c :: (more ++ rest) := by
  have hlt : n < text.length := by
    rw [← Nat.not_le]
    intro hle
    rw [List.drop_eq_nil_of_le hle] at hdrop
    cases hdrop
  rw [List.drop_append_of_le_length (Nat.le_of_lt hlt), hdrop, List.cons_append]

/-- A run that ends inside a text ends there with more text behind it. -/
theorem runLength_append_of_drop {more : List Char} (hrun : runLength p text = n)
    (hdrop : text.drop n = c :: more) : runLength p (text ++ rest) = n := by
  rw [← hrun] at hdrop ⊢
  apply runLength_append_of_not_all
  rw [← Bool.not_eq_true]
  intro hall
  rw [runLength_of_all hall, List.drop_length] at hdrop
  cases hdrop

theorem runLength?_append_of_drop {more : List Char} (hrun : runLength? p text = some n)
    (hdrop : text.drop n = c :: more) : runLength? p (text ++ rest) = some n := by
  obtain ⟨hrun, hpos⟩ := runLength?_eq_some.mp hrun
  exact runLength?_eq_some.mpr ⟨runLength_append_of_drop hrun hdrop, hpos⟩

end Runs

section Stops

variable {text rest : List Char}

theorem runLength_isWordChar_append (hrest : Ends rest) :
    runLength isWordChar (text ++ rest) = runLength isWordChar text :=
  runLength_append_of_head fun c hc ↦ isWordChar_of_isStop (hrest c hc)

theorem runLength_isDecimal_append (text : List Char) (hrest : Ends rest) :
    runLength isDecimal (text ++ rest) = runLength isDecimal text :=
  runLength_append_of_head fun c hc ↦ isDecimal_of_isStop (hrest c hc)

theorem runLength?_isWordChar_append (hrest : Ends rest) :
    runLength? isWordChar (text ++ rest) = runLength? isWordChar text :=
  runLength?_congr (runLength_isWordChar_append hrest)

/-- Behind the end of a word stands no character but a stop. -/
theorem head?_drop_append_of_ne (hc : isStop c = false) (hrest : Ends rest) (hn : n ≤ text.length) :
    ((text ++ rest).drop n).head? = some c ↔ (text.drop n).head? = some c := by
  rw [List.drop_append_of_le_length hn]
  cases hdrop : text.drop n with
  | cons d tail => simp
  | nil =>
    simp only [List.nil_append, List.head?_nil, reduceCtorEq, iff_false]
    intro hhead
    have := hrest c (by simp [hhead])
    simp [hc] at this

theorem Ends.ne_of_cons {d : Char} (hrest : Ends (d :: rest)) (hc : isStop c = false) : d ≠ c := by
  rintro rfl
  simp [hc] at hrest

end Stops

/-! ### Keyword phrases -/

section Phrases

variable {word rest : List Char}

theorem spelledLength?_append (word : List Char) {letters : List Char}
    (hletters : letters.all isKeywordLetter = true) (hrest : Ends rest) :
    spelledLength? letters (word ++ rest) = spelledLength? letters word := by
  induction letters generalizing word with
  | nil => simp [spelledLength?]
  | cons letter letters ih =>
    simp only [List.all_cons, Bool.and_eq_true] at hletters
    cases word with
    | cons c word =>
      simp only [List.cons_append, spelledLength?]
      rw [ih _ hletters.2]
    | nil =>
      cases rest with
      | nil => rfl
      | cons c rest =>
        have hc : spells letter c = false := by
          rw [← Bool.not_eq_true]
          intro hspells
          have hword := isWordChar_of_spells hletters.1 hspells
          simp [isWordChar_of_isStop (ends_cons.mp hrest)] at hword
        simp [spelledLength?, hc]

theorem length_of_spelledLength? {letters : List Char} (h : spelledLength? letters text = some n) :
    n = letters.length ∧ n ≤ text.length := by
  induction letters generalizing text n with
  | nil =>
    simp only [spelledLength?, Option.some.injEq] at h
    simp [← h]
  | cons letter letters ih =>
    cases text with
    | nil => simp [spelledLength?] at h
    | cons c text =>
      simp only [spelledLength?] at h
      split at h
      · obtain ⟨m, hm, rfl⟩ := Option.map_eq_some_iff.mp h
        have := ih hm
        simp [this.1 ▸ this.2, this.1]
      · simp at h

/-- Whether a word is made of the letters that keywords are spelled with. -/
def isKeyword (word : String) : Bool :=
  word.toList.all isKeywordLetter && !word.toList.isEmpty

theorem letters_of_isKeyword {word : String} (h : isKeyword word = true) :
    word.toList.all isKeywordLetter = true := by
  simp only [isKeyword, Bool.and_eq_true] at h
  exact h.1

theorem spelledLength?_pos {keyword : String} (hkeyword : isKeyword keyword = true)
    (h : spelledLength? keyword.toList text = some n) : 0 < n := by
  simp only [isKeyword, Bool.and_eq_true, Bool.not_eq_true', List.isEmpty_eq_false_iff] at hkeyword
  rw [(length_of_spelledLength? h).1]
  exact List.length_pos_iff.mpr hkeyword.2

theorem phraseLength?_cons_cons (first next : String) (words : List String) (text : List Char) :
    phraseLength? (first :: next :: words) text =
      (spelledLength? first.toList text).bind fun head ↦
        (runLength? isBlank (text.drop head)).bind fun gap ↦
          (phraseLength? (next :: words) (text.drop (head + gap))).map (head + gap + ·) := by
  simp only [phraseLength?, Option.bind_eq_bind, Option.pure_def, Option.map_eq_bind]
  rfl

/-- A phrase is found as its first word, a gap and the phrase of the other words. -/
theorem phraseLength?_eq_some {next : String} : phraseLength? (first :: next :: words) text = some n ↔
      ∃ head gap tail, spelledLength? first.toList text = some head ∧
        runLength? isBlank (text.drop head) = some gap ∧
        phraseLength? (next :: words) (text.drop (head + gap)) = some tail ∧
        n = head + gap + tail := by
  simp only [phraseLength?_cons_cons, Option.bind_eq_some_iff, Option.map_eq_some_iff]
  constructor
  · rintro ⟨head, hhead, gap, hgap, tail, htail, rfl⟩
    exact ⟨head, gap, tail, hhead, hgap, htail, rfl⟩
  · rintro ⟨head, gap, tail, hhead, hgap, htail, rfl⟩
    exact ⟨head, hhead, gap, hgap, tail, htail, rfl⟩

theorem exists_spelledLength?_of_phrase (h : phraseLength? (first :: words) text = some n) :
    ∃ m, spelledLength? first.toList text = some m := by
  cases words with
  | nil => exact ⟨n, h⟩
  | cons next words =>
    obtain ⟨head, -, -, hhead, -⟩ := phraseLength?_eq_some.mp h
    exact ⟨head, hhead⟩

/-- A phrase starts with a character that spells its first letter. -/
theorem exists_cons_of_phrase (hwords : words.all isKeyword = true) (hne : words ≠ [])
    (h : phraseLength? words text = some n) :
    ∃ letter c more, words.head?.bind (·.toList.head?) = some letter ∧ text = c :: more ∧
      isKeywordLetter letter = true ∧ spells letter c = true := by
  cases words with
  | nil => exact absurd rfl hne
  | cons first words =>
    obtain ⟨m, hm⟩ := exists_spelledLength?_of_phrase h
    simp only [List.all_cons, Bool.and_eq_true] at hwords
    have hpos := spelledLength?_pos hwords.1 hm
    have hletters := letters_of_isKeyword hwords.1
    simp only [List.head?_cons, Option.bind_some]
    cases hlist : first.toList with
    | nil =>
      rw [hlist] at hm
      cases hm
      omega
    | cons letter letters =>
      rw [hlist] at hm hletters
      simp only [List.all_cons, Bool.and_eq_true] at hletters
      cases text with
      | nil => cases hm
      | cons c more =>
        rw [spelledLength?, Option.ite_none_right_eq_some] at hm
        exact ⟨letter, c, more, rfl, rfl, hletters.1, hm.1⟩

/-- A phrase is not found where no word starts. -/
theorem phraseLength?_eq_none (hwords : words.all isKeyword = true) (hne : words ≠ [])
    (htext : ∀ c ∈ text.head?, isWordChar c = false) : phraseLength? words text = none := by
  cases h : phraseLength? words text with
  | none => rfl
  | some n =>
    obtain ⟨letter, c, more, -, rfl, hletter, hspells⟩ := exists_cons_of_phrase hwords hne h
    have hc := isWordChar_of_spells hletter hspells
    simp [htext c rfl] at hc

theorem phraseLength?_pos (hfirst : isKeyword first = true)
    (h : phraseLength? (first :: words) text = some n) :
    0 < n := by
  cases words with
  | nil => exact spelledLength?_pos hfirst h
  | cons next words =>
    obtain ⟨head, gap, tail, hhead, -, -, rfl⟩ := phraseLength?_eq_some.mp h
    have := spelledLength?_pos hfirst hhead
    omega

theorem phraseLength?_le (h : phraseLength? words text = some n) : n ≤ text.length := by
  induction words generalizing text n with
  | nil =>
    simp only [phraseLength?, Option.some.injEq] at h
    omega
  | cons first words ih =>
    cases words with
    | nil => exact (length_of_spelledLength? (by simpa [phraseLength?] using h)).2
    | cons next words =>
      obtain ⟨head, gap, tail, hhead, hgap, htail, rfl⟩ := phraseLength?_eq_some.mp h
      have hhead' := (length_of_spelledLength? hhead).2
      have hgap' : gap ≤ (text.drop head).length :=
        (runLength?_eq_some.mp hgap).1 ▸ runLength_le
      have htail' := ih htail
      simp only [List.length_drop] at hgap' htail'
      omega

/-- Where text follows a word, the keywords of a phrase behind the first stand behind the word or go on
inside it. -/
theorem phraseLength?_append_eq_some {next : String} (hfirst : isKeyword first = true) (hrest : Ends rest) :
    phraseLength? (first :: next :: words) (word ++ rest) = some n ↔
      ∃ head tail, spelledLength? first.toList word = some head ∧
        ((word.drop head).all isBlank = true ∧ head < word.length + runLength isBlank rest ∧
            phraseLength? (next :: words) (rest.dropWhile isBlank) = some tail ∧
            n = word.length + runLength isBlank rest + tail ∨
          ∃ gap, runLength? isBlank (word.drop head) = some gap ∧ head + gap < word.length ∧
            phraseLength? (next :: words) (word.drop (head + gap) ++ rest) = some tail ∧
            n = head + gap + tail) := by
  rw [phraseLength?_eq_some, spelledLength?_append word (letters_of_isKeyword hfirst) hrest]
  constructor
  · rintro ⟨head, gap, tail, hhead, hgap, htail, rfl⟩
    refine ⟨head, tail, hhead, ?_⟩
    have hle : head ≤ word.length := (length_of_spelledLength? hhead).2
    rw [List.drop_append_of_le_length hle] at hgap
    obtain ⟨hrun, hpos⟩ := runLength?_eq_some.mp hgap
    cases hall : (word.drop head).all isBlank with
    | true =>
      rw [runLength_append_of_all _ hall, List.length_drop] at hrun
      have hend : head + gap = word.length + runLength isBlank rest := by omega
      rw [hend, drop_append_runLength] at htail
      exact .inl ⟨rfl, by omega, htail, by omega⟩
    | false =>
      rw [runLength_append_of_not_all _ hall] at hrun
      have hlt := runLength_lt_of_not_all hall
      rw [hrun, List.length_drop] at hlt
      rw [List.drop_append_of_le_length (by omega)] at htail
      exact .inr ⟨gap, runLength?_eq_some.mpr ⟨hrun, hpos⟩, by omega, htail, rfl⟩
  · rintro ⟨head, tail, hhead, ⟨hall, hlt, htail, rfl⟩ | ⟨gap, hgap, hlt, htail, rfl⟩⟩
    · have hle : head ≤ word.length := (length_of_spelledLength? hhead).2
      have hend : head + (word.length - head + runLength isBlank rest) =
          word.length + runLength isBlank rest := by omega
      refine ⟨head, word.length - head + runLength isBlank rest, tail, hhead, ?_, ?_, by omega⟩
      · rw [List.drop_append_of_le_length hle, runLength?_eq_some, runLength_append_of_all _ hall,
          List.length_drop]
        exact ⟨rfl, by omega⟩
      · rw [hend, drop_append_runLength, htail]
    · obtain ⟨hrun, hpos⟩ := runLength?_eq_some.mp hgap
      have hall : (word.drop head).all isBlank = false := by
        rw [← Bool.not_eq_true]
        intro hall
        rw [runLength_of_all hall, List.length_drop] at hrun
        omega
      refine ⟨head, gap, tail, hhead, ?_, ?_, rfl⟩
      · rw [List.drop_append_of_le_length (by omega), runLength?_congr (runLength_append_of_not_all _ hall),
          hgap]
      · rw [List.drop_append_of_le_length (by omega), htail]

theorem spelledLength?_append_of_some {letters : List Char} (h : spelledLength? letters word = some n) :
    spelledLength? letters (word ++ rest) = some n := by
  induction letters generalizing word n with
  | nil => simpa [spelledLength?] using h
  | cons letter letters ih =>
    cases word with
    | nil => cases h
    | cons c word =>
      simp only [spelledLength?, List.cons_append] at h ⊢
      split at h
      · rename_i hspells
        obtain ⟨m, hm, rfl⟩ := Option.map_eq_some_iff.mp h
        rw [if_pos hspells, ih hm, Option.map_some]
      · cases h

theorem phraseLength?_append_of_some (hwords : words.all isKeyword = true)
    (h : phraseLength? words word = some n) : phraseLength? words (word ++ rest) = some n := by
  induction words generalizing word n with
  | nil => exact h
  | cons first words ih =>
    simp only [List.all_cons, Bool.and_eq_true] at hwords
    cases words with
    | nil => exact spelledLength?_append_of_some h
    | cons next words =>
      obtain ⟨head, gap, tail, hhead, hgap, htail, rfl⟩ := phraseLength?_eq_some.mp h
      have hle : head ≤ word.length := (length_of_spelledLength? hhead).2
      cases hdrop : word.drop (head + gap) with
      | nil => 
          rw [hdrop, phraseLength?_eq_none hwords.2 (List.cons_ne_nil _ _) (by simp)] at htail
          cases htail
      | cons c more =>
        have hlt : head + gap ≤ word.length := by
          rw [← Nat.not_lt]
          intro hlt
          rw [List.drop_eq_nil_of_le (Nat.le_of_lt hlt)] at hdrop
          cases hdrop
        refine phraseLength?_eq_some.mpr
          ⟨head, gap, tail, spelledLength?_append_of_some hhead, ?_, ?_, rfl⟩
        · rw [List.drop_append_of_le_length hle]
          exact runLength?_append_of_drop hgap (by rw [List.drop_drop, hdrop])
        · rw [List.drop_append_of_le_length hlt]
          exact ih hwords.2 htail

/-- Whether a phrase that a text starts with is complete at its end, `none` if there is no phrase. -/
def phraseEnd? (words : List String) (text : List Char) : Option Bool :=
  (phraseLength? words text).map fun n ↦ atWordEnd (text.drop n)

theorem phraseEnd?_cons_cons (word next : String) (words : List String) (text : List Char) :
    phraseEnd? (word :: next :: words) text = (spelledLength? word.toList text).bind fun head ↦
      (runLength? isBlank (text.drop head)).bind fun gap ↦
        phraseEnd? (next :: words) (text.drop (head + gap)) := by
  rw [phraseEnd?, phraseLength?_cons_cons]
  cases spelledLength? word.toList text with
  | none => rfl
  | some head =>
    rw [Option.bind_some, Option.bind_some]
    cases runLength? isBlank (text.drop head) with
    | none => rfl
    | some gap =>
      rw [Option.bind_some, Option.bind_some, phraseEnd?, Option.map_map]
      congr 1
      funext n
      rw [Function.comp_apply, List.drop_drop]

theorem atWordEnd_of_ends (h : Ends rest) : atWordEnd rest = true := by
  cases rest with
  | nil => rfl
  | cons c rest => simp [atWordEnd, isWordChar_of_isStop (ends_cons.mp h)]

theorem atWordEnd_append {other : List Char} (hrest : Ends rest) (hother : Ends other) (word : List Char) :
    atWordEnd (word ++ rest) = atWordEnd (word ++ other) := by
  cases word with
  | nil => rw [List.nil_append, List.nil_append, atWordEnd_of_ends hrest, atWordEnd_of_ends hother]
  | cons c word => rfl

/-- No phrase starts with a stop. -/
theorem phraseEnd?_of_ends (hwords : words.all isKeyword = true) (hne : words ≠ []) (hrest : Ends rest) :
    phraseEnd? words rest = none := by
  cases words with
  | nil => exact absurd rfl hne
  | cons word words =>
    simp only [List.all_cons, Bool.and_eq_true] at hwords
    have hspelled : spelledLength? word.toList rest = none := by
      have happend := spelledLength?_append [] (letters_of_isKeyword hwords.1) hrest
      rw [List.nil_append] at happend
      rw [happend, ← Option.not_isSome_iff_eq_none, Option.isSome_iff_exists]
      rintro ⟨n, hn⟩
      have hpos := spelledLength?_pos hwords.1 hn
      have hle := (length_of_spelledLength? hn).2
      simp only [List.length_nil] at hle
      omega
    cases words with
    | nil => rw [phraseEnd?, phraseLength?, hspelled, Option.map_none]
    | cons next words => rw [phraseEnd?_cons_cons, hspelled, Option.bind_none]

/-- A gap that starts in a word goes on behind it. -/
theorem phraseEnd?_of_gap (hwords : words.all isKeyword = true) (hne : words ≠ []) {word : List Char}
    (hblank : word.all isBlank = true) (hrest : Ends rest) :
    ((runLength? isBlank (word ++ rest)).bind fun gap ↦ phraseEnd? words ((word ++ rest).drop gap)) =
      phraseEnd? words (rest.dropWhile isBlank) := by
  have hrun := runLength_append_of_all rest hblank
  cases hlength : runLength? isBlank (word ++ rest) with
  | some gap =>
    rw [Option.bind_some, ← (runLength?_eq_some.mp hlength).1, hrun, drop_append_runLength]
  | none =>
    -- Nothing but a stop stands there.
    have hzero : word.length + runLength isBlank rest = 0 := by
      rw [← hrun]
      unfold runLength? at hlength
      split at hlength
      · assumption
      · cases hlength
    have hdrop : rest.dropWhile isBlank = rest := by
      rw [← drop_runLength, show runLength isBlank rest = 0 by omega, List.drop_zero]
    rw [Option.bind_none, hdrop, phraseEnd?_of_ends hwords hne hrest]

/-- What stands behind a word decides how a phrase runs on only by the phrases that start there. -/
theorem phraseEnd?_append_congr (hwords : words.all isKeyword = true) {other : List Char} (hrest : Ends rest)
    (hother : Ends other) (hnext : ∀ later : List String, later.all isKeyword = true → later ≠ [] →
      phraseEnd? later (rest.dropWhile isBlank) = phraseEnd? later (other.dropWhile isBlank))
    (word : List Char) : phraseEnd? words (word ++ rest) = phraseEnd? words (word ++ other) := by
  induction words generalizing word with
  | nil => simpa [phraseEnd?, phraseLength?] using atWordEnd_append hrest hother word
  | cons first words ih =>
    simp only [List.all_cons, Bool.and_eq_true] at hwords
    have hletters := letters_of_isKeyword hwords.1
    have hspelled := spelledLength?_append word hletters hrest
    have hspelled' := spelledLength?_append word hletters hother
    cases words with
    | nil =>
      simp only [phraseEnd?, phraseLength?, hspelled, hspelled']
      cases hn : spelledLength? first.toList word with
      | none => rfl
      | some n =>
        have hle := (length_of_spelledLength? hn).2
        rw [Option.map_some, Option.map_some, List.drop_append_of_le_length hle,
          List.drop_append_of_le_length hle, atWordEnd_append hrest hother]
    | cons next words =>
      rw [phraseEnd?_cons_cons, phraseEnd?_cons_cons, hspelled, hspelled']
      cases hhead : spelledLength? first.toList word with
      | none => rfl
      | some head =>
        have hle := (length_of_spelledLength? hhead).2
        simp only [Option.bind_some, ← List.drop_drop, List.drop_append_of_le_length hle]
        cases hall : (word.drop head).all isBlank with
        | true =>
          rw [phraseEnd?_of_gap hwords.2 (List.cons_ne_nil _ _) hall hrest,
            phraseEnd?_of_gap hwords.2 (List.cons_ne_nil _ _) hall hother]
          exact hnext _ hwords.2 (List.cons_ne_nil _ _)
        | false =>
          -- The gap ends inside the word, and the phrase goes on there.
          rw [runLength?_congr (runLength_append_of_not_all rest hall),
            runLength?_congr (runLength_append_of_not_all other hall)]
          cases hgap : runLength? isBlank (word.drop head) with
          | none => rfl
          | some gap =>
            have hlt := runLength_lt_of_not_all hall
            rw [(runLength?_eq_some.mp hgap).1] at hlt
            rw [Option.bind_some, Option.bind_some,
              List.drop_append_of_le_length (Nat.le_of_lt hlt),
              List.drop_append_of_le_length (Nat.le_of_lt hlt), ih hwords.2]

/-- The words of a phrase start in a word and end in what follows it. -/
def RunsPast (words : List String) (word rest : List Char) : Prop :=
  ∃ n, phraseLength? words (word ++ rest) = some n ∧ word.length < n

/-- A phrase that does not run past a word is found in the word alone. -/
theorem phraseLength?_append (hwords : words.all isKeyword = true) (hrest : Ends rest)
    (hpast : ¬RunsPast words word rest) : phraseLength? words (word ++ rest) = phraseLength? words word := by
  induction words generalizing word with
  | nil => simp [phraseLength?]
  | cons first words ih =>
    simp only [List.all_cons, Bool.and_eq_true] at hwords
    cases words with
    | nil => exact spelledLength?_append word (letters_of_isKeyword hwords.1) hrest
    | cons next words =>
      have happend : ∀ n, phraseLength? (first :: next :: words) (word ++ rest) = some n ↔ _ :=
        fun n ↦ phraseLength?_append_eq_some hwords.1 hrest
      -- Where the phrase goes on inside the word, it does not run past what is left of the word.
      have hinside : ∀ {head gap : Nat}, spelledLength? first.toList word = some head →
          runLength? isBlank (word.drop head) = some gap → head + gap < word.length →
          phraseLength? (next :: words) (word.drop (head + gap) ++ rest) =
            phraseLength? (next :: words) (word.drop (head + gap) ++ []) := by
        intro head gap hhead hgap hlt
        rw [List.append_nil]
        refine ih hwords.2 ?_
        rintro ⟨tail, htail, hlength⟩
        rw [List.length_drop] at hlength
        exact hpast ⟨_, (happend _).mpr ⟨head, tail, hhead, .inr ⟨gap, hgap, hlt, htail, rfl⟩⟩, by omega⟩
      rw [← List.append_nil word, List.append_assoc, List.nil_append]
      apply Option.ext
      intro n
      rw [happend, phraseLength?_append_eq_some hwords.1 ends_nil]
      constructor
      · rintro ⟨head, tail, hhead, hblank | ⟨gap, hgap, hlt, htail, hn⟩⟩
        · have hnext := hwords.2
          simp only [List.all_cons, Bool.and_eq_true] at hnext
          have hpos := phraseLength?_pos hnext.1 hblank.2.2.1
          exact absurd ⟨n, (happend n).mpr ⟨head, tail, hhead, .inl hblank⟩, by omega⟩ hpast
        · exact ⟨head, tail, hhead, .inr ⟨gap, hgap, hlt, hinside hhead hgap hlt ▸ htail, hn⟩⟩
      · rintro ⟨head, tail, hhead, ⟨-, -, htail, -⟩ | ⟨gap, hgap, hlt, htail, hn⟩⟩
        · rw [phraseLength?_eq_none hwords.2 (List.cons_ne_nil _ _) (by simp)] at htail
          cases htail
        · exact ⟨head, tail, hhead, .inr ⟨gap, hgap, hlt, (hinside hhead hgap hlt).trans htail, hn⟩⟩

/-- A phrase does not run past a word if none of its later keywords stands behind the word. -/
theorem not_runsPast_of_keywords (hwords : words.all isKeyword = true) (hrest : Ends rest)
    (hnone : ∀ keyword ∈ words.tail, spelledLength? keyword.toList (rest.dropWhile isBlank) = none) :
    ¬RunsPast words word rest := by
  rintro ⟨n, hn, hlt⟩
  induction words generalizing word n with
  | nil =>
    simp only [phraseLength?, Option.some.injEq] at hn
    omega
  | cons first words ih =>
    simp only [List.all_cons, Bool.and_eq_true] at hwords
    cases words with
    | nil =>
      have hspelled := spelledLength?_append word (letters_of_isKeyword hwords.1) hrest
      have hle := (length_of_spelledLength? (hspelled.symm.trans hn)).2
      omega
    | cons next words =>
      obtain ⟨head, tail, -, ⟨-, -, htail, -⟩ | ⟨gap, -, hgap, htail, rfl⟩⟩ :=
        (phraseLength?_append_eq_some hwords.1 hrest).mp hn
      · obtain ⟨m, hm⟩ := exists_spelledLength?_of_phrase htail
        rw [hnone next (by simp)] at hm
        cases hm
      · refine ih hwords.2 (fun keyword hkeyword ↦ hnone keyword (List.mem_of_mem_tail hkeyword)) tail
          htail ?_
        rw [List.length_drop]
        omega

end Phrases

/-! ### The other rules -/

section Rules

variable {word rest : List Char}

theorem unsignedLength?_append (word : List Char) (hrest : Ends rest) :
    unsignedLength? (word ++ rest) = unsignedLength? word := by
  have hrun := runLength?_congr (runLength_isDecimal_append word hrest)
  unfold unsignedLength?
  rw [hrun]
  cases hwhole : runLength? isDecimal word with
  | none => rfl
  | some whole =>
    have hle : whole ≤ word.length := (runLength?_eq_some.mp hwhole).1 ▸ runLength_le
    simp only [Option.bind_eq_bind, Option.bind_some, List.drop_append_of_le_length hle]
    cases hdrop : word.drop whole with
    | nil =>
      cases rest with
      | nil => rfl
      | cons c rest =>
        simp [hrest.ne_of_cons (c := '.') (by decide)]
    | cons d tail =>
      by_cases hd : d = '.'
      · subst hd
        simp [runLength_isDecimal_append _ hrest]
      · simp [hd]

theorem numberLength?_cons (c : Char) (text : List Char) :
    numberLength? (c :: text) =
      if c = '-' ∨ c = '+' then (unsignedLength? text).map (· + 1) else unsignedLength? (c :: text) := by
  unfold numberLength?
  split <;> simp_all

theorem numberLength?_append (hword : word ≠ []) (hrest : Ends rest) :
    numberLength? (word ++ rest) = numberLength? word := by
  cases word with
  | nil => exact absurd rfl hword
  | cons c word =>
    have happend := unsignedLength?_append (c :: word) hrest
    rw [List.cons_append] at happend ⊢
    rw [numberLength?_cons, numberLength?_cons, unsignedLength?_append _ hrest, happend]

theorem backtickLength?_append (hrest : Ends rest) :
    backtickLength? (word ++ rest) = backtickLength? word := by
  cases word with
  | nil =>
    cases rest with
    | nil => rfl
    | cons c rest =>
      simp [backtickLength?, hrest.ne_of_cons (c := '`') (by decide)]
  | cons c word =>
    by_cases hc : c = '`'
    · subst hc
      simp only [List.cons_append, backtickLength?]
      rw [runLength?_isWordChar_append hrest]
      cases hrun : runLength? isWordChar word with
      | none => rfl
      | some n =>
        have hle : n ≤ word.length := (runLength?_eq_some.mp hrun).1 ▸ runLength_le
        simp only [Option.bind_eq_bind, Option.bind_some]
        simp only [head?_drop_append_of_ne (c := '`') (by decide) hrest hle]
    · simp [backtickLength?, hc]

theorem backtickLength?_le (h : backtickLength? word = some n) : n ≤ word.length := by
  obtain ⟨inner, m, more, rfl, -, hmore, rfl⟩ := backtickLength?_eq_some.mp h
  have hlength := congrArg List.length hmore
  simp only [List.length_drop, List.length_cons] at hlength ⊢
  omega

theorem isPrefixOf_append {symbol : List Char} (hsymbol : symbol.all (!isStop ·) = true)
    (hrest : Ends rest) : symbol.isPrefixOf (word ++ rest) = symbol.isPrefixOf word := by
  induction symbol generalizing word with
  | nil => simp
  | cons c symbol ih =>
    simp only [List.all_cons, Bool.and_eq_true, Bool.not_eq_true'] at hsymbol
    cases word with
    | cons d word => simp [List.isPrefixOf, ih hsymbol.2]
    | nil =>
      cases rest with
      | nil => rfl
      | cons d rest => simp [List.isPrefixOf, (hrest.ne_of_cons hsymbol.1).symm]

def Rule.keywords : Rule → List String
  | .phrase words | .openPhrase words => words
  | _ => []

/-- The keywords of a rule are spelled with keyword letters, and no blank starts a symbol and no stop
stands further on in it. -/
def Rule.isRegular : Rule → Bool
  | .phrase words | .openPhrase words => !words.isEmpty && words.all isKeyword
  | .symbol text =>
    match text.toList with
    | [] => false
    | first :: others => !isBlank first && others.all (!isStop ·)
  | _ => true

theorem isRegular_of_mem_rules (h : rule ∈ rules) : rule.isRegular = true := by
  revert h rule
  decide

theorem keywords_of_isRegular (h : rule.isRegular = true) : rule.keywords.all isKeyword = true := by
  cases rule with
  | phrase words | openPhrase words =>
    simp only [Rule.isRegular, Bool.and_eq_true] at h
    exact h.2
  | _ => rfl

/-- A rule finds its keywords from a word on into what follows the word. -/
def Rule.RunsPast (rule : Rule) (word rest : List Char) : Prop :=
  rule.keywords ≠ [] ∧ ∃ n, rule.length? (word ++ rest) = some n ∧ word.length < n

theorem Rule.RunsPast.phrase (h : rule.RunsPast word rest) : Word.RunsPast rule.keywords word rest := by
  obtain ⟨hne, n, hn, hlt⟩ := h
  cases rule with
  | phrase words => exact ⟨n, (length?_phrase_eq_some.mp hn).1, hlt⟩
  | openPhrase words => exact ⟨n, hn, hlt⟩
  | _ => exact absurd rfl hne

/-- A rule does not run past a word if none of its later keywords stands behind the word. -/
theorem Rule.not_runsPast_of_keywords (hrule : rule.isRegular = true) (hrest : Ends rest)
    (hnone : ∀ keyword ∈ rule.keywords.tail,
      spelledLength? keyword.toList (rest.dropWhile isBlank) = none) : ¬rule.RunsPast word rest :=
  fun h ↦ Word.not_runsPast_of_keywords (keywords_of_isRegular hrule) hrest hnone h.phrase

/-- A rule does not run past a word unless a blank follows. -/
theorem Rule.not_runsPast_of_not_blank (hrule : rule.isRegular = true) (hrest : Ends (c :: rest))
    (hc : isBlank c = false) : ¬rule.RunsPast word (c :: rest) := by
  refine not_runsPast_of_keywords hrule hrest fun keyword hkeyword ↦ ?_
  rw [List.dropWhile_cons_of_neg (by simp [hc])]
  have hkeyword' : [keyword].all isKeyword = true := by
    simpa using List.all_eq_true.mp (keywords_of_isRegular hrule) keyword (List.mem_of_mem_tail hkeyword)
  exact phraseLength?_eq_none hkeyword' (List.cons_ne_nil _ _)
    (by simpa using isWordChar_of_isStop (ends_cons.mp hrest))

/-- The head of a call is found in a word alone unless a parenthesis follows the word. -/
theorem callHead_append (hrest : Ends rest)
    (hparen : (rest.dropWhile isBlank).head? ≠ some '(') :
    Rule.callHead.length? (word ++ rest) = Rule.callHead.length? word := by
  simp only [Rule.length?, runLength?_isWordChar_append hrest]
  cases hrun : runLength? isWordChar word with
  | none => rfl
  | some n =>
    have hle : n ≤ word.length := (runLength?_eq_some.mp hrun).1 ▸ runLength_le
    simp only [Option.bind_eq_bind, Option.bind_some, List.drop_append_of_le_length hle]
    by_cases hblank : (word.drop n).all isBlank = true
    · -- The gap goes on behind the word, where no parenthesis follows it.
      rw [runLength_append_of_all rest hblank, runLength_of_all hblank]
      have hdrop : (word ++ rest).drop (n + ((word.drop n).length + runLength isBlank rest)) =
          rest.dropWhile isBlank := by
        have hlen : n + ((word.drop n).length + runLength isBlank rest) =
            word.length + runLength isBlank rest := by
          rw [List.length_drop]
          omega
        rw [hlen, drop_append_runLength]
      have hdrop' : word.drop (n + (word.drop n).length) = [] := by
        rw [List.length_drop]
        exact List.drop_eq_nil_of_le (by omega)
      simp only [hdrop, hdrop', hparen, List.head?_nil, reduceCtorEq, if_false]
    · rw [Bool.not_eq_true] at hblank
      have hlt := runLength_lt_of_not_all hblank
      rw [List.length_drop] at hlt
      rw [runLength_append_of_not_all rest hblank, List.drop_append_of_le_length (by omega)]
      cases hdrop : word.drop (n + runLength isBlank (word.drop n)) with
      | nil =>
        rw [List.drop_eq_nil_iff] at hdrop
        omega
      | cons c tail => simp

/-- What follows the dot behind the first part of a name is in the word, or there is no dot. -/
theorem dotted_append {f : List Char → Option Nat} (hrest : Ends rest)
    (hf : ∀ tail, f (tail ++ rest) = f tail) (hle : n ≤ word.length) :
    (match (word ++ rest).drop n with
      | '.' :: tail => f tail
      | _ => none) =
    match word.drop n with
    | '.' :: tail => f tail
    | _ => none := by
  rw [List.drop_append_of_le_length hle]
  cases hdrop : word.drop n with
  | nil =>
    cases rest with
    | nil => rfl
    | cons c rest => simp [hrest.ne_of_cons (c := '.') (by decide)]
  | cons c tail =>
    by_cases hc : c = '.'
    · subst hc
      exact hf tail
    · simp [hc]

/-- A phrase that does not run past a word is found in the word alone, complete or not. -/
theorem Rule.length?_phrase_append (hrule : (Rule.phrase words).isRegular = true) (hrest : Ends rest)
    (hpast : ¬(Rule.phrase words).RunsPast word rest) :
    (Rule.phrase words).length? (word ++ rest) = (Rule.phrase words).length? word := by
  simp only [Rule.isRegular, Bool.and_eq_true, Bool.not_eq_true', List.isEmpty_eq_false_iff] at hrule
  by_cases hwords : Word.RunsPast words word rest
  · -- The phrase is not complete where it ends, and it is not found in the word.
    obtain ⟨n, hn, hlt⟩ := hwords
    have hend : ¬ atWordEnd ((word ++ rest).drop n) = true := fun hend ↦
      hpast ⟨hrule.1, n, length?_phrase_eq_some.mpr ⟨hn, hend⟩, hlt⟩
    have hnone : phraseLength? words word = none := by
      rw [Option.eq_none_iff_forall_ne_some]
      intro m hm
      have hle := phraseLength?_le hm
      rw [phraseLength?_append_of_some hrule.2 hm, Option.some.injEq] at hn
      omega
    simp [Rule.length?, hn, hend, hnone]
  · simp only [Rule.length?, phraseLength?_append hrule.2 hrest hwords]
    cases hphrase : phraseLength? words word with
    | none => rfl
    | some n =>
      have hle := phraseLength?_le hphrase
      simp only [Option.bind_eq_bind, Option.bind_some, List.drop_append_of_le_length hle]
      rw [atWordEnd_append hrest ends_nil, List.append_nil]

/-- A rule finds in a text what it finds in its first word, unless it is a phrase or a call that
runs on. -/
theorem Rule.length?_append (hrule : rule.isRegular = true) (hword : word ≠ [])
    (hpercent : word.head? ≠ some '%') (hrest : Ends rest) (hpast : ¬rule.RunsPast word rest)
    (hcall : rule = .callHead →
      Rule.callHead.length? (word ++ rest) = Rule.callHead.length? word) :
    rule.length? (word ++ rest) = rule.length? word := by
  cases rule with
  | phrase words => exact length?_phrase_append hrule hrest hpast
  | openPhrase words =>
    simp only [Rule.isRegular, Bool.and_eq_true, Bool.not_eq_true', List.isEmpty_eq_false_iff] at hrule
    exact phraseLength?_append hrule.2 hrest fun h ↦ hpast ⟨hrule.1, h⟩
  | symbol text =>
    cases htext : text.toList with
    | nil => simp [Rule.isRegular, htext] at hrule
    | cons first others =>
      cases word with
      | nil => exact absurd rfl hword
      | cons c word =>
        have hothers : others.all (!isStop ·) = true := by
          simp only [Rule.isRegular, htext, Bool.and_eq_true] at hrule
          exact hrule.2
        simp only [Rule.length?, htext, List.cons_append, List.isPrefixOf,
          isPrefixOf_append hothers hrest]
  | callHead => exact hcall rfl
  | number => exact numberLength?_append hword hrest
  | backtickPair =>
    simp only [Rule.length?, backtickLength?_append hrest]
    cases hlength : backtickLength? word with
    | none => rfl
    | some n =>
      exact dotted_append hrest (fun tail ↦ by rw [backtickLength?_append hrest])
        (backtickLength?_le hlength)
  | backtickName => exact backtickLength?_append hrest
  | dottedName =>
    simp only [Rule.length?, runLength?_isWordChar_append hrest]
    cases hrun : runLength? isWordChar word with
    | none => rfl
    | some n =>
      exact dotted_append hrest (fun tail ↦ by rw [runLength?_isWordChar_append hrest])
        ((runLength?_eq_some.mp hrun).1 ▸ runLength_le)
  | dottedStar =>
    simp only [Rule.length?, runLength?_isWordChar_append hrest]
    cases hrun : runLength? isWordChar word with
    | none => rfl
    | some n =>
      have hle : n ≤ word.length := (runLength?_eq_some.mp hrun).1 ▸ runLength_le
      simp only [Option.bind_eq_bind, Option.bind_some, List.drop_append_of_le_length hle]
      cases hdrop : word.drop n with
      | nil =>
        cases rest with
        | nil => rfl
        | cons c rest => simp [hrest.ne_of_cons (c := '.') (by decide)]
      | cons c tail =>
        by_cases hc : c = '.'
        · subst hc
          cases tail with
          | cons d tail => by_cases hd : d = '*' <;> simp [hd]
          | nil =>
            cases rest with
            | nil => rfl
            | cons d rest => simp [hrest.ne_of_cons (c := '*') (by decide)]
        · simp [hc]
  | name => exact runLength?_isWordChar_append hrest
  | namedPlaceholder =>
    cases word with
    | nil => exact absurd rfl hword
    | cons c word =>
      have hc : c ≠ '%' := by simpa using hpercent
      simp [Rule.length?, hc]
  | placeholder =>
    cases word with
    | nil => exact absurd rfl hword
    | cons c word =>
      have hc : c ≠ '%' := by simpa using hpercent
      simp [Rule.length?, hc]

end Rules

end SqlLayout.Word
