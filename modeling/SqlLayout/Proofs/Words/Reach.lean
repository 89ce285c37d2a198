import SqlLayout.Proofs.Words.Seams

/-!
# The characters of a word

A word that a rule finds is there as a whole, and it consists of word characters, blanks and a few marks.
So it holds no character of any other class: no rule reaches into quoted text.
-/

namespace SqlLayout.Word

open Text

/-- A text has at least `n` characters, and its first `n` are all of a class. -/
def Reaches (p : Char → Bool) (text : List Char) (n : Nat) : Prop :=
  n ≤ text.length ∧ (text.take n).all p = true

structure Covers (p : Char → Bool) : Prop where
  word : ∀ {c}, isWordChar c = true → p c = true
  blank : ∀ {c}, isBlank c = true → p c = true
  mark : ∀ c ∈ ['.', '`', '+', '-', '*'], p c = true

/-- The keywords of a rule are spelled with keyword letters, and its symbol, its parentheses and its percent
sign are of a class. -/
def Rule.isSpelledIn (p : Char → Bool) : Rule → Bool
  | .phrase words | .openPhrase words => words.all isKeyword
  | .symbol text => text.toList.all p
  | .callHead => p '('
  | .namedPlaceholder => ['%', '(', ')'].all p
  | .placeholder => p '%'
  | _ => true

section Reaches

variable {p q : Char → Bool} {text rest : List Char} {c : Char} {n m : Nat}

theorem reaches_zero : Reaches p text 0 := ⟨Nat.zero_le _, by simp⟩

theorem Reaches.add (h : Reaches p text n) (hmore : Reaches p (text.drop n) m) :
    Reaches p text (n + m) := by
  have hle := hmore.1
  rw [List.length_drop] at hle
  have hn := h.1
  refine ⟨by omega, ?_⟩
  rw [List.take_add, List.all_append, h.2, hmore.2, Bool.and_self]

theorem reaches_cons (hc : p c = true) (h : Reaches p rest n) : Reaches p (c :: rest) (n + 1) :=
  ⟨Nat.succ_le_succ h.1, by simpa [hc] using h.2⟩

theorem take_runLength : text.take (runLength q text) = text.takeWhile q := by
  have h : (text.takeWhile q ++ text.dropWhile q).take (runLength q text) = text.takeWhile q :=
    List.take_left
  rwa [List.takeWhile_append_dropWhile] at h

theorem reaches_runLength (h : ∀ {c}, q c = true → p c = true) : Reaches p text (runLength q text) := by
  refine ⟨runLength_le, ?_⟩
  rw [take_runLength, List.all_eq_true]
  intro c hc
  exact h (List.all_eq_true.mp List.all_takeWhile c hc)

theorem reaches_runLength? (h : ∀ {c}, q c = true → p c = true) (hrun : runLength? q text = some n) :
    Reaches p text n :=
  (runLength?_eq_some.mp hrun).1 ▸ reaches_runLength h

theorem reaches_spelledLength? (hp : Covers p) {letters : List Char}
    (hletters : letters.all isKeywordLetter = true) (h : spelledLength? letters text = some n) :
    Reaches p text n := by
  induction letters generalizing text n with
  | nil =>
    obtain rfl : 0 = n := by simpa [spelledLength?] using h
    exact reaches_zero
  | cons letter letters ih =>
    simp only [List.all_cons, Bool.and_eq_true] at hletters
    cases text with
    | nil => cases h
    | cons c text =>
      rw [spelledLength?] at h
      split at h
      · rename_i hspells
        obtain ⟨m, hm, rfl⟩ := Option.map_eq_some_iff.mp h
        exact reaches_cons (hp.word (isWordChar_of_spells hletters.1 hspells)) (ih hletters.2 hm)
      · cases h

theorem reaches_phraseLength? (hp : Covers p) {words : List String}
    (hwords : words.all isKeyword = true) (h : phraseLength? words text = some n) :
    Reaches p text n := by
  induction words generalizing text n with
  | nil =>
    obtain rfl : 0 = n := by simpa [phraseLength?] using h
    exact reaches_zero
  | cons first words ih =>
    simp only [List.all_cons, Bool.and_eq_true] at hwords
    have hletters := letters_of_isKeyword hwords.1
    cases words with
    | nil => exact reaches_spelledLength? hp hletters (by simpa [phraseLength?] using h)
    | cons next words =>
      obtain ⟨head, gap, tail, hhead, hgap, htail, rfl⟩ := phraseLength?_eq_some.mp h
      rw [← List.drop_drop] at htail
      have hrest := (reaches_runLength? hp.blank hgap).add (ih hwords.2 htail)
      rw [Nat.add_assoc]
      exact (reaches_spelledLength? hp hletters hhead).add hrest

/-- A point and what a rule finds behind it. -/
theorem Reaches.add_point (hp : Covers p) (h : Reaches p text n) (hdrop : text.drop n = '.' :: rest)
    (hrest : Reaches p rest m) : Reaches p text (n + 1 + m) := by
  rw [Nat.add_assoc]
  apply h.add
  rw [hdrop, Nat.add_comm]
  exact reaches_cons (hp.mark _ (by simp)) hrest

theorem reaches_backtickLength? (hp : Covers p) (h : backtickLength? text = some n) :
    Reaches p text n := by
  obtain ⟨inner, m, more, rfl, hm, hmore, rfl⟩ := backtickLength?_eq_some.mp h
  refine reaches_cons (hp.mark _ (by simp)) ((reaches_runLength? hp.word hm).add ?_)
  rw [hmore]
  exact reaches_cons (hp.mark _ (by simp)) reaches_zero

theorem reaches_unsignedLength? (hp : Covers p) (h : unsignedLength? text = some n) :
    Reaches p text n := by
  have hdecimal : ∀ {c}, isDecimal c = true → p c = true := fun hc ↦
    hp.word (isWordChar_of_isDecimal hc)
  obtain ⟨whole, hwhole, h⟩ := unsignedLength?_eq_some.mp h
  have hfirst := reaches_runLength? hdecimal hwhole
  rcases h with ⟨fraction, hdrop, rfl⟩ | ⟨-, rfl⟩
  · exact hfirst.add_point hp hdrop (reaches_runLength hdecimal)
  · exact hfirst

theorem reaches_numberLength? (hp : Covers p) (h : numberLength? text = some n) :
    Reaches p text n := by
  unfold numberLength? at h
  split at h
  · obtain ⟨m, hm, rfl⟩ := Option.map_eq_some_iff.mp h
    exact reaches_cons (hp.mark _ (by simp)) (reaches_unsignedLength? hp hm)
  · obtain ⟨m, hm, rfl⟩ := Option.map_eq_some_iff.mp h
    exact reaches_cons (hp.mark _ (by simp)) (reaches_unsignedLength? hp hm)
  · exact reaches_unsignedLength? hp h

/-- A rule reaches as far as the word that it finds. -/
theorem Rule.reaches {rule : Rule} (hp : Covers p) (hrule : rule.isSpelledIn p = true)
    (h : rule.length? text = some n) : Reaches p text n := by
  cases rule with
  | phrase words => exact reaches_phraseLength? hp hrule (length?_phrase_eq_some.mp h).1
  | openPhrase words => exact reaches_phraseLength? hp hrule h
  | symbol s =>
    obtain ⟨⟨more, rfl⟩, rfl⟩ := length?_symbol_eq_some.mp h
    refine ⟨by simp, ?_⟩
    rw [List.take_left]
    exact hrule
  | callHead =>
    obtain ⟨m, more, hm, hmore, rfl⟩ := length?_callHead_eq_some.mp h
    refine ((reaches_runLength? hp.word hm).add (reaches_runLength hp.blank)).add ?_
    rw [hmore]
    exact reaches_cons hrule reaches_zero
  | number => exact reaches_numberLength? hp h
  | backtickPair =>
    obtain ⟨m, k, more, hm, hdrop, hk, rfl⟩ := length?_backtickPair_eq_some.mp h
    exact (reaches_backtickLength? hp hm).add_point hp hdrop (reaches_backtickLength? hp hk)
  | backtickName => exact reaches_backtickLength? hp h
  | dottedName =>
    obtain ⟨m, k, more, hm, hdrop, hk, rfl⟩ := length?_dottedName_eq_some.mp h
    exact (reaches_runLength? hp.word hm).add_point hp hdrop (reaches_runLength? hp.word hk)
  | dottedStar =>
    obtain ⟨m, more, hm, hdrop, rfl⟩ := length?_dottedStar_eq_some.mp h
    exact (reaches_runLength? hp.word hm).add_point hp hdrop
      (reaches_cons (hp.mark _ (by simp)) reaches_zero)
  | name => exact reaches_runLength? hp.word h
  | namedPlaceholder =>
    have hmarks := List.all_eq_true.mp hrule
    obtain ⟨inner, m, c, more, rfl, hm, hdrop, hspells, rfl⟩ := length?_namedPlaceholder_eq_some.mp h
    have hc : p c = true := hp.word (isWordChar_of_spells (by decide) hspells)
    have htail : Reaches p inner (m + 2) := by
      apply (reaches_runLength? hp.word hm).add
      rw [hdrop]
      exact reaches_cons (hmarks _ (by simp)) (reaches_cons hc reaches_zero)
    exact reaches_cons (hmarks _ (by simp)) (reaches_cons (hmarks _ (by simp)) htail)
  | placeholder =>
    obtain ⟨c, more, rfl, hspells, rfl⟩ := length?_placeholder_eq_some.mp h
    have hc := hp.word (isWordChar_of_spells (by decide) hspells)
    exact reaches_cons hrule (reaches_cons hc reaches_zero)

/-! ### Words lie in their text -/

theorem runLength?_le (h : runLength? p text = some n) : n ≤ text.length :=
  (runLength?_eq_some.mp h).1 ▸ runLength_le

theorem Rule.length?_le {rule : Rule} (hrule : rule.isRegular = true)
    (h : rule.length? text = some n) : n ≤ text.length := by
  have hcovers : Covers fun _ ↦ true := ⟨fun _ ↦ rfl, fun _ ↦ rfl, fun _ _ ↦ rfl⟩
  refine (Rule.reaches hcovers ?_ h).1
  cases rule with
  | phrase words | openPhrase words => exact keywords_of_isRegular hrule
  | symbol text => simp [Rule.isSpelledIn]
  | _ => rfl

theorem backtickLength?_pos (h : backtickLength? text = some n) : 0 < n := by
  obtain ⟨-, m, -, -, -, -, rfl⟩ := backtickLength?_eq_some.mp h
  omega

theorem unsignedLength?_pos (h : unsignedLength? text = some n) : 0 < n := by
  obtain ⟨whole, hwhole, ⟨fraction, -, rfl⟩ | ⟨-, rfl⟩⟩ := unsignedLength?_eq_some.mp h
  · omega
  · exact (runLength?_eq_some.mp hwhole).2

theorem Rule.length?_pos {rule : Rule} (hrule : rule.isRegular = true)
    (h : rule.length? text = some n) : 0 < n := by
  have hphrase : ∀ {words : List String} {k : Nat}, (!words.isEmpty && words.all isKeyword) = true →
      phraseLength? words text = some k → 0 < k := by
    intro words k hwords hk
    cases words with
    | nil => cases hwords
    | cons first words =>
      simp only [List.all_cons, Bool.and_eq_true] at hwords
      exact phraseLength?_pos hwords.2.1 hk
  cases rule with
  | phrase words => exact hphrase hrule (length?_phrase_eq_some.mp h).1
  | openPhrase words => exact hphrase hrule h
  | symbol s =>
    obtain ⟨-, rfl⟩ := length?_symbol_eq_some.mp h
    cases hs : s.toList with
    | nil => simp [Rule.isRegular, hs] at hrule
    | cons c others => simp
  | number =>
    simp only [Rule.length?, numberLength?] at h
    split at h
    · obtain ⟨m, -, rfl⟩ := Option.map_eq_some_iff.mp h
      omega
    · obtain ⟨m, -, rfl⟩ := Option.map_eq_some_iff.mp h
      omega
    · exact unsignedLength?_pos h
  | name => exact (runLength?_eq_some.mp h).2
  | backtickName => exact backtickLength?_pos h
  | callHead =>
    obtain ⟨m, -, -, -, rfl⟩ := length?_callHead_eq_some.mp h
    omega
  | dottedStar =>
    obtain ⟨m, -, -, -, rfl⟩ := length?_dottedStar_eq_some.mp h
    omega
  | backtickPair =>
    obtain ⟨m, k, -, -, -, -, rfl⟩ := length?_backtickPair_eq_some.mp h
    omega
  | dottedName =>
    obtain ⟨m, k, -, -, -, -, rfl⟩ := length?_dottedName_eq_some.mp h
    omega
  | namedPlaceholder =>
    obtain ⟨-, m, -, -, -, -, -, -, rfl⟩ := length?_namedPlaceholder_eq_some.mp h
    omega
  | placeholder =>
    obtain ⟨-, -, -, -, rfl⟩ := length?_placeholder_eq_some.mp h
    omega

end Reaches

end SqlLayout.Word
