import SqlLayout.Proofs.Words.LetterCase

/-!
# The letters of keywords

Few characters spell a keyword: the letters of ASCII in either case, the underscore and four others that
are taken for an i, a k or an s.  A text whose upper case is the name of a keyword spells the keyword.
-/

namespace SqlLayout.Word

open Text

def keywordLetters : List Char :=
  "abcdefghijklmnopqrstuvwxyz_".toList

def keywordChars : List Char :=
  capitals ++ keywordLetters ++ ['ſ', 'ı', 'İ', Char.ofNat 0x212A]

section Letters

variable {letter other c : Char}

theorem mem_keywordLetters (h : isKeywordLetter letter = true) : letter ∈ keywordLetters := by
  have hall : ∀ n, n < 26 → Char.ofNat (0x61 + n) ∈ keywordLetters := by decide
  simp only [isKeywordLetter, Bool.or_eq_true, beq_iff_eq] at h
  rcases h with hlower | rfl
  · obtain ⟨hlow, hhigh⟩ := isLower_iff.mp hlower
    have hletter := hall (letter.toNat - 0x61) (by omega)
    rwa [show 0x61 + (letter.toNat - 0x61) = letter.toNat by omega, Char.ofNat_toNat] at hletter
  · decide

theorem mem_keywordChars (hletter : isKeywordLetter letter = true) (h : spells letter c = true) :
    c ∈ keywordChars := by
  simp only [keywordChars, List.mem_append]
  simp only [spells, Bool.or_eq_true, Bool.and_eq_true, beq_iff_eq] at h
  rcases h with ((hlower | ⟨-, rfl⟩) | ⟨-, rfl | rfl⟩) | ⟨-, hkelvin⟩
  · left
    by_cases hc : c.isUpper = true
    · exact .inl (mem_capitals hc)
    · have hsame : c.toLower = c := by
        unfold Char.toLower
        exact dif_neg fun hupper ↦ hc (decide_eq_true hupper)
      rw [← hsame, hlower]
      exact .inr (mem_keywordLetters hletter)
  · decide
  · decide
  · decide
  · right
    rw [← hkelvin, Char.ofNat_toNat]
    simp

theorem forall_keywordChars {motive : Char → Prop} [DecidablePred motive]
    (h : keywordChars.all (motive ·) = true) (hletter : isKeywordLetter letter = true)
    (hc : spells letter c = true) : motive c := by
  have hall : ∀ c ∈ keywordChars, motive c := by simpa using h
  exact hall c (mem_keywordChars hletter hc)

theorem isDecimal_of_spells (hletter : isKeywordLetter letter = true) (h : spells letter c = true) :
    isDecimal c = false :=
  forall_keywordChars (motive := fun c ↦ isDecimal c = false) (by decide +kernel) hletter h

/-- A character spells one letter at most. -/
theorem eq_of_spells (hletter : isKeywordLetter letter = true) (hother : isKeywordLetter other = true)
    (h : spells letter c = true) (h' : spells other c = true) : letter = other := by
  have hone : (keywordLetters.filter (spells · c)).length ≤ 1 :=
    forall_keywordChars (motive := fun c ↦ (keywordLetters.filter (spells · c)).length ≤ 1)
      (by decide +kernel) hletter h
  have hmem : letter ∈ keywordLetters.filter (spells · c) :=
    List.mem_filter.mpr ⟨mem_keywordLetters hletter, h⟩
  have hmem' : other ∈ keywordLetters.filter (spells · c) :=
    List.mem_filter.mpr ⟨mem_keywordLetters hother, h'⟩
  cases hfound : keywordLetters.filter (spells · c) with
  | nil => simp [hfound] at hmem
  | cons first more =>
    rw [hfound] at hone hmem hmem'
    obtain rfl : more = [] := by
      apply List.eq_nil_of_length_eq_zero
      simp only [List.length_cons] at hone
      omega
    rw [List.mem_singleton.mp hmem, List.mem_singleton.mp hmem']

/-- A character has one upper case, which it spells if that is a letter of ASCII, or several. -/
theorem upperChar_cases (c : Char) :
    (∃ d, upperChar c = [d] ∧ (d.isUpper = true → spells d.toLower c = true)) ∨
      ∃ entry ∈ upperExpansions, upperChar c = entry.2.map Char.ofNat := by
  unfold upperChar
  cases hruns : upperByRuns c.toNat upperRuns with
  | some m =>
    left
    refine ⟨Char.ofNat m, rfl, fun hupper ↦ ?_⟩
    have hall : (upperRuns.all fun run ↦ run.points.all fun n ↦
        ((n + run.offset).toNat.blt 0x41 || Nat.blt 0x5A (n + run.offset).toNat ||
          spells (Char.ofNat (n + run.offset).toNat).toLower (Char.ofNat n))) = true := by
      decide +kernel
    obtain ⟨run, hrun, hpoint, rfl⟩ := exists_run_of_upperByRuns hruns
    have hspells := List.all_eq_true.mp (List.all_eq_true.mp hall run hrun) _ hpoint
    simp only [Bool.or_eq_true, Nat.blt_eq, Char.ofNat_toNat] at hspells
    obtain ⟨hlow, hhigh⟩ := isUpper_iff.mp hupper
    have hpoint : (Char.ofNat (c.toNat + run.offset).toNat).toNat = (c.toNat + run.offset).toNat := by
      by_cases hvalid : (c.toNat + run.offset).toNat.isValidChar
      · rw [Char.ofNat, dif_pos hvalid]
        rfl
      · simp [Char.ofNat, hvalid] at hlow
    rw [hpoint] at hlow hhigh
    rcases hspells with (hout | hout) | hspells
    · omega
    · omega
    · exact hspells
  | none =>
    cases hexp : upperByExpansions c.toNat upperExpansions with
    | some expansion => exact .inr ⟨_, mem_of_upperByExpansions hexp, rfl⟩
    | none => exact .inl ⟨c, rfl, fun _ ↦ by simp [spells]⟩

end Letters

/-! ### Texts that spell keywords -/

/-- Whether several characters of a text may together be the upper case of one. -/
def hasExpansion : List Char → Bool
  | [] => false
  | c :: rest =>
    upperExpansions.any (fun entry ↦ (entry.2.map Char.ofNat).isPrefixOf (c :: rest)) || hasExpansion rest

/-- A text whose upper case is a name in capitals spells the name. -/
theorem spelledLength?_of_upper {text name : List Char} (hname : name.all Char.isUpper = true)
    (hexpansion : hasExpansion name = false) (h : text.flatMap upperChar = name) (rest : List Char) :
    spelledLength? (name.map Char.toLower) (text ++ rest) = some name.length ∧
      text.length = name.length := by
  induction text generalizing name with
  | nil =>
    subst h
    exact ⟨rfl, rfl⟩
  | cons c text ih =>
    rw [List.flatMap_cons] at h
    rcases upperChar_cases c with ⟨d, hd, hspells⟩ | ⟨entry, hentry, hc⟩
    · rw [hd, List.singleton_append] at h
      subst h
      simp only [List.all_cons, Bool.and_eq_true] at hname
      simp only [hasExpansion, Bool.or_eq_false_iff] at hexpansion
      obtain ⟨hspelled, hlength⟩ := ih hname.2 hexpansion.2 rfl
      simp only [List.map_cons, List.cons_append, spelledLength?, hspells hname.1, if_true, hspelled,
        Option.map_some, List.length_cons, hlength, and_self]
    · exfalso
      cases hname' : name with
      | nil =>
        rw [hname', List.append_eq_nil_iff] at h
        exact upperChar_ne_nil c h.1
      | cons d more =>
        rw [hname', hasExpansion, Bool.or_eq_false_iff, ← hname', ← h, hc] at hexpansion
        have hany := List.any_eq_false.mp hexpansion.1 entry hentry
        rw [List.isPrefixOf_iff_prefix] at hany
        exact hany (List.prefix_append _ _)

end SqlLayout.Word
