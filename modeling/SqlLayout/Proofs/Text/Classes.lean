import SqlLayout.Text.Blank
import SqlLayout.Text.Digit
import SqlLayout.Word

/-!
# How the classes of characters lie to each other

Decimal digits are word characters and blanks are not.  Stops are the characters that end any word in
front of them: blanks, parentheses, the comma and the semicolon.
-/

namespace SqlLayout.Text

variable {c : Char}

/-- Ranges that each lie in one of a second list lie in that list. -/
theorem Ranges.has_of_within {xs ys : Ranges} (hxs : xs.Sorted) (hys : ys.Sorted)
    (h : (xs.all fun x ↦ ys.any fun y ↦ y.1.ble x.1 && x.2.ble y.2) = true) {n : Nat}
    (hn : xs.has n = true) : ys.has n = true := by
  obtain ⟨x, hx, hlo, hhi⟩ := (Ranges.has_iff hxs).mp hn
  obtain ⟨y, hy, hxy⟩ := List.any_eq_true.mp (List.all_eq_true.mp h x hx)
  simp only [Bool.and_eq_true, Nat.ble_eq] at hxy
  exact (Ranges.has_iff hys).mpr ⟨y, hy, by omega, by omega⟩

/-- Ranges that each lie apart from all of a second list have no point in common with it. -/
theorem Ranges.not_has_of_apart {xs ys : Ranges} (hxs : xs.Sorted) (hys : ys.Sorted)
    (h : (xs.all fun x ↦ ys.all fun y ↦ x.2.blt y.1 || y.2.blt x.1) = true) {n : Nat}
    (hn : xs.has n = true) : ys.has n = false := by
  obtain ⟨x, hx, hlo, hhi⟩ := (Ranges.has_iff hxs).mp hn
  rw [← Bool.not_eq_true]
  intro hy
  obtain ⟨y, hy, hlo', hhi'⟩ := (Ranges.has_iff hys).mp hy
  have hxy := List.all_eq_true.mp (List.all_eq_true.mp h x hx) y hy
  simp only [Bool.or_eq_true, Nat.blt_eq] at hxy
  omega

/-- How the alphanumeric characters lie to the decimal digits, to the blanks and to the Kelvin sign. -/
theorem alphanumericRanges_compared :
    (decimalRanges.all fun x ↦ alphanumericRanges.any fun y ↦ y.1.ble x.1 && x.2.ble y.2) = true ∧
      (blankRanges.all fun x ↦ alphanumericRanges.all fun y ↦ x.2.blt y.1 || y.2.blt x.1) = true ∧
      alphanumericRanges.has 0x212A = true := by
  decide +kernel

theorem isWordChar_of_isDecimal (h : isDecimal c = true) : isWordChar c = true := by
  have hin := Ranges.has_of_within sorted_decimalRanges sorted_alphanumericRanges
    alphanumericRanges_compared.1 h
  simp [isWordChar, isAlphanumeric, hin]

theorem isWordChar_of_isBlank (h : isBlank c = true) : isWordChar c = false := by
  have hout := Ranges.not_has_of_apart sorted_blankRanges sorted_alphanumericRanges
    alphanumericRanges_compared.2.1 h
  have hne : c ≠ '_' := by
    rintro rfl
    revert h
    decide
  simp [isWordChar, isAlphanumeric, hout, hne]

theorem isUpper_iff : c.isUpper = true ↔ 0x41 ≤ c.toNat ∧ c.toNat ≤ 0x5A := by
  have h : c.isUpper = decide ('A'.val ≤ c.val ∧ c.val ≤ 'Z'.val) := rfl
  simp only [h, decide_eq_true_eq, UInt32.le_iff_toNat_le]
  exact Iff.rfl

theorem isLower_iff : c.isLower = true ↔ 0x61 ≤ c.toNat ∧ c.toNat ≤ 0x7A := by
  have h : c.isLower = (decide ('a'.val ≤ c.val) && decide (c.val ≤ 'z'.val)) := rfl
  simp only [h, Bool.and_eq_true, decide_eq_true_eq, UInt32.le_iff_toNat_le]
  exact Iff.rfl

theorem isWordChar_of_isAlpha (h : c.isAlpha = true) : isWordChar c = true := by
  have hin : alphanumericRanges.has c.toNat = true := by
    rw [Ranges.has_iff sorted_alphanumericRanges]
    rcases Bool.or_eq_true_iff.mp h with hupper | hlower
    · exact ⟨(0x41, 0x5A), by decide, isUpper_iff.mp hupper⟩
    · exact ⟨(0x61, 0x7A), by decide, isLower_iff.mp hlower⟩
  simp [isWordChar, isAlphanumeric, hin]

/-- A letter of ASCII in lower case comes from a letter of ASCII. -/
theorem isAlpha_of_isLower_toLower (h : c.toLower.isLower = true) : c.isAlpha = true := by
  unfold Char.toLower at h
  split at h
  · rename_i hupper
    exact Bool.or_eq_true_iff.mpr (.inl (decide_eq_true hupper))
  · exact Bool.or_eq_true_iff.mpr (.inr h)

/-- Whether a character ends any word in front of it. -/
def isStop (c : Char) : Bool :=
  isBlank c || c == ',' || c == '(' || c == ')' || c == ';'

theorem isStop_of_isBlank (h : isBlank c = true) : isStop c = true := by
  simp [isStop, h]

theorem isWordChar_of_isStop (h : isStop c = true) : isWordChar c = false := by
  simp only [isStop, Bool.or_eq_true, beq_iff_eq] at h
  rcases h with (((h | rfl) | rfl) | rfl) | rfl
  · exact isWordChar_of_isBlank h
  all_goals decide

theorem isDecimal_of_isStop (h : isStop c = true) : isDecimal c = false := by
  rw [← Bool.not_eq_true]
  intro hdecimal
  have hword := isWordChar_of_isDecimal hdecimal
  simp [isWordChar_of_isStop h] at hword

end SqlLayout.Text

namespace SqlLayout.Word

open Text

/-- Whether keywords are spelled with a letter: the lower-case letters of ASCII and the
underscore. -/
def isKeywordLetter (letter : Char) : Bool :=
  letter.isLower || letter == '_'

theorem isWordChar_of_spells {letter c : Char} (hletter : isKeywordLetter letter = true)
    (h : spells letter c = true) : isWordChar c = true := by
  simp only [spells, Bool.or_eq_true, Bool.and_eq_true, beq_iff_eq] at h
  rcases h with ((hlower | ⟨-, rfl⟩) | ⟨-, rfl | rfl⟩) | ⟨-, hkelvin⟩
  · simp only [isKeywordLetter, Bool.or_eq_true, beq_iff_eq] at hletter
    rcases hletter with hletter | rfl
    · exact isWordChar_of_isAlpha (isAlpha_of_isLower_toLower (hlower ▸ hletter))
    · have hc : c = '_' := by
        unfold Char.toLower at hlower
        split at hlower
        · rename_i hupper
          have hlow : (c.toNat + 32) % 4294967296 = 95 := by
            simpa using congrArg Char.toNat hlower
          have hc := isUpper_iff.mp (decide_eq_true hupper)
          omega
        · exact hlower
      rw [hc]
      decide
  · decide
  · decide
  · decide
  · have hc : isAlphanumeric c = true := by
      rw [isAlphanumeric, hkelvin]
      exact alphanumericRanges_compared.2.2
    simp [isWordChar, hc]

end SqlLayout.Word
