import SqlLayout.Word

/-!
# What a rule finds

What has to stand in a text for a rule to find a word of a given length at its start, form by form.
-/

namespace SqlLayout.Word

open Text

variable {text : List Char} {n : Nat}

/-- Two parts with a point between them. -/
theorem pointed_eq_some {part : List Char → Option Nat} :
    (do
      let m ← part text
      match text.drop m with
      | '.' :: rest => return m + 1 + (← part rest)
      | _ => none) = some n ↔
      ∃ m k more, part text = some m ∧ text.drop m = '.' :: more ∧ part more = some k ∧
        m + 1 + k = n := by
  constructor
  · intro h
    obtain ⟨m, hm, h⟩ := Option.bind_eq_some_iff.mp h
    split at h
    · rename_i more hmore
      obtain ⟨k, hk, h⟩ := Option.bind_eq_some_iff.mp h
      exact ⟨m, k, more, hm, hmore, hk, Option.some.inj h⟩
    · cases h
  · rintro ⟨m, k, more, hm, hmore, hk, rfl⟩
    simp [hm, hmore, hk]

theorem backtickLength?_eq_some :
    backtickLength? text = some n ↔ ∃ inner m more, text = '`' :: inner ∧
      runLength? isWordChar inner = some m ∧ inner.drop m = '`' :: more ∧ m + 2 = n := by
  constructor
  · intro h
    unfold backtickLength? at h
    split at h
    · obtain ⟨m, hm, h⟩ := Option.bind_eq_some_iff.mp h
      rw [Option.ite_none_right_eq_some] at h
      obtain ⟨more, hmore⟩ := List.head?_eq_some_iff.mp h.1
      exact ⟨_, m, more, rfl, hm, hmore, Option.some.inj h.2⟩
    · cases h
  · rintro ⟨inner, m, more, rfl, hm, hmore, rfl⟩
    simp only [backtickLength?, hm, hmore, Option.bind_eq_bind, Option.bind_some, List.head?_cons, if_true]

theorem unsignedLength?_eq_some :
    unsignedLength? text = some n ↔ ∃ whole, runLength? isDecimal text = some whole ∧
      ((∃ fraction, text.drop whole = '.' :: fraction ∧
          whole + 1 + runLength isDecimal fraction = n) ∨
        (text.drop whole).head? ≠ some '.' ∧ whole = n) := by
  constructor
  · intro h
    obtain ⟨whole, hwhole, h⟩ := Option.bind_eq_some_iff.mp h
    refine ⟨whole, hwhole, ?_⟩
    split at h
    · rename_i fraction hdrop
      exact .inl ⟨fraction, hdrop, Option.some.inj h⟩
    · rename_i hdrop
      refine .inr ⟨fun hpoint ↦ ?_, Option.some.inj h⟩
      obtain ⟨fraction, hfraction⟩ := List.head?_eq_some_iff.mp hpoint
      exact hdrop fraction hfraction
  · rintro ⟨whole, hwhole, ⟨fraction, hdrop, rfl⟩ | ⟨hpoint, rfl⟩⟩
    · simp [unsignedLength?, hwhole, hdrop]
    · simp only [unsignedLength?, hwhole, Option.bind_eq_bind, Option.bind_some]
      split
      · rename_i fraction hdrop
        simp [hdrop] at hpoint
      · rfl

namespace Rule

theorem length?_phrase_eq_some {words : List String} :
    (phrase words).length? text = some n ↔
      phraseLength? words text = some n ∧ atWordEnd (text.drop n) = true := by
  simp only [length?, Option.bind_eq_bind, Option.bind_eq_some_iff, Option.ite_none_right_eq_some,
    Option.some.injEq]
  constructor
  · rintro ⟨m, hm, hend, rfl⟩
    exact ⟨hm, hend⟩
  · rintro ⟨hn, hend⟩
    exact ⟨n, hn, hend, rfl⟩

theorem length?_symbol_eq_some {symbol : String} :
    (Rule.symbol symbol).length? text = some n ↔
      symbol.toList <+: text ∧ symbol.toList.length = n := by
  simp only [length?, List.isPrefixOf_iff_prefix, Option.ite_none_right_eq_some, Option.some.injEq,
    String.length_toList]

theorem length?_callHead_eq_some :
    callHead.length? text = some n ↔ ∃ m more, runLength? isWordChar text = some m ∧
      text.drop (m + runLength isBlank (text.drop m)) = '(' :: more ∧
      m + runLength isBlank (text.drop m) + 1 = n := by
  simp only [length?, Option.bind_eq_bind, Option.bind_eq_some_iff, Option.ite_none_right_eq_some,
    Option.some.injEq, List.head?_eq_some_iff]
  constructor
  · rintro ⟨m, hm, ⟨more, hmore⟩, hn⟩
    exact ⟨m, more, hm, hmore, hn⟩
  · rintro ⟨m, more, hm, hmore, hn⟩
    exact ⟨m, hm, ⟨more, hmore⟩, hn⟩

theorem length?_backtickPair_eq_some :
    backtickPair.length? text = some n ↔ ∃ m k more, backtickLength? text = some m ∧
      text.drop m = '.' :: more ∧ backtickLength? more = some k ∧ m + 1 + k = n :=
  pointed_eq_some

theorem length?_dottedName_eq_some :
    dottedName.length? text = some n ↔ ∃ m k more, runLength? isWordChar text = some m ∧
      text.drop m = '.' :: more ∧ runLength? isWordChar more = some k ∧ m + 1 + k = n :=
  pointed_eq_some

theorem length?_dottedStar_eq_some :
    dottedStar.length? text = some n ↔ ∃ m more, runLength? isWordChar text = some m ∧
      text.drop m = '.' :: '*' :: more ∧ m + 2 = n := by
  constructor
  · intro h
    obtain ⟨m, hm, h⟩ := Option.bind_eq_some_iff.mp h
    split at h
    · exact ⟨m, _, hm, ‹_›, Option.some.inj h⟩
    · cases h
  · rintro ⟨m, more, hm, hmore, rfl⟩
    simp [length?, hm, hmore]

theorem length?_namedPlaceholder_eq_some :
    namedPlaceholder.length? text = some n ↔ ∃ inner m c more, text = '%' :: '(' :: inner ∧
      runLength? isWordChar inner = some m ∧ inner.drop m = ')' :: c :: more ∧
      spells 's' c = true ∧ m + 4 = n := by
  constructor
  · intro h
    simp only [length?] at h
    split at h
    · obtain ⟨m, hm, h⟩ := Option.bind_eq_some_iff.mp h
      split at h
      · rw [Option.ite_none_right_eq_some] at h
        exact ⟨_, m, _, _, rfl, hm, ‹_›, h.1, Option.some.inj h.2⟩
      · cases h
    · cases h
  · rintro ⟨inner, m, c, more, rfl, hm, hmore, hc, rfl⟩
    simp [length?, hm, hmore, hc]

theorem length?_placeholder_eq_some :
    placeholder.length? text = some n ↔
      ∃ c more, text = '%' :: c :: more ∧ spells 's' c = true ∧ 2 = n := by
  constructor
  · intro h
    simp only [length?] at h
    split at h
    · rw [Option.ite_none_right_eq_some] at h
      exact ⟨_, _, rfl, h.1, Option.some.inj h.2⟩
    · cases h
  · rintro ⟨c, more, rfl, hc, rfl⟩
    simp [length?, hc]

end Rule

end SqlLayout.Word
