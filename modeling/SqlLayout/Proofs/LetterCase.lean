import SqlLayout.Format
import SqlLayout.Proofs.Layout.Outcome
import SqlLayout.Proofs.Read.LetterCase

/-!
# Letter case

The case of keywords and of the names of functions makes no difference: a text with other capitals in
them has the same lines, or its formatting fails in the same way or like it never ends.
-/

namespace SqlLayout

open Read Layout

theorem lines_style_of_sameNodes (indent : Int) {nodes others : List Node}
    (hnodes : ∀ node ∈ nodes, node.isStatement = true ∧ WellBuilt node)
    (hothers : ∀ node ∈ others, node.isStatement = true ∧ WellBuilt node)
    (h : SameNodes nodes others) :
    (style indent nodes).map Styled.lines = (style indent others).map Styled.lines := by
  rw [← lines_style_of_wellBuilt indent hnodes, ← lines_style_of_wellBuilt indent hothers, h]

theorem format_of_tokensOf {sql : String} {tokens : List Token} (h : tokensOf sql = .ok tokens) :
    format sql = parse tokens >>= fun nodes ↦ (style 0 nodes).map Styled.lines := by
  simp only [format, h, ← bind_ok_eq_map]
  rfl

theorem tokensOf_of_isRecasing {sql other : String} (h : isRecasing sql other = true) :
    (∃ rest, tokensOf sql = .error (.unclosedQuote rest) ∧
        tokensOf other = .error (.unclosedQuote rest)) ∨
      ∃ tokens others, tokensOf sql = .ok tokens ∧ tokensOf other = .ok others ∧
        tokens.map Token.shout = others.map Token.shout := by
  obtain ⟨htokens, hunclosed⟩ := map_shout_ofWords_of_isRecased h
  unfold tokensOf tokenize Word.cut
  dsimp only
  rw [← hunclosed]
  cases (Word.cutFrom 0 sql.toList).unclosed with
  | some rest => exact .inl ⟨rest, rfl, rfl⟩
  | none => exact .inr ⟨_, _, rfl, rfl, htokens⟩

/-- A text in which only the case of keywords and of names of functions is changed has the same lines, or
the same fault stops it. -/
theorem format_of_isRecasing {sql other : String} (h : isRecasing sql other = true) :
    (format other).mapError Fault.bare = (format sql).mapError Fault.bare := by
  rcases tokensOf_of_isRecasing h with ⟨rest, hsql, hother⟩ | ⟨tokens, others, hsql, hother, hshout⟩
  · simp only [format, hsql, hother]
  · rw [format_of_tokensOf hsql, format_of_tokensOf hother]
    have hagree := parse_agree_of_map_shout hshout
    cases hfirst : parse tokens with
    | error fault =>
      cases hsecond : parse others with
      | error other =>
        rw [hfirst, hsecond] at hagree
        cases hagree with
        | error hbare => exact congrArg Except.error hbare.symm
      | ok others =>
        rw [hfirst, hsecond] at hagree
        cases hagree
    | ok nodes =>
      cases hsecond : parse others with
      | error other =>
        rw [hfirst, hsecond] at hagree
        cases hagree
      | ok others =>
        rw [hfirst, hsecond] at hagree
        cases hagree with
        | ok hsame =>
          have hlines := lines_style_of_sameNodes 0 (wellBuilt_of_parse hfirst)
            (wellBuilt_of_parse hsecond) hsame
          exact congrArg (Except.mapError Fault.bare) hlines.symm

theorem format_of_isRecasing_join :
    isRecasing "select max(a) from b Left join c where d like e"
        "SeLeCt MAX(a) FROM b left JOIN c Where d Like e" = true ∧
      (format "SeLeCt MAX(a) FROM b left JOIN c Where d Like e").mapError Fault.bare =
        (format "select max(a) from b Left join c where d like e").mapError Fault.bare := by
  have h : isRecasing "select max(a) from b Left join c where d like e"
      "SeLeCt MAX(a) FROM b left JOIN c Where d Like e" = true := by decide +kernel
  exact ⟨h, format_of_isRecasing h⟩

end SqlLayout
