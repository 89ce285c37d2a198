import SqlLayout.Proofs.Layout.Copied
import SqlLayout.Proofs.Read.Spacing
import SqlLayout.Proofs.RoundTrip

/-!
# The amount of blanks

The amount of blanks in a text makes no difference to how its lines are arranged.  It shows only inside a
text that is copied with the blanks in it, as the words of SELECT DISTINCT and LEFT JOIN are: texts that
differ in their blanks alone have lines that differ in their blanks alone, and the lines are equal exactly
if the copied texts are.
-/

namespace SqlLayout

open Text Read Layout

theorem carries_respaced : Carries (fun _ ↦ Respaced) Respaced where
  text := id
  upper _ h :=
    ⟨by rw [collapse_upper, h.1, collapse_upper], ⟨by simpa using h.2.1.1, isSettled_upper h.2.1.2⟩,
      ⟨by simpa using h.2.2.1, isSettled_upper h.2.2.2⟩⟩
  nonempty _ _ h := ⟨h.2.1.1, h.2.2.1⟩

theorem prefixFree_respaced : PrefixFree Respaced := by
  intro text other h rest more heq
  have hchars := congrArg String.toList heq
  rw [String.toList_append, String.toList_append] at hchars
  exact String.toList_inj.mp
    (eq_of_append_eq_append h.2.1.2 h.2.2.2 (collapseChars_eq_of_collapse h.1) hchars).1

theorem Copied.collapse_eq {xs ys : List String} {text other : String}
    (h : Copied Respaced xs ys text other) : collapse text = collapse other := by
  induction h with
  | fixed _ => rfl
  | copied hcopied => exact hcopied.1
  | append _ _ ih ihrest =>
    simp only [collapse, String.toList_append]
    rw [collapseChars_append_congr (collapseChars_eq_of_collapse ih)
      (collapseChars_eq_of_collapse ihrest)]

theorem CopiedLines.map_collapse_eq {xs ys lines others : List String}
    (h : CopiedLines Respaced xs ys lines others) : lines.map collapse = others.map collapse := by
  induction h with
  | nil => rfl
  | concat _ hline ih => rw [List.map_append, List.map_append, ih, List.map_singleton,
      List.map_singleton, hline.collapse_eq]

/-- A text whose runs of blanks are replaced by other runs of blanks has the same lines up to runs of blanks,
and the same lines exactly if the same texts are copied into them. -/
theorem format_of_collapse_eq {sql other : String} {lines : List String}
    (h : collapse sql = collapse other) (hlines : format sql = .ok lines) :
    ∃ copy, format other = .ok copy ∧ copy.map collapse = lines.map collapse ∧
      (copy = lines ↔ copiedTexts other = copiedTexts sql) := by
  obtain ⟨texts, copy, copies, htexts, hcopy, hcopies, hcopied⟩ :=
    exists_copiedLines keepsOffset_respaced carries_respaced (tokensOf_related h) hlines
  refine ⟨copy, hcopy, hcopied.map_collapse_eq.symm, ?_⟩
  rw [htexts, hcopies, Except.ok.injEq, eq_comm, hcopied.eq_iff prefixFree_respaced, eq_comm]

/-- Texts that differ in their blanks, and the lines of three of them. -/
theorem collapse_and_format_texts :
    (collapse "select a from b left join c group by d" =
        collapse "select\ta from b\nleft join c group\n  by d" ∧
      collapse "select distinct a" = collapse "select  distinct a") ∧
      (format "select a from b left join c group by d").toOption =
        some ["SELECT", "    a", "FROM", "    b", "    LEFT JOIN c", "GROUP BY", "    d"] ∧
      (format "select distinct a").toOption = some ["SELECT DISTINCT", "    a"] ∧
      (format "select  distinct a").toOption = some ["SELECT  DISTINCT", "    a"] := by
  decide +kernel

theorem format_of_collapse_eq_groupBy :
    collapse "select a from b left join c group by d" =
        collapse "select\ta from b\nleft join c group\n  by d" ∧
      format "select a from b left join c group by d" =
        .ok ["SELECT", "    a", "FROM", "    b", "    LEFT JOIN c", "GROUP BY", "    d"] ∧
      ∃ copy, format "select\ta from b\nleft join c group\n  by d" = .ok copy ∧
        copy.map collapse =
          ["SELECT", "    a", "FROM", "    b", "    LEFT JOIN c", "GROUP BY", "    d"].map collapse ∧
        (copy = ["SELECT", "    a", "FROM", "    b", "    LEFT JOIN c", "GROUP BY", "    d"] ↔
          copiedTexts "select\ta from b\nleft join c group\n  by d" =
            copiedTexts "select a from b left join c group by d") := by
  obtain ⟨⟨hblanks, -⟩, hformat, -, -⟩ := collapse_and_format_texts
  have hlines := eq_ok_of_toOption hformat
  exact ⟨hblanks, hlines, format_of_collapse_eq hblanks hlines⟩

/-- The blanks inside a SELECT DISTINCT reach its line. -/
theorem format_wide_distinct :
    collapse "select distinct a" = collapse "select  distinct a" ∧
      format "select distinct a" = .ok ["SELECT DISTINCT", "    a"] ∧
      format "select  distinct a" = .ok ["SELECT  DISTINCT", "    a"] := by
  obtain ⟨⟨-, hblanks⟩, -, hnarrow, hwide⟩ := collapse_and_format_texts
  exact ⟨hblanks, eq_ok_of_toOption hnarrow, eq_ok_of_toOption hwide⟩

end SqlLayout
