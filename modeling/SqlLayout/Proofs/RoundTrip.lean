import SqlLayout.Format
import SqlLayout.Proofs.Layout.Shown
import SqlLayout.Proofs.Read.Statements

/-!
# Laying out and reading back

The lines of a readable tree are read as the tree in upper case.  So formatting a text once more changes
nothing, provided that what the lines show of its tree is readable.
-/

namespace SqlLayout

open Text Layout

theorem areStatements_of_isReadable {nodes : List Node} (h : isReadable nodes = true) :
    Regular.areStatements nodes = true := by
  simp only [isReadable, Bool.and_eq_true] at h
  exact h.1.1.1

theorem tokensOf_of_tokenize {sql : String} {tokens : List Token}
    (h : tokenize sql = ⟨tokens, none⟩) : tokensOf sql = .ok tokens := by
  simp only [tokensOf, h]

theorem eq_ok_of_toOption {α : Type} {result : Except Fault α} {found : α}
    (h : result.toOption = some found) : result = .ok found := by
  cases result with
  | error fault => cases h
  | ok value => exact congrArg Except.ok (Option.some.inj h)

theorem format_of_style {sql : String} {tokens : List Token} {nodes : List Node} {styled : Styled}
    (htokens : tokensOf sql = .ok tokens) (hnodes : Read.parse tokens = .ok nodes)
    (hstyled : style 0 nodes = .ok styled) : format sql = .ok styled.lines := by
  simp only [format, htokens, hnodes, hstyled, bind, Except.bind]
  rfl

/-- A tree with the lines of another has a layout if the other has one. -/
theorem exists_style_of_lines {first second : Except Fault Styled} {styled : Styled}
    (h : first.map Styled.lines = second.map Styled.lines) (hsecond : second = .ok styled) :
    ∃ found, first = .ok found ∧ found.lines = styled.lines := by
  cases first with
  | error fault => simp [hsecond, Except.map] at h
  | ok found => exact ⟨found, rfl, by simpa [hsecond, Except.map] using h⟩

/-- A readable tree has a layout, whose lines are written with the tokens of the tree, and from these
the tree is read back in upper case. -/
theorem parse_tokensOf_lines_style {nodes : List Node} (h : isReadable nodes = true) (indent : Int) :
    ∃ styled, style indent nodes = .ok styled ∧
      tokensOf ("\n".intercalate styled.lines) = .ok (Spelling.tokens nodes) ∧
      Read.parse (Spelling.tokens nodes) = .ok (Node.upperCasedEach nodes) := by
  obtain ⟨styled, hstyled, htokens⟩ := exists_style_tokenize indent h
  exact ⟨styled, hstyled, tokensOf_of_tokenize htokens,
    Read.parse_tokens (areStatements_of_isReadable h)⟩

/-- The words of a query, and those of the lines of a column that is named DISTINCT. -/
theorem isReadable_query_and_tokenize_distinct :
    isReadable [.selectClause "select" [.plain .identifier "distinct_id"],
        .fromClause "from" [.plain .identifier "t"]] = true ∧
      tokenize ("\n".intercalate ["SELECT", "    distinct"]) =
        ⟨[⟨.selectWord, "SELECT\n    distinct"⟩], none⟩ := by
  decide +kernel

theorem parse_tokensOf_lines_style_select :
    isReadable [.selectClause "select" [.plain .identifier "distinct_id"],
        .fromClause "from" [.plain .identifier "t"]] = true ∧
      ∃ styled, style 0 [.selectClause "select" [.plain .identifier "distinct_id"],
          .fromClause "from" [.plain .identifier "t"]] = .ok styled ∧
        tokensOf ("\n".intercalate styled.lines) =
          .ok [⟨.selectWord, "SELECT"⟩, ⟨.identifier, "distinct_id"⟩, ⟨.fromWord, "FROM"⟩, ⟨.identifier, "t"⟩] ∧
        Read.parse
            [⟨.selectWord, "SELECT"⟩, ⟨.identifier, "distinct_id"⟩, ⟨.fromWord, "FROM"⟩, ⟨.identifier, "t"⟩] =
          .ok [.selectClause "SELECT" [.plain .identifier "distinct_id"],
            .fromClause "FROM" [.plain .identifier "t"]] :=
  ⟨isReadable_query_and_tokenize_distinct.1,
    parse_tokensOf_lines_style isReadable_query_and_tokenize_distinct.1 0⟩

/-- A column that is named DISTINCT comes back as a part of the keyword. -/
theorem parse_lines_of_distinct_column :
    ∃ styled, style 0 [.selectClause "SELECT" [.plain .identifier "distinct"]] = .ok styled ∧
      styled.lines = ["SELECT", "    distinct"] ∧
      tokensOf ("\n".intercalate styled.lines) = .ok [⟨.selectWord, "SELECT\n    distinct"⟩] ∧
      Read.parse [⟨.selectWord, "SELECT\n    distinct"⟩] =
        .ok [.selectClause "SELECT\n    distinct" []] := by
  refine ⟨⟨["SELECT", "    distinct"], _⟩, rfl, rfl, ?_, rfl⟩
  exact tokensOf_of_tokenize isReadable_query_and_tokenize_distinct.2

/-- Formatting the lines of a text once more changes nothing if what they show of its tree is
readable. -/
theorem format_lines_of_format {sql : String} {tokens : List Token} {nodes : List Node}
    (htokens : tokensOf sql = .ok tokens) (hnodes : Read.parse tokens = .ok nodes)
    (h : isReadable (Node.shownEach nodes) = true) :
    ∃ lines, format sql = .ok lines ∧ format ("\n".intercalate lines) = .ok lines := by
  obtain ⟨shown, hshown, hspelled⟩ := exists_style_tokenize 0 h
  have hregular := areStatements_of_isReadable h
  -- The first run lays out the tree itself, the second what was shown of it, in upper case.
  obtain ⟨styled, hstyled, hlines⟩ :=
    exists_style_of_lines (lines_style_shownEach 0 nodes).symm hshown
  obtain ⟨again, hagain, hlines'⟩ :=
    exists_style_of_lines (lines_style_upperCasedEach 0 hregular) hshown
  refine ⟨styled.lines, format_of_style htokens hnodes hstyled, ?_⟩
  rw [hlines]
  have hformat := format_of_style (tokensOf_of_tokenize hspelled) (Read.parse_tokens hregular) hagain
  rw [hformat, hlines']

/-- The words of a call with an alias, the lines of a join behind an ON, and those of a table that is named
LEFT. -/
theorem tokenize_call_and_format_joins :
    tokenize "select f(a) b" = ⟨[⟨.selectWord, "select"⟩, ⟨.func, "f"⟩, ⟨.openParen, "("⟩,
        ⟨.identifier, "a"⟩, ⟨.closeParen, ")"⟩, ⟨.identifier, "b"⟩], none⟩ ∧
      isReadable (Node.shownEach
        [.selectClause "select" [.call "f" [.plain .identifier "a"] none (some "b")]]) = true ∧
      (format "from a join b on a.x = b.x join c").toOption =
        some ["FROM", "    a", "    JOIN b ON", "        a.x = b.x", "    c"] ∧
      (format ("\n".intercalate ["FROM", "    a", "    JOIN b ON", "        a.x = b.x", "    c"])).toOption =
        some ["FROM", "    a", "    JOIN b ON", "        a.x = b.x"] ∧
      (format "from left, join b").toOption = some ["FROM", "    left", "    JOIN b"] ∧
      (format ("\n".intercalate ["FROM", "    left", "    JOIN b"])).toOption =
        some ["FROM", "    LEFT\n    JOIN b"] := by
  decide +kernel

theorem format_lines_of_format_call :
    isReadable (Node.shownEach
        [.selectClause "select" [.call "f" [.plain .identifier "a"] none (some "b")]]) = true ∧
      ∃ lines, format "select f(a) b" = .ok lines ∧
        format ("\n".intercalate lines) = .ok lines := by
  obtain ⟨htokens, h, -⟩ := tokenize_call_and_format_joins
  exact ⟨h, format_lines_of_format (tokensOf_of_tokenize htokens) rfl h⟩

/-- The part behind an ON is passed over.  First it is the JOIN, whose table stays, and in the second run it
is the table.  The comma behind a table goes when a join follows, and a table named LEFT then becomes a part
of the join. -/
theorem format_lines_differ_from_format :
    (format "from a join b on a.x = b.x join c" =
        .ok ["FROM", "    a", "    JOIN b ON", "        a.x = b.x", "    c"] ∧
      format ("\n".intercalate ["FROM", "    a", "    JOIN b ON", "        a.x = b.x", "    c"]) =
        .ok ["FROM", "    a", "    JOIN b ON", "        a.x = b.x"]) ∧
      format "from left, join b" = .ok ["FROM", "    left", "    JOIN b"] ∧
      format ("\n".intercalate ["FROM", "    left", "    JOIN b"]) =
        .ok ["FROM", "    LEFT\n    JOIN b"] := by
  obtain ⟨-, -, hlines, hagain, hlines', hagain'⟩ := tokenize_call_and_format_joins
  exact ⟨⟨eq_ok_of_toOption hlines, eq_ok_of_toOption hagain⟩, eq_ok_of_toOption hlines',
    eq_ok_of_toOption hagain'⟩

end SqlLayout
