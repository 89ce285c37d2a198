import SqlLayout.Embedded
import SqlLayout.Proofs.Read.Literals
import SqlLayout.Proofs.Read.Spacing
import SqlLayout.Proofs.RoundTrip

/-!
# Literals in Python text

A query in Python text has its blanks squeezed before it is formatted, inside its literals too.  Its layout
has the squeezed literals in their order, apart from those that no line shows.  So the literals of a
query survive exactly if no run of blanks in them is more than a single space and none of them is dropped.
-/

namespace SqlLayout

open Text Word Layout Read

def literals (text : String) : Except Fault (List String) :=
  (tokensOf text).map Token.literals

theorem literals_eq_ok {text : String} {found : List String} :
    literals text = .ok found ↔ literals? text = some found := by
  rw [literals?_eq_some, literals, tokensOf]
  cases (tokenize text).unclosed with
  | none => simp [Except.map]
  | some rest => simp [Except.map]

theorem areTyped_of_tokensOf {sql : String} {tokens : List Token} (h : tokensOf sql = .ok tokens) :
    AreTyped tokens := by
  unfold tokensOf at h
  split at h
  · cases h
  · cases h
    exact isTyped_of_tokenize sql

/-! ### Literals in lines -/

section Lines

variable {text rest : String} {found more xs ys lines others : List String}

theorem literals?_append (h : literals? text = some found) (rest : String) :
    literals? (text ++ rest) = (literals? rest).map (found ++ ·) := by
  rw [literals?, String.toList_append, literalsFrom_append_of_some h, literals?]

theorem literals?_quoteless (h : Quoteless text.toList) : literals? text = some [] := by
  have hend := literalsFrom_quoteless_append h []
  rwa [List.append_nil] at hend

theorem literals?_quoteless_append (h : Quoteless text.toList) (rest : String) :
    literals? (text ++ rest) = literals? rest := by
  rw [literals?, String.toList_append, literalsFrom_quoteless_append h, literals?]

theorem literals?_isLiteral (h : IsLiteral text.toList) : literals? text = some [text] := by
  have hend := literalsFrom_literal_append h []
  rw [List.append_nil, String.ofList_toList] at hend
  exact hend

/-- Texts of tokens that differ in their blanks alone, the first of which is a literal or has no quote. -/
def TypedText (kind : Kind) (text other : String) : Prop :=
  Respaced text other ∧ Token.IsTyped ⟨kind, text⟩

def PlainText (text other : String) : Prop :=
  (IsLiteral text.toList ∨ Quoteless text.toList) ∧ text ≠ "" ∧ other ≠ ""

theorem carries_typedText : Carries TypedText PlainText where
  text := by
    rintro kind text other ⟨hspaced, htyped⟩
    refine ⟨?_, hspaced.2.1.1, hspaced.2.2.1⟩
    rcases htyped with ⟨-, hliteral⟩ | ⟨-, hquoteless⟩
    · exact .inl hliteral
    · exact .inr hquoteless
  upper := by
    rintro kind text other hkind ⟨hspaced, htyped⟩
    refine ⟨?_, by simpa using hspaced.2.1.1, by simpa using hspaced.2.2.1⟩
    rcases htyped with ⟨hstr, -⟩ | ⟨-, hquoteless⟩
    · exact absurd hstr hkind
    · exact .inr (quoteless_upper hquoteless)
  nonempty := by
    rintro text other ⟨-, htext, hother⟩
    exact ⟨htext, hother⟩

theorem keepsOffset_typedText : KeepsOffset TypedText := by
  rintro text other ⟨hspaced, -⟩
  exact keepsOffset_respaced hspaced

theorem tokensOf_typedText (sql : String) :
    Agree (RelatedTokens TypedText) (tokensOf sql) (tokensOf sql) := by
  have hspaced := tokensOf_related (rfl : collapse sql = collapse sql)
  cases htokens : tokensOf sql with
  | error fault => exact .error rfl
  | ok tokens =>
    rw [htokens] at hspaced
    have htyped := areTyped_of_tokensOf htokens
    cases hspaced with
    | ok hspaced =>
      apply Agree.ok
      apply List.forall₂_same.mpr
      intro token htoken
      have hself := List.forall₂_same.mp hspaced token htoken
      obtain ⟨kind, text⟩ := token
      cases hself with
      | mk hself => exact .mk ⟨hself, htyped _ htoken⟩

/-- The literals in a line are those among the texts that are copied into it. -/
theorem Copied.literals?_eq {other : String} (h : Copied PlainText xs ys text other) :
    literals? text = some (xs.filter isQuoted) := by
  induction h with
  | fixed htext => exact literals?_quoteless htext
  | copied hcopied =>
    rcases hcopied.1 with hliteral | hquoteless
    · simp [literals?_isLiteral hliteral, isQuoted_of_isLiteral hliteral]
    · simp [literals?_quoteless hquoteless, isQuoted_of_quoteless hquoteless]
  | append _ _ ih ihrest => simp [literals?_append ih, ihrest]

/-- Lines behind line feeds, each changed in a way that keeps its literals. -/
theorem CopiedLines.literalsFrom_flatMap {change : String → String}
    (hchange : ∀ line, literals? (change line) = literals? line)
    (h : CopiedLines PlainText xs ys lines others) :
    literalsFrom none (lines.flatMap fun line ↦ '\n' :: (change line).toList) =
      some (xs.filter isQuoted) := by
  have hfeed : Quoteless ['\n'] := by decide
  induction h with
  | nil => rfl
  | @concat _ _ _ _ _ _ line _ _ hline ih =>
    have hlast : literalsFrom none ('\n' :: (change line).toList) = literals? line :=
      (literalsFrom_quoteless_append hfeed _).trans (hchange line)
    rw [List.flatMap_append, literalsFrom_append_of_some ih, List.flatMap_singleton, hlast,
      hline.literals?_eq, Option.map_some, List.filter_append]

end Lines

/-! ### Queries -/

namespace Embedded

variable {text : String} {query : Query} {lines : List String}

theorem blanks_of_segmentAt? {chars : List Char} {segment : Segment} {length : Nat}
    (h : segmentAt? chars = some (segment, length)) : segment.blanks.all isBlank = true := by
  simp only [segmentAt?, Option.bind_eq_bind, Option.bind_eq_some_iff, Option.pure_def,
    Option.some.injEq, Prod.mk.injEq] at h
  obtain ⟨_, -, _, -, rfl, -⟩ := h
  exact List.all_takeWhile

theorem blanks_of_mem_segmentsFrom {skip : Nat} {chars : List Char} {segment : Segment}
    (h : segment ∈ segmentsFrom skip chars) : segment.blanks.all isBlank = true := by
  induction chars generalizing skip with
  | nil => simp [segmentsFrom] at h
  | cons c rest ih =>
    cases skip with
    | succ skip => exact ih h
    | zero =>
      rw [segmentsFrom] at h
      split at h
      · rename_i hsegment
        rcases List.mem_cons.mp h with rfl | h
        · exact blanks_of_segmentAt? hsegment
        · exact ih h
      · exact ih h

theorem trimLineFeeds_subset (chars : List Char) : trimLineFeeds chars ⊆ chars := by
  intro c hc
  rw [trimLineFeeds, List.mem_reverse] at hc
  have hfront := (List.dropWhile_sublist _).subset hc
  rw [List.mem_reverse] at hfront
  exact (List.dropWhile_sublist _).subset hfront

/-- The SQL of a query is its text with single spaces, and its indentation consists of blanks. -/
theorem sql_and_indent_of_mem_queries (h : query ∈ queries text) :
    query.sql = squeeze query.source ∧ query.indent.toList.all isBlank = true := by
  obtain ⟨segment, hsegment, hquery⟩ := List.mem_filterMap.mp h
  have hblanks := blanks_of_mem_segmentsFrom hsegment
  unfold Segment.query? at hquery
  dsimp only at hquery
  split at hquery
  · cases hquery
  · split at hquery
    · cases hquery
      refine ⟨rfl, ?_⟩
      rw [String.toList_append, List.all_append, String.toList_ofList, Bool.and_eq_true]
      constructor
      · rw [List.all_eq_true] at hblanks ⊢
        intro c hc
        exact hblanks c (trimLineFeeds_subset _ hc)
      · decide
    · cases hquery

/-- The literals in the layout of a query are those among the texts that are copied into its lines. -/
theorem literals?_layout (h : query.indent.toList.all isBlank = true) {xs ys others : List String}
    (hlines : CopiedLines PlainText xs ys lines others) :
    literals? (query.layout lines) = some (xs.filter isQuoted) := by
  have hchange : ∀ line, literals? (trimEnd (query.indent ++ line)) = literals? line := by
    intro line
    rw [literals?_trimEnd, literals?_quoteless_append (quoteless_of_all_isBlank h)]
  have hall := hlines.literalsFrom_flatMap hchange
  -- Each line has a line feed in front of it, the first one too.
  have hspace : Quoteless " ".toList := by decide
  rw [Query.layout, literals?_append_quoteless hspace]
  cases lines with
  | nil =>
    rw [← hall, List.map_nil]
    exact literals?_quoteless (by decide)
  | cons line lines =>
    have hne : ((line :: lines).map fun line ↦ trimEnd (query.indent ++ line)) ≠ [] := by simp
    have hfeeds := LineBuffer.cons_intercalate hne
    rw [List.flatMap_map] at hfeeds
    rw [← hall, ← hfeeds, literals?, String.toList_append]
    rfl

/-- Every literal that the layout of a query has is a literal of the query with its blanks collapsed, in
the same order.  The literals are the same exactly if each of them has single spaces for blanks and as many
are copied into the lines as there are. -/
theorem literals_layout (hquery : query ∈ queries text) (hlines : format query.sql = .ok lines) :
    ∃ found texts, literals query.source = .ok found ∧ copiedTexts query.sql = .ok texts ∧
      literals (query.layout lines) = .ok (texts.filter isQuoted) ∧
      (texts.filter isQuoted).Sublist (found.map collapse) ∧
      (literals (query.layout lines) = literals query.source ↔
        (∀ literal ∈ found, collapse literal = literal) ∧
          (texts.filter isQuoted).length = found.length) := by
  obtain ⟨hsql, hindent⟩ := sql_and_indent_of_mem_queries hquery
  obtain ⟨texts, copy, copies, htexts, -, -, hcopied⟩ :=
    exists_copiedLines keepsOffset_typedText carries_typedText (tokensOf_typedText query.sql) hlines
  have hlayout := literals_eq_ok.mpr (literals?_layout hindent hcopied)
  obtain ⟨tokens, htokens, hrest⟩ := bind_eq_ok.mp hlines
  obtain ⟨nodes, hnodes, -⟩ := bind_eq_ok.mp hrest
  have hsqueezed : literals? (squeeze query.source) = some (Token.literals tokens) := by
    rw [← hsql, ← literals_eq_ok, literals, htokens]
    rfl
  rw [literals?_squeeze] at hsqueezed
  obtain ⟨found, hfound, hcollapsed⟩ := Option.map_eq_some_iff.mp hsqueezed
  have hsource := literals_eq_ok.mpr hfound
  have hsub : (texts.filter isQuoted).Sublist (found.map collapse) := by
    have hshown : texts = shownTexts nodes := by
      rw [copiedTexts, htokens] at htexts
      obtain ⟨others, hothers, rfl⟩ := map_eq_ok.mp htexts
      obtain rfl : nodes = others := Except.ok.inj (hnodes.symm.trans hothers)
      rfl
    rw [hshown, hcollapsed]
    exact sublist_of_parse (areTyped_of_tokensOf htokens) hnodes
  refine ⟨found, texts, hsource, htexts, hlayout, hsub, ?_⟩
  rw [hlayout, hsource, Except.ok.injEq]
  constructor
  · intro hsame
    rw [hsame] at hsub
    have hequal := hsub.eq_of_length (by simp)
    refine ⟨?_, congrArg List.length hsame⟩
    intro literal hliteral
    exact List.map_eq_map_iff.mp (hequal.symm.trans (List.map_id _).symm) literal hliteral
  · rintro ⟨hfixed, hlength⟩
    rw [hsub.eq_of_length (by simpa using hlength)]
    exact (List.map_congr_left hfixed).trans (List.map_id _)

/-- `select f('') from a 'w' where c = 'y z'` on two lines -/
def quotedAlias : Query :=
  ⟨"select f('') from a 'w'\n where c = 'y z'", "select f('') from a 'w' where c = 'y z'", "    "⟩

/-- `select a from b where c = 'x  y'` -/
def wideLiteral : Query :=
  ⟨"select a from b where c = 'x  y'", "select a from b where c = 'x y'", "    "⟩

/-- Both are found in their texts, and these are their lines. -/
theorem queries_and_format_of_literals :
    quotedAlias ∈ queries "x = \"\"\"select f('') from a 'w'\n where c = 'y z'\"\"\"\n" ∧
      (format quotedAlias.sql).toOption =
        some ["SELECT", "    F('')", "FROM", "    a 'w'", "WHERE", "    c = 'y z'"] ∧
      queries "x = \"\"\"select a from b where c = 'x  y'\"\"\"\n" = [wideLiteral] ∧
      (format wideLiteral.sql).toOption =
        some ["SELECT", "    a", "FROM", "    b", "WHERE", "    c = 'x y'"] ∧
      (literals wideLiteral.source).toOption = some ["'x  y'"] ∧
      (literals (wideLiteral.layout
        ["SELECT", "    a", "FROM", "    b", "WHERE", "    c = 'x y'"])).toOption = some ["'x y'"] := by
  decide +kernel

theorem literals_layout_quotedAlias :
    quotedAlias ∈ queries "x = \"\"\"select f('') from a 'w'\n where c = 'y z'\"\"\"\n" ∧
      format quotedAlias.sql =
        .ok ["SELECT", "    F('')", "FROM", "    a 'w'", "WHERE", "    c = 'y z'"] ∧
      ∃ found texts, literals quotedAlias.source = .ok found ∧
        copiedTexts quotedAlias.sql = .ok texts ∧
        literals (quotedAlias.layout
            ["SELECT", "    F('')", "FROM", "    a 'w'", "WHERE", "    c = 'y z'"]) =
          .ok (texts.filter isQuoted) ∧
        (texts.filter isQuoted).Sublist (found.map collapse) ∧
        (literals (quotedAlias.layout
              ["SELECT", "    F('')", "FROM", "    a 'w'", "WHERE", "    c = 'y z'"]) =
            literals quotedAlias.source ↔
          (∀ literal ∈ found, collapse literal = literal) ∧
            (texts.filter isQuoted).length = found.length) := by
  obtain ⟨hquery, hformat, -⟩ := queries_and_format_of_literals
  have hlines := eq_ok_of_toOption hformat
  exact ⟨hquery, hlines, literals_layout hquery hlines⟩

/-- Two blanks in a literal are one in its layout. -/
theorem literals_layout_wideLiteral :
    queries "x = \"\"\"select a from b where c = 'x  y'\"\"\"\n" = [wideLiteral] ∧
      format wideLiteral.sql =
        .ok ["SELECT", "    a", "FROM", "    b", "WHERE", "    c = 'x y'"] ∧
      literals wideLiteral.source = .ok ["'x  y'"] ∧
      literals (wideLiteral.layout
        ["SELECT", "    a", "FROM", "    b", "WHERE", "    c = 'x y'"]) = .ok ["'x y'"] := by
  obtain ⟨-, -, hqueries, hlines, hsource, hlaid⟩ := queries_and_format_of_literals
  exact ⟨hqueries, eq_ok_of_toOption hlines, eq_ok_of_toOption hsource, eq_ok_of_toOption hlaid⟩

end Embedded

end SqlLayout
