import SqlLayout.Proofs.Segments

/-!
# The indentation of a query in its text

The layout of a query is meant to be indented by the white space that the line of its opening quotes starts
with.  What it is indented by are the blanks at the start of its statement, without the line feeds at both
ends.  The two agree where the statement starts with the line, or with empty lines above it.  A line of
blanks above stays part of the indentation, and a statement may start inside its line or with a word on an
earlier one: then the white space there has to be that of the line.
-/

namespace SqlLayout.Embedded

open Text

def lastLine (text : List Char) : List Char :=
  (text.reverse.takeWhile (· != '\n')).reverse

def Find.line (find : Find) : List Char :=
  lastLine (find.front ++ find.gap)

/-- The white space that the line of the opening quotes starts with. -/
def Find.margin (find : Find) : List Char :=
  find.line.takeWhile isBlank

def Find.IsIndented (find : Find) (indent : String) : Prop :=
  '\n' ∉ indent.toList ∧ indent = String.ofList find.margin ++ "    "

/-- Where the start of a statement has the white space of the line of its opening quotes. -/
inductive Find.IsAligned (find : Find) : Prop
  /-- The statement starts with the line, or with empty lines above it. -/
  | line {feeds : List Char} : feeds.all (· == '\n') = true →
      IsStatementStart find.gap (feeds ++ find.line) → find.IsAligned
  /-- It starts behind a word of the line, with the white space that the line starts with. -/
  | inside {before rest : List Char} : before.all isBlank = false →
      find.line = before ++ (find.margin ++ rest) → rest.head?.all (!isBlank ·) = true →
      IsStatementStart find.gap (find.margin ++ rest) → find.IsAligned
  /-- It starts with a word above the line, behind the white space of the line and line feeds. -/
  | above {feeds others top : List Char} : feeds.all (· == '\n') = true →
      others.all (· == '\n') = true → top.head?.any (!isBlank ·) = true →
      IsStatementStart find.gap (feeds ++ (find.margin ++ (others ++ (top ++ '\n' :: find.line)))) →
      find.IsAligned

section Trimming

variable {text margin blanks feeds others rest : List Char}

theorem filter_dropWhile (text : List Char) :
    (text.dropWhile (· == '\n')).filter (· != '\n') = text.filter (· != '\n') := by
  induction text with
  | nil => rfl
  | cons c rest ih =>
    by_cases hc : c = '\n'
    · simp [hc, ih]
    · simp [hc]

/-- Trimming keeps every character that is no line feed. -/
theorem filter_trimLineFeeds (text : List Char) :
    (trimLineFeeds text).filter (· != '\n') = text.filter (· != '\n') := by
  rw [trimLineFeeds, List.filter_reverse, filter_dropWhile, List.filter_reverse, List.reverse_reverse,
    filter_dropWhile]

theorem dropWhile_of_not_mem (h : '\n' ∉ text) : text.dropWhile (· == '\n') = text := by
  cases text with
  | nil => rfl
  | cons c rest =>
    have hc : ¬(c == '\n') = true := by
      rintro hc
      rw [beq_iff_eq] at hc
      exact h (hc ▸ List.mem_cons_self)
    exact List.dropWhile_cons_of_neg hc

theorem trimLineFeeds_of_not_mem (h : '\n' ∉ text) : trimLineFeeds text = text := by
  have hreverse : '\n' ∉ text.reverse := fun hmem ↦ h (List.mem_reverse.mp hmem)
  rw [trimLineFeeds, dropWhile_of_not_mem h, dropWhile_of_not_mem hreverse, List.reverse_reverse]

theorem trimLineFeeds_append_iff (hmargin : '\n' ∉ margin) :
    trimLineFeeds (blanks ++ margin) = margin ↔ blanks.all (· == '\n') = true := by
  constructor
  · intro h
    have hfilter := filter_trimLineFeeds (blanks ++ margin)
    rw [h, List.filter_append] at hfilter
    have hnil : blanks.filter (· != '\n') = [] := by simpa using hfilter
    simpa using hnil
  · intro h
    rw [trimLineFeeds, List.dropWhile_append_of_pos (List.all_eq_true.mp h), ← trimLineFeeds,
      trimLineFeeds_of_not_mem hmargin]

theorem trimLineFeeds_of_feeds (hfeeds : feeds.all (· == '\n') = true)
    (hothers : others.all (· == '\n') = true) (hmargin : '\n' ∉ margin) :
    trimLineFeeds (feeds ++ (margin ++ others)) = margin := by
  have hback : others.reverse.all (· == '\n') = true := by rw [List.all_reverse, hothers]
  rw [trimLineFeeds, List.dropWhile_append_of_pos (List.all_eq_true.mp hfeeds)]
  cases margin with
  | nil =>
    have hnil : others.dropWhile (· == '\n') = [] := by
      rw [← List.append_nil others, List.dropWhile_append_of_pos (List.all_eq_true.mp hothers)]
      rfl
    rw [List.nil_append, hnil]
    rfl
  | cons c margin =>
    have hreverse : '\n' ∉ (c :: margin).reverse := fun hmem ↦ hmargin (List.mem_reverse.mp hmem)
    have hfront : (c :: (margin ++ others)).dropWhile (· == '\n') = c :: (margin ++ others) :=
      List.dropWhile_cons_of_neg (by
        rw [beq_iff_eq]
        rintro rfl
        exact hmargin List.mem_cons_self)
    rw [List.cons_append, hfront, ← List.cons_append, List.reverse_append,
      List.dropWhile_append_of_pos (List.all_eq_true.mp hback), dropWhile_of_not_mem hreverse,
      List.reverse_reverse]

/-- Only line feeds stand around what trimming leaves. -/
theorem exists_of_trimLineFeeds (text : List Char) :
    ∃ feeds others, feeds.all (· == '\n') = true ∧ others.all (· == '\n') = true ∧
      text = feeds ++ (trimLineFeeds text ++ others) := by
  refine ⟨text.takeWhile (· == '\n'),
    ((text.dropWhile (· == '\n')).reverse.takeWhile (· == '\n')).reverse, List.all_takeWhile, ?_, ?_⟩
  · rw [List.all_reverse]
    exact List.all_takeWhile
  · rw [trimLineFeeds, ← List.reverse_append, List.takeWhile_append_dropWhile, List.reverse_reverse,
      List.takeWhile_append_dropWhile]

theorem all_isBlank_of_feeds (h : feeds.all (· == '\n') = true) : feeds.all isBlank = true := by
  refine List.all_eq_true.mpr fun c hc ↦ ?_
  rw [beq_iff_eq.mp (List.all_eq_true.mp h c hc)]
  decide

theorem takeWhile_isBlank_of_head (hblanks : blanks.all isBlank = true)
    (hrest : rest.head?.all (!isBlank ·) = true) : (blanks ++ rest).takeWhile isBlank = blanks := by
  rw [List.takeWhile_append_of_pos (List.all_eq_true.mp hblanks)]
  cases rest with
  | nil => simp
  | cons c rest =>
    have hc : isBlank c = false := by simpa using hrest
    simp [hc]

theorem head?_dropWhile_isBlank (text : List Char) :
    (text.dropWhile isBlank).head?.all (!isBlank ·) = true := by
  induction text with
  | nil => rfl
  | cons c rest ih =>
    cases hc : isBlank c with
    | false => simp [hc]
    | true => simpa [hc] using ih

end Trimming

/-- A line feed stands in front of the last line, unless it is the first. -/
theorem exists_lastLine (text : List Char) :
    ∃ top, text = top ++ lastLine text ∧ (top = [] ∨ ∃ above, top = above ++ ['\n']) := by
  refine ⟨(text.reverse.dropWhile (· != '\n')).reverse, ?_, ?_⟩
  · rw [lastLine, ← List.reverse_append, List.takeWhile_append_dropWhile, List.reverse_reverse]
  · cases hrest : text.reverse.dropWhile (· != '\n') with
    | nil => exact .inl rfl
    | cons c rest =>
      have hc : c = '\n' := by
        have hhead := List.head?_dropWhile_not (· != '\n') text.reverse
        simpa [hrest] using hhead
      exact .inr ⟨rest.reverse, by simp [hc]⟩

theorem not_mem_lastLine (text : List Char) : '\n' ∉ lastLine text := by
  intro hmem
  have hfeed := List.all_eq_true.mp (List.all_takeWhile) '\n' (List.mem_reverse.mp hmem)
  simp at hfeed

theorem not_mem_margin (find : Find) : '\n' ∉ find.margin :=
  fun hmem ↦ not_mem_lastLine _ ((List.takeWhile_sublist _).mem hmem)

theorem IsStatementStart.unique {gap start other : List Char} (h : IsStatementStart gap start)
    (hother : IsStatementStart gap other) : other = start :=
  (h.longest other hother.suffix hother.runs).eq_of_length_le
    (hother.longest start h.suffix h.runs).length_le

/-- The layout is indented by the margin if that is what trimming leaves of the blanks. -/
theorem isIndented_iff (find : Find) :
    find.IsIndented find.query.indent ↔
      trimLineFeeds ((statementStart find.gap).takeWhile isBlank) = find.margin := by
  constructor
  · rintro ⟨-, hindent⟩
    have hlist := congrArg String.toList hindent
    simpa [Find.query] using hlist
  · intro htrim
    have hindent : find.query.indent = String.ofList find.margin ++ "    " := by
      rw [Find.query, htrim]
    refine ⟨?_, hindent⟩
    have hspaces : '\n' ∉ "    ".toList := by decide
    rw [hindent, String.toList_append, String.toList_ofList, List.mem_append]
    rintro (hmem | hmem)
    · exact not_mem_margin find hmem
    · exact hspaces hmem

theorem Find.IsAligned.trimLineFeeds_eq {find : Find} (h : find.IsAligned) :
    trimLineFeeds ((statementStart find.gap).takeWhile isBlank) = find.margin := by
  have hstart := isStatementStart_statementStart find.gap
  have hmargin : find.margin.all isBlank = true := List.all_takeWhile
  cases h with
  | line hfeeds hother =>
    rw [← hstart.unique hother,
      List.takeWhile_append_of_pos (List.all_eq_true.mp (all_isBlank_of_feeds hfeeds))]
    exact (trimLineFeeds_append_iff (not_mem_margin find)).mpr hfeeds
  | inside _ _ hrest hother =>
    rw [← hstart.unique hother, takeWhile_isBlank_of_head hmargin hrest]
    exact trimLineFeeds_of_not_mem (not_mem_margin find)
  | @above feeds others top hfeeds hothers htop hother =>
    have hblanks : (feeds ++ (find.margin ++ others)).all isBlank = true := by
      simp only [List.all_append, all_isBlank_of_feeds hfeeds, hmargin, all_isBlank_of_feeds hothers,
        Bool.and_self]
    have hhead : (top ++ '\n' :: find.line).head?.all (!isBlank ·) = true := by
      cases top with
      | nil => cases htop
      | cons c top => simpa using htop
    have heq : feeds ++ (find.margin ++ (others ++ (top ++ '\n' :: find.line))) =
        (feeds ++ (find.margin ++ others)) ++ (top ++ '\n' :: find.line) := by
      simp only [List.append_assoc]
    rw [← hstart.unique hother, heq, takeWhile_isBlank_of_head hblanks hhead]
    exact trimLineFeeds_of_feeds hfeeds hothers (not_mem_margin find)

/-- A statement that starts above its line starts with empty lines or with a word there. -/
theorem isAligned_of_above {find : Find} {top : List Char}
    (htrim : trimLineFeeds ((statementStart find.gap).takeWhile isBlank) = find.margin)
    (htop : top ++ find.line = statementStart find.gap)
    (hfeed : top = [] ∨ ∃ above, top = above ++ ['\n']) : find.IsAligned := by
  have hstart := isStatementStart_statementStart find.gap
  rw [← htop] at hstart htrim
  by_cases hall : top.all isBlank = true
  · rw [List.takeWhile_append_of_pos (List.all_eq_true.mp hall)] at htrim
    exact .line ((trimLineFeeds_append_iff (not_mem_margin find)).mp htrim) hstart
  · obtain rfl | ⟨above, rfl⟩ := hfeed
    · exact absurd rfl hall
    -- The line feed is a blank itself, so the word stands in front of it.
    have hsplit := List.takeWhile_append_dropWhile (p := isBlank) (l := above)
    have hhead := head?_dropWhile_isBlank above
    cases hrest : above.dropWhile isBlank with
    | nil =>
      rw [hrest, List.append_nil] at hsplit
      have hblank : above.all isBlank = true := hsplit ▸ List.all_takeWhile
      exact absurd (by rw [List.all_append, hblank]; decide) hall
    | cons c rest =>
      rw [hrest] at hsplit hhead
      have heq : above ++ ['\n'] ++ find.line =
          above.takeWhile isBlank ++ (c :: rest ++ '\n' :: find.line) := by
        rw [← List.append_assoc, hsplit, List.append_assoc]
        rfl
      rw [heq] at htrim hstart
      rw [takeWhile_isBlank_of_head List.all_takeWhile (by simpa using hhead)] at htrim
      obtain ⟨feeds, others, hfeeds, hothers, hblanks⟩ :=
        exists_of_trimLineFeeds (above.takeWhile isBlank)
      rw [htrim] at hblanks
      rw [hblanks, List.append_assoc, List.append_assoc] at hstart
      exact .above hfeeds hothers (by simpa using hhead) hstart

theorem isAligned_of_inside {find : Find} {before : List Char}
    (htrim : trimLineFeeds ((statementStart find.gap).takeWhile isBlank) = find.margin)
    (hbefore : before ++ statementStart find.gap = find.line) : find.IsAligned := by
  have hstart := isStatementStart_statementStart find.gap
  have hfeed : '\n' ∉ (statementStart find.gap).takeWhile isBlank := fun hmem ↦
    not_mem_lastLine _ (hbefore ▸ List.mem_append_right before ((List.takeWhile_sublist _).mem hmem))
  rw [trimLineFeeds_of_not_mem hfeed] at htrim
  have hsplit : find.margin ++ (statementStart find.gap).dropWhile isBlank = statementStart find.gap := by
    rw [← htrim, List.takeWhile_append_dropWhile]
  cases hall : before.all isBlank with
  | true =>
    -- The line starts with these blanks too, so there are none.
    have hmargin : find.margin = find.line.takeWhile isBlank := rfl
    rw [← hbefore, List.takeWhile_append_of_pos (List.all_eq_true.mp hall), htrim] at hmargin
    obtain rfl : before = [] := List.append_left_eq_self.mp hmargin.symm
    rw [show statementStart find.gap = [] ++ find.line from hbefore] at hstart
    exact .line List.all_nil hstart
  | false =>
    exact .inside hall (by rw [hsplit, hbefore]) (head?_dropWhile_isBlank _) (by rw [hsplit]; exact hstart)

theorem isAligned_iff (find : Find) :
    find.IsAligned ↔ trimLineFeeds ((statementStart find.gap).takeWhile isBlank) = find.margin := by
  refine ⟨Find.IsAligned.trimLineFeeds_eq, fun htrim ↦ ?_⟩
  have hstart := isStatementStart_statementStart find.gap
  obtain ⟨top, htext, htop⟩ := exists_lastLine (find.front ++ find.gap)
  have hsuffix := hstart.suffix.trans (List.suffix_append find.front find.gap)
  rcases List.suffix_or_suffix_of_suffix hsuffix ⟨top, htext.symm⟩ with ⟨before, hbefore⟩ | ⟨above, habove⟩
  · exact isAligned_of_inside htrim hbefore
  · obtain ⟨front, hfront⟩ := hsuffix
    refine isAligned_of_above htrim habove ?_
    have heq : front ++ above = top := by
      rw [← habove, ← List.append_assoc] at hfront
      exact List.append_cancel_right (hfront.trans htext)
    obtain rfl | ⟨init, last, rfl⟩ := List.eq_nil_or_concat above
    · exact .inl rfl
    · rcases htop with rfl | ⟨lines, rfl⟩
      · simp at heq
      · have hlast := congrArg List.getLast? heq
        rw [List.concat_eq_append, ← List.append_assoc, List.getLast?_concat, List.getLast?_concat] at hlast
        exact .inr ⟨init, by rw [List.concat_eq_append, Option.some.inj hlast]⟩

/-- The queries of a text are those that a plain scan finds.  The layout of a query is indented by the white
space of the line of its opening quotes exactly if the start of its statement is aligned with that line. -/
theorem isIndented_iff_isAligned (text : String) :
    ∃ finds, PlainScan [] text.toList finds ∧
      queries text = (finds.filter Find.holdsQuery).map Find.query ∧
      ∀ find ∈ finds, find.IsIndented find.query.indent ↔ find.IsAligned := by
  obtain ⟨finds, hscan, hsegments⟩ := exists_plainScan [] text.toList
  refine ⟨finds, hscan, queries_eq_map_query hsegments, fun find _ ↦ ?_⟩
  rw [isIndented_iff, isAligned_iff]

/-- A line of blanks above the statement stays in the indentation, with its line feed.  Where a statement
starts inside a line, the blanks in front of it are not those of the line. -/
theorem queries_below_blanks :
    queries " \n  x = \"\"\"select a\"\"\"\n" = [⟨"select a", "select a", " \n      "⟩] ∧
      '\n' ∈ " \n      ".toList ∧
      queries "  f(a, \"\"\"select b\"\"\")\n" = [⟨"select b", "select b", "     "⟩] ∧
      (lastLine "  f(a, ".toList).takeWhile isBlank = "  ".toList := by
  decide +kernel

end SqlLayout.Embedded
