import SqlLayout.Proofs.Embedded

/-!
# Segments found by a plain scan

Segments are looked for together with the start of the statement that their quotes belong to.  Where they
stand does not depend on it: the segments are those of a plain scan from left to right for three quotes that
occur again further on.  The start of the statement is the longest stretch in front of the quotes that has
the form of one, and it gives the blanks of the segment.
-/

namespace SqlLayout.Embedded

open Text

/-! ### The plain scan -/

def triple (quote : Char) : List Char :=
  [quote, quote, quote]

/-- Texts that start with three equal quotes which occur again behind them. -/
def Opens (text : List Char) : Prop :=
  ∃ quote rest, (quote = '"' ∨ quote = '\'') ∧ text = triple quote ++ rest ∧ triple quote <:+: rest

/-- A segment at its place: the text up to the end of the segment before it, what stands between that and
its opening quotes, its quote, and what stands between its quotes. -/
structure Find where
  front : List Char
  gap : List Char
  quote : Char
  body : List Char

/-- The opening quotes of a segment, what stands between its quotes, its closing quotes and the rest. -/
def enclosed (quote : Char) (body rest : List Char) : List Char :=
  triple quote ++ (body ++ (triple quote ++ rest))

/-- The scan of a text behind `front`.  At every turn it takes the first place where three quotes stand that
occur again, and goes on behind their next occurrence. -/
inductive PlainScan : (front text : List Char) → List Find → Prop
  | done {front text : List Char} :
      (∀ before back, text = before ++ back → ¬Opens back) → PlainScan front text []
  | found {front gap body rest : List Char} {quote : Char} {finds : List Find} :
      quote = '"' ∨ quote = '\'' →
      (∀ before back, gap = before ++ back → back ≠ [] → ¬Opens (back ++ enclosed quote body rest)) →
      ¬triple quote <:+: body ++ [quote, quote] →
      PlainScan (front ++ gap ++ triple quote ++ body ++ triple quote) rest finds →
      PlainScan front (gap ++ enclosed quote body rest) (⟨front, gap, quote, body⟩ :: finds)

section Closing

variable {quote : Char} {text body rest gap : List Char}

theorem upToTriple?_eq_none_iff : upToTriple? quote text = none ↔ ¬triple quote <:+: text := by
  induction text with
  | nil => simp [upToTriple?, triple]
  | cons c rest ih =>
    rw [upToTriple?, List.infix_cons_iff, ← List.isPrefixOf_iff_prefix, ← triple]
    by_cases hstarts : (triple quote).isPrefixOf (c :: rest) = true
    · simp [hstarts]
    · simp [hstarts, ih]

/-- What stands in front of the next triple quote does not run into one. -/
theorem not_infix_of_upToTriple? (h : upToTriple? quote text = some body) :
    ¬triple quote <:+: body ++ [quote, quote] := by
  induction text generalizing body with
  | nil => cases h
  | cons c rest ih =>
    rw [upToTriple?, ← triple] at h
    split at h
    · cases h
      intro hinfix
      have hlength := hinfix.length_le
      simp [triple] at hlength
    · next hstarts =>
      obtain ⟨inner, hinner, rfl⟩ := Option.map_eq_some_iff.mp h
      rw [List.cons_append, List.infix_cons_iff]
      rintro (hfirst | hlater)
      · obtain ⟨tail, rfl⟩ := upToTriple?_eq_some hinner
        apply hstarts
        rw [List.isPrefixOf_iff_prefix]
        refine hfirst.trans ?_
        have hsplit : c :: (inner ++ quote :: quote :: quote :: tail) =
            c :: (inner ++ [quote, quote]) ++ quote :: tail := by simp
        rw [hsplit]
        exact List.prefix_append _ _
      · exact ih hinner hlater

theorem upToTriple?_append (h : ¬triple quote <:+: body ++ [quote, quote]) (rest : List Char) :
    upToTriple? quote (body ++ (triple quote ++ rest)) = some body := by
  induction body with
  | nil => simp [upToTriple?, triple]
  | cons c body ih =>
    have hstarts : ¬(triple quote).isPrefixOf (c :: (body ++ (triple quote ++ rest))) = true := by
      rw [List.isPrefixOf_iff_prefix]
      intro hstarts
      have hmore : c :: body ++ [quote, quote] <+: c :: (body ++ (triple quote ++ rest)) :=
        ⟨quote :: rest, by simp [triple]⟩
      have hshort : triple quote <+: c :: body ++ [quote, quote] :=
        List.prefix_of_prefix_length_le hstarts hmore (by simp [triple])
      exact h hshort.isInfix
    have hbody : ¬triple quote <:+: body ++ [quote, quote] := by
      intro hinfix
      exact h (List.infix_cons hinfix)
    rw [List.cons_append, upToTriple?, ← triple, if_neg hstarts, ih hbody]
    rfl

theorem opens_enclosed (hquote : quote = '"' ∨ quote = '\'') (body rest : List Char) :
    Opens (enclosed quote body rest) :=
  ⟨quote, _, hquote, rfl, ⟨body, rest, List.append_assoc _ _ _⟩⟩

theorem tripleQuote?_triple (hquote : quote = '"' ∨ quote = '\'') (rest : List Char) :
    tripleQuote? (triple quote ++ rest) = some (quote, rest) := by
  rcases hquote with rfl | rfl <;> rfl

theorem isQuote_of_tripleQuote? (h : tripleQuote? text = some (quote, rest)) :
    quote = '"' ∨ quote = '\'' := by
  unfold tripleQuote? at h
  split at h
  · cases h
    exact .inl rfl
  · cases h
    exact .inr rfl
  · cases h

/-- A text either has no quotes that open, or it has first ones. -/
theorem exists_first_opening (text : List Char) :
    (∀ before back, text = before ++ back → ¬Opens back) ∨
      ∃ gap quote body rest, text = gap ++ enclosed quote body rest ∧ (quote = '"' ∨ quote = '\'') ∧
        (∀ before back, gap = before ++ back → back ≠ [] → ¬Opens (back ++ enclosed quote body rest)) ∧
        ¬triple quote <:+: body ++ [quote, quote] := by
  induction text with
  | nil =>
    left
    rintro before back hnil ⟨quote, rest, -, htext, -⟩
    obtain ⟨-, rfl⟩ := List.append_eq_nil_iff.mp hnil.symm
    cases htext
  | cons c text ih =>
    by_cases hopens : Opens (c :: text)
    · right
      obtain ⟨quote, rest, hquote, htext, hinfix⟩ := hopens
      cases hbody : upToTriple? quote rest with
      | none => exact absurd hinfix (upToTriple?_eq_none_iff.mp hbody)
      | some body =>
        obtain ⟨tail, htail⟩ := upToTriple?_eq_some hbody
        refine ⟨[], quote, body, tail, ?_, hquote, ?_, not_infix_of_upToTriple? hbody⟩
        · rw [htext, htail]
          rfl
        · intro before back hnil hback
          exact absurd (List.append_eq_nil_iff.mp hnil.symm).2 hback
    · rcases ih with hnone | ⟨gap, quote, body, rest, htext, hquote, hfirst, hbody⟩
      · left
        intro before back hsplit
        cases before with
        | nil =>
          rw [List.nil_append] at hsplit
          rwa [← hsplit]
        | cons d before => exact hnone before back (List.cons.inj hsplit).2
      · right
        refine ⟨c :: gap, quote, body, rest, by rw [htext]; rfl, hquote, ?_, hbody⟩
        intro before back hsplit hback
        cases before with
        | nil =>
          rw [List.nil_append] at hsplit
          rwa [← hsplit, List.cons_append, ← htext]
        | cons d before => exact hfirst before back (List.cons.inj hsplit).2 hback

end Closing

section Unique

variable {quote other : Char} {gap body rest gap₁ body₁ rest₁ : List Char}

/-- Of two first places neither stands in front of the other. -/
theorem gap_unique (hquote : quote = '"' ∨ quote = '\'')
    (hother : ∀ before back, gap₁ = before ++ back → back ≠ [] → ¬Opens (back ++ enclosed other body₁ rest₁))
    {more : List Char} (hgap : gap₁ = gap ++ more)
    (htext : enclosed quote body rest = more ++ enclosed other body₁ rest₁) : more = [] := by
  refine Classical.not_not.mp fun hmore ↦ hother gap more hgap hmore ?_
  rw [← htext]
  exact opens_enclosed hquote body rest

theorem enclosed_inj (hbody : ¬triple quote <:+: body ++ [quote, quote])
    (hbody₁ : ¬triple other <:+: body₁ ++ [other, other])
    (h : enclosed quote body rest = enclosed other body₁ rest₁) :
    quote = other ∧ body = body₁ ∧ rest = rest₁ := by
  obtain rfl : quote = other := (List.cons.inj h).1
  have htail : body ++ (triple quote ++ rest) = body₁ ++ (triple quote ++ rest₁) := List.append_cancel_left h
  have hfound := upToTriple?_append hbody rest
  rw [htail, upToTriple?_append hbody₁ rest₁] at hfound
  obtain rfl := Option.some.inj hfound
  exact ⟨rfl, rfl, List.append_cancel_left (List.append_cancel_left htail)⟩

end Unique

theorem PlainScan.unique {front text : List Char} {finds others : List Find}
    (h : PlainScan front text finds) (hothers : PlainScan front text others) : others = finds := by
  induction h generalizing others with
  | done hnone =>
    cases hothers with
    | done _ => rfl
    | found hquote _ _ _ => exact absurd (opens_enclosed hquote _ _) (hnone _ _ rfl)
  | @found front gap body rest quote finds hquote hfirst hbody _ ih =>
    generalize htext : gap ++ enclosed quote body rest = text at hothers
    cases hothers with
    | done hnone => exact absurd (opens_enclosed hquote _ _) (hnone _ _ htext.symm)
    | @found _ gap₁ body₁ rest₁ other others hother hfirst₁ hbody₁ hrest₁ =>
      have hgap : gap = gap₁ := by
        rcases List.append_eq_append_iff.mp htext with ⟨more, hmore, hback⟩ | ⟨more, hmore, hback⟩
        · rw [hmore, gap_unique hquote hfirst₁ hmore hback, List.append_nil]
        · rw [hmore, gap_unique hother hfirst hmore hback, List.append_nil]
      subst hgap
      obtain ⟨rfl, rfl, rfl⟩ := enclosed_inj hbody hbody₁ (List.append_cancel_left htext)
      rw [ih hrest₁]

/-! ### Starts of statements -/

/-- Texts made of one run of characters for each class, in order.  A run may be empty. -/
inductive Runs : List (Char → Bool) → List Char → Prop
  | nil : Runs [] []
  | run {p : Char → Bool} {classes : List (Char → Bool)} {run rest : List Char} :
      run.all p = true → Runs classes rest → Runs (p :: classes) (run ++ rest)

/-- What the start of a statement is made of: blanks, a name, blanks, equal signs, blanks, another name,
blanks and opening parentheses. -/
def startClasses : List (Char → Bool) :=
  [isBlank, isNameChar, isBlank, (· == '='), isBlank, isNameChar, isBlank, (· == '(')]

def afterRuns (classes : List (Char → Bool)) (text : List Char) : List Char :=
  classes.foldl (fun rest p ↦ rest.dropWhile p) text

theorem afterStatementStart_eq (text : List Char) :
    afterStatementStart text = afterRuns startClasses text := rfl

theorem Runs.of_suffix {classes : List (Char → Bool)} {text tail : List Char} (h : Runs classes text)
    (htail : tail <:+ text) : Runs classes tail := by
  induction h generalizing tail with
  | nil =>
    obtain rfl := List.suffix_nil.mp htail
    exact .nil
  | @run p classes run rest hrun _ ih =>
    obtain ⟨before, hbefore⟩ := htail
    rcases List.append_eq_append_iff.mp hbefore with ⟨more, rfl, rfl⟩ | ⟨more, rfl, rfl⟩
    · rw [List.all_append, Bool.and_eq_true] at hrun
      exact .run hrun.2 ‹_›
    · have hempty : ([] : List Char).all p = true := rfl
      exact .run hempty (ih (List.suffix_append _ _))

/-- Taking the longest run of each class finds out whether a text is made of such runs. -/
theorem runs_iff {classes : List (Char → Bool)} {text : List Char} :
    Runs classes text ↔ afterRuns classes text = [] := by
  induction classes generalizing text with
  | nil =>
    constructor
    · rintro ⟨⟩
      rfl
    · rintro rfl
      exact .nil
  | cons p classes ih =>
    rw [afterRuns, List.foldl_cons, ← afterRuns, ← ih]
    constructor
    · rintro (_ | ⟨hrun, hrest⟩)
      rw [List.dropWhile_append_of_pos (List.all_eq_true.mp hrun)]
      exact hrest.of_suffix (List.dropWhile_suffix p)
    · intro hrest
      rw [← List.takeWhile_append_dropWhile (p := p) (l := text)]
      exact .run List.all_takeWhile hrest

def statementStart : List Char → List Char
  | [] => []
  | c :: rest =>
    if (afterStatementStart (c :: rest)).isEmpty then c :: rest else statementStart rest

/-- `start` is the longest end of `gap` that has the form of the start of a statement. -/
structure IsStatementStart (gap start : List Char) : Prop where
  suffix : start <:+ gap
  runs : Runs startClasses start
  longest : ∀ other, other <:+ gap → Runs startClasses other → other <:+ start

theorem isStatementStart_statementStart (gap : List Char) :
    IsStatementStart gap (statementStart gap) := by
  induction gap with
  | nil =>
    have hnil : Runs startClasses [] := runs_iff.mpr rfl
    exact ⟨List.suffix_rfl, hnil, fun other hother _ ↦ hother⟩
  | cons c rest ih =>
    rw [statementStart]
    split
    · next hstart =>
      rw [List.isEmpty_iff, afterStatementStart_eq] at hstart
      exact ⟨List.suffix_rfl, runs_iff.mpr hstart, fun other hother _ ↦ hother⟩
    · next hstart =>
      refine ⟨ih.suffix.trans (List.suffix_cons c rest), ih.runs, ?_⟩
      intro other hother hruns
      rcases List.suffix_cons_iff.mp hother with rfl | hother
      · rw [runs_iff, ← afterStatementStart_eq, ← List.isEmpty_iff] at hruns
        exact absurd hruns hstart
      · exact ih.longest other hother hruns

/-! ### The segments of a scan -/

def Find.segment (find : Find) : Segment :=
  ⟨(statementStart find.gap).takeWhile isBlank, find.body⟩

section Scan

variable {quote : Char} {text body rest gap : List Char}

theorem segmentsFrom_skip (skip : Nat) (text : List Char) :
    segmentsFrom skip text = segmentsFrom 0 (text.drop skip) := by
  induction text generalizing skip with
  | nil => simp [segmentsFrom]
  | cons c rest ih =>
    cases skip with
    | zero => rfl
    | succ skip => simp [segmentsFrom, ih skip]

theorem dropWhile_append_of_head {p : Char → Bool} (hquote : p quote = false) (text rest : List Char) :
    (text ++ quote :: rest).dropWhile p = text.dropWhile p ++ quote :: rest := by
  rw [List.dropWhile_append]
  split
  · next hempty =>
    rw [List.isEmpty_iff.mp hempty, List.dropWhile_cons_of_neg (by simp [hquote])]
    rfl
  · rfl

theorem afterRuns_append {classes : List (Char → Bool)} (h : ∀ p ∈ classes, p quote = false)
    (text rest : List Char) :
    afterRuns classes (text ++ quote :: rest) = afterRuns classes text ++ quote :: rest := by
  induction classes generalizing text with
  | nil => rfl
  | cons p classes ih =>
    obtain ⟨hp, hclasses⟩ := List.forall_mem_cons.mp h
    rw [afterRuns, List.foldl_cons, dropWhile_append_of_head hp]
    exact ih hclasses _

theorem startClasses_quote (hquote : quote = '"' ∨ quote = '\'') :
    ∀ p ∈ startClasses, p quote = false := by
  rcases hquote with rfl | rfl <;> decide

/-- The start of a statement ends in front of the first quote. -/
theorem afterStatementStart_append (hquote : quote = '"' ∨ quote = '\'') (text rest : List Char) :
    afterStatementStart (text ++ quote :: rest) = afterStatementStart text ++ quote :: rest :=
  afterRuns_append (startClasses_quote hquote) text rest

theorem opens_of_segmentAt? {found : Segment × Nat} (h : segmentAt? text = some found) :
    Opens (afterStatementStart text) := by
  simp only [segmentAt?, Option.bind_eq_bind, Option.bind_eq_some_iff] at h
  obtain ⟨⟨quote, rest⟩, hquote, body, hbody, -⟩ := h
  dsimp only at hbody
  obtain ⟨tail, rfl⟩ := upToTriple?_eq_some hbody
  refine ⟨quote, _, isQuote_of_tripleQuote? hquote, tripleQuote?_eq_some hquote, ?_⟩
  exact ⟨body, tail, by simp [triple]⟩

theorem segmentsFrom_of_done (h : ∀ before back, text = before ++ back → ¬Opens back) :
    segmentsFrom 0 text = [] := by
  induction text with
  | nil => rfl
  | cons c rest ih =>
    have hnone : segmentAt? (c :: rest) = none := by
      cases hsegment : segmentAt? (c :: rest) with
      | none => rfl
      | some found =>
        obtain ⟨before, hbefore⟩ := afterStatementStart_suffix (c :: rest)
        exact absurd (opens_of_segmentAt? hsegment) (h before _ hbefore.symm)
    rw [segmentsFrom, hnone]
    exact ih fun before back hsplit ↦ h (c :: before) back (by rw [hsplit]; rfl)

theorem takeWhile_isBlank_append (hquote : quote = '"' ∨ quote = '\'') (text rest : List Char) :
    (text ++ quote :: rest).takeWhile isBlank = text.takeWhile isBlank := by
  have hblank : isBlank quote = false := by rcases hquote with rfl | rfl <;> decide
  rw [List.takeWhile_append, List.takeWhile_cons_of_neg (by simp [hblank]), List.append_nil]
  split
  · next hlength => exact ((List.takeWhile_prefix isBlank).eq_of_length hlength).symm
  · rfl

/-- Where a statement starts right in front of the quotes, the segment is found. -/
theorem segmentAt?_of_start (hquote : quote = '"' ∨ quote = '\'')
    (hbody : ¬triple quote <:+: body ++ [quote, quote]) (hstart : afterStatementStart gap = [])
    (rest : List Char) :
    segmentAt? (gap ++ enclosed quote body rest) =
      some (⟨gap.takeWhile isBlank, body⟩, gap.length + (body.length + 6)) := by
  have hafter : afterStatementStart (gap ++ enclosed quote body rest) = enclosed quote body rest := by
    rw [enclosed, triple, List.cons_append, afterStatementStart_append hquote, hstart]
    rfl
  have hblanks : (gap ++ enclosed quote body rest).takeWhile isBlank = gap.takeWhile isBlank :=
    takeWhile_isBlank_append hquote gap _
  have hlength : (gap ++ enclosed quote body rest).length - (body ++ (triple quote ++ rest)).length +
      body.length + 3 = gap.length + (body.length + 6) := by
    simp only [enclosed, triple, List.length_append, List.length_cons, List.length_nil]
    omega
  rw [segmentAt?, hafter, hblanks, hlength.symm, enclosed, tripleQuote?_triple hquote]
  simp only [Option.bind_eq_bind, Option.bind_some, upToTriple?_append hbody, Option.pure_def]

theorem segmentsFrom_of_start (hquote : quote = '"' ∨ quote = '\'')
    (hbody : ¬triple quote <:+: body ++ [quote, quote]) (hstart : afterStatementStart gap = []) :
    segmentsFrom 0 (gap ++ enclosed quote body rest) =
      ⟨gap.takeWhile isBlank, body⟩ :: segmentsFrom 0 rest := by
  have hsegment := segmentAt?_of_start hquote hbody hstart rest
  have hrest : (gap ++ enclosed quote body rest).drop (gap.length + (body.length + 6)) = rest := by
    have hsplit : gap ++ enclosed quote body rest =
        gap ++ triple quote ++ body ++ triple quote ++ rest := by simp [enclosed]
    rw [hsplit]
    exact List.drop_left' (by simp only [triple, List.length_append, List.length_cons, List.length_nil]; omega)
  cases htext : gap ++ enclosed quote body rest with
  | nil =>
    rw [htext] at hsegment
    cases hsegment
  | cons c tail =>
    rw [htext] at hsegment hrest
    rw [segmentsFrom, hsegment]
    dsimp only
    rw [segmentsFrom_skip, ← hrest]
    rfl

/-- The induction is on what stands in front of the quotes, which is passed over up to the start of their
statement. -/
theorem segmentsFrom_of_found (hquote : quote = '"' ∨ quote = '\'')
    (hfirst : ∀ before back, gap = before ++ back → back ≠ [] → ¬Opens (back ++ enclosed quote body rest))
    (hbody : ¬triple quote <:+: body ++ [quote, quote]) :
    segmentsFrom 0 (gap ++ enclosed quote body rest) =
      ⟨(statementStart gap).takeWhile isBlank, body⟩ :: segmentsFrom 0 rest := by
  induction gap with
  | nil => exact segmentsFrom_of_start hquote hbody rfl
  | cons c gap ih =>
    rw [statementStart]
    split
    · next hstart => exact segmentsFrom_of_start hquote hbody (List.isEmpty_iff.mp hstart)
    · next hstart =>
      have hnone : segmentAt? (c :: (gap ++ enclosed quote body rest)) = none := by
        cases hsegment : segmentAt? (c :: (gap ++ enclosed quote body rest)) with
        | none => rfl
        | some found =>
          -- The quotes it would find stand in front of the first ones.
          have hopens := opens_of_segmentAt? hsegment
          obtain ⟨before, hbefore⟩ := afterStatementStart_suffix (c :: gap)
          have hafter : afterStatementStart (c :: (gap ++ enclosed quote body rest)) =
              afterStatementStart (c :: gap) ++ enclosed quote body rest :=
            afterStatementStart_append hquote (c :: gap) _
          rw [hafter] at hopens
          exact absurd hopens (hfirst before _ hbefore.symm (by simpa using hstart))
      rw [List.cons_append, segmentsFrom, hnone]
      exact ih fun before back hsplit ↦ hfirst (c :: before) back (by rw [hsplit]; rfl)

/-- A text has a scan, and its segments are those of the scan. -/
theorem exists_plainScan (front text : List Char) :
    ∃ finds, PlainScan front text finds ∧ segmentsFrom 0 text = finds.map Find.segment := by
  rcases exists_first_opening text with hnone | ⟨gap, quote, body, rest, htext, hquote, hfirst, hbody⟩
  · exact ⟨[], .done hnone, segmentsFrom_of_done hnone⟩
  · obtain ⟨finds, hscan, hsegments⟩ :=
      exists_plainScan (front ++ gap ++ triple quote ++ body ++ triple quote) rest
    subst htext
    refine ⟨_, .found hquote hfirst hbody hscan, ?_⟩
    rw [segmentsFrom_of_found hquote hfirst hbody, hsegments]
    rfl
termination_by text.length
decreasing_by
  simp only [htext, enclosed, triple, List.length_append, List.length_cons, List.length_nil]
  omega

end Scan

/-! ### Queries -/

def Find.holdsQuery (find : Find) : Bool :=
  (Text.pieces (String.ofList find.body)).head?.any fun word ↦
    word.toList.map Char.toLower = "select".toList || word.toList.map Char.toLower = "insert".toList

def Find.query (find : Find) : Query :=
  ⟨String.ofList find.body, " ".intercalate (Text.pieces (String.ofList find.body)),
    String.ofList (trimLineFeeds ((statementStart find.gap).takeWhile isBlank)) ++ "    "⟩

theorem startsQuery_eq : startsQuery = fun word ↦
    word.toList.map Char.toLower = "select".toList || word.toList.map Char.toLower = "insert".toList := by
  funext word
  have hlist : ∀ letters : String, String.ofList (word.toList.map Char.toLower) = letters ↔
      word.toList.map Char.toLower = letters.toList := by
    intro letters
    rw [← String.toList_inj, String.toList_ofList]
  simp only [startsQuery, hlist]

theorem query?_segment (find : Find) :
    find.segment.query? = if find.holdsQuery then some find.query else none := by
  have hholds : find.holdsQuery = (firstPiece? (String.ofList find.body)).any startsQuery := by
    rw [startsQuery_eq]
    rfl
  rw [hholds, Segment.query?]
  dsimp only [Find.segment]
  cases firstPiece? (String.ofList find.body) with
  | none => rfl
  | some word => rfl

/-- The queries of a text are those of the segments that its scan finds. -/
theorem queries_eq_map_query {text : String} {finds : List Find}
    (hsegments : segmentsFrom 0 text.toList = finds.map Find.segment) :
    queries text = (finds.filter Find.holdsQuery).map Find.query := by
  rw [queries, segments, hsegments]
  clear hsegments
  induction finds with
  | nil => rfl
  | cons find finds ih =>
    rw [List.map_cons, List.filterMap_cons, query?_segment, List.filter_cons]
    cases hfind : find.holdsQuery with
    | true => simp only [if_true, List.map_cons, ih]
    | false => simp only [Bool.false_eq_true, if_false, ih]

/-- The queries of a text are found by a plain scan, whatever stands in front of their quotes. -/
theorem queries_eq_plainScan (text : String) :
    ∃ finds, PlainScan [] text.toList finds ∧
      (∀ others, PlainScan [] text.toList others → others = finds) ∧
      (queries text).map (fun query ↦ (query.source, query.sql)) =
        (finds.filter Find.holdsQuery).map fun find ↦
          (String.ofList find.body, " ".intercalate (Text.pieces (String.ofList find.body))) := by
  obtain ⟨finds, hscan, hsegments⟩ := exists_plainScan [] text.toList
  refine ⟨finds, hscan, fun others hothers ↦ hscan.unique hothers, ?_⟩
  rw [queries_eq_map_query hsegments, List.map_map]
  rfl

end SqlLayout.Embedded
