import SqlLayout.Source
import SqlLayout.Proofs.Embedded
import SqlLayout.Proofs.Source

/-!
# Rewriting the queries of a Python text

The layout of a query takes the place of all text that reads like the query.  As long as at the turn of
each query this text is found only where it is what a segment holds, every segment gets its own layout
and nothing else changes.
-/

namespace SqlLayout.Embedded

open Text

/-- What a piece becomes: the layout of its query, if it has one that can be formatted. -/
def Piece.laidOut (piece : Piece) : List Char :=
  match piece.query? with
  | none => piece.text
  | some query =>
    match format query.sql with
    | .ok lines => (query.layout lines).toList
    | .error _ => piece.text

/-- A text in which every query that can be formatted has its layout in place of what stands between
its quotes, and all else is as it was. -/
def laidOut (text : String) : String :=
  String.ofList ((pieces text).flatMap Piece.laidOut)

structure Part where
  now : List Char
  goal : List Char
deriving DecidableEq, Repr

/-- Gives a part its layout if it has to become `new` and still reads `old`. -/
def Part.lay (old new : List Char) (part : Part) : Part :=
  if part = ⟨old, new⟩ then ⟨new, new⟩ else part

/-- Whether a text is found from some character on in front of `after`. -/
def startsIn (old after : List Char) : List Char → Bool
  | [] => false
  | c :: rest => old.isPrefixOf (c :: rest ++ after) || startsIn old after rest

def strays (old new : List Char) : List Part → Bool
  | [] => false
  | part :: parts =>
    part ≠ ⟨old, new⟩ && startsIn old (parts.flatMap Part.now) part.now || strays old new parts

/-- Whether every query, when its turn comes, is found only in the parts that have to become its
layout. -/
def areApart : List Query → List Part → Bool
  | [], _ => true
  | query :: queries, parts =>
    match format query.sql with
    | .error _ => areApart queries parts
    | .ok lines =>
      let new := query.layout lines
      (query.source = new || !strays query.source.toList new.toList parts) &&
        areApart queries (parts.map (Part.lay query.source.toList new.toList))

def parts (text : String) : List Part :=
  (pieces text).map fun piece ↦ ⟨piece.text, piece.laidOut⟩

theorem replaceFrom_skip (old new : List Char) (skip : Nat) (text : List Char) :
    replaceFrom old new skip text = replaceFrom old new 0 (text.drop skip) := by
  induction text generalizing skip with
  | nil => simp [replaceFrom]
  | cons c rest ih =>
    cases skip with
    | zero => rfl
    | succ skip => simp [replaceFrom, ih skip]

theorem replaceFrom_append_self {old : List Char} (hold : old ≠ []) (new rest : List Char) :
    replaceFrom old new 0 (old ++ rest) = new ++ replaceFrom old new 0 rest := by
  cases old with
  | nil => exact absurd rfl hold
  | cons c old =>
    have hprefix : (c :: old).isPrefixOf (c :: (old ++ rest)) = true := by simp
    rw [List.cons_append, replaceFrom, if_pos hprefix, replaceFrom_skip]
    simp

theorem replaceFrom_append_of_not_startsIn {old : List Char} (new : List Char)
    {rest text : List Char} (h : startsIn old rest text = false) :
    replaceFrom old new 0 (text ++ rest) = text ++ replaceFrom old new 0 rest := by
  induction text with
  | nil => rfl
  | cons c text ih =>
    simp only [startsIn, Bool.or_eq_false_iff] at h
    have hprefix : ¬ old.isPrefixOf (c :: (text ++ rest)) = true := by
      simpa only [List.cons_append, Bool.not_eq_true] using h.1
    rw [List.cons_append, replaceFrom, if_neg hprefix, ih h.2, List.cons_append]

/-- Replacing a text by itself changes nothing. -/
theorem replaceFrom_self {old : List Char} (hold : old ≠ []) (skip : Nat) (text : List Char) :
    replaceFrom old old skip text = text.drop skip := by
  induction text generalizing skip with
  | nil => simp [replaceFrom]
  | cons c rest ih =>
    cases skip with
    | succ skip => simp [replaceFrom, ih]
    | zero =>
      rw [replaceFrom]
      split
      · rename_i hprefix
        obtain ⟨tail, htail⟩ := List.isPrefixOf_iff_prefix.mp hprefix
        obtain ⟨first, old, rfl⟩ := List.exists_cons_of_ne_nil hold
        rw [List.cons_append, List.cons.injEq] at htail
        obtain ⟨rfl, rfl⟩ := htail
        simp [ih]
      · simp [ih]

/-- Without strays just the parts that have to be replaced are. -/
theorem replaceFrom_parts {old new : List Char} (hold : old ≠ []) {parts : List Part}
    (h : strays old new parts = false) :
    replaceFrom old new 0 (parts.flatMap Part.now) =
      (parts.map (Part.lay old new)).flatMap Part.now := by
  induction parts with
  | nil => rfl
  | cons part parts ih =>
    simp only [strays, Bool.or_eq_false_iff] at h
    rw [List.flatMap_cons, List.map_cons, List.flatMap_cons, ← ih h.2]
    by_cases hpart : part = ⟨old, new⟩
    · rw [Part.lay, if_pos hpart, hpart]
      exact replaceFrom_append_self hold new _
    · rw [Part.lay, if_neg hpart]
      exact replaceFrom_append_of_not_startsIn new (by simpa [hpart] using h.1)

theorem source_of_query? {segment : Segment} {query : Query} (h : segment.query? = some query) :
    query.source.toList = segment.body ∧ query.source.toList ≠ [] := by
  simp only [Segment.query?] at h
  split at h
  · cases h
  · rename_i word hword
    split at h
    · cases h
      refine ⟨by simp, fun hempty ↦ ?_⟩
      have hbody : segment.body = [] := by simpa using hempty
      rw [hbody] at hword
      cases hword
    · cases h

def Part.Settles (queries : List Query) (part : Part) : Prop :=
  part.now = part.goal ∨ ∃ query ∈ queries, ∃ lines, format query.sql = .ok lines ∧
    part = ⟨query.source.toList, (query.layout lines).toList⟩

theorem Part.Settles.of_invalid {query : Query} {queries : List Query} {part : Part}
    {fault : Fault} (hfault : format query.sql = .error fault)
    (h : part.Settles (query :: queries)) : part.Settles queries := by
  obtain hdone | ⟨other, hmem, lines, hlines, hpart⟩ := h
  · exact .inl hdone
  · obtain rfl | hmem := List.mem_cons.mp hmem
    · simp [hfault] at hlines
    · exact .inr ⟨other, hmem, lines, hlines, hpart⟩

theorem Part.Settles.lay {query : Query} {queries : List Query} {part : Part}
    {lines : List String} (hlines : format query.sql = .ok lines)
    (h : part.Settles (query :: queries)) :
    (part.lay query.source.toList (query.layout lines).toList).Settles queries := by
  by_cases hpart : part = ⟨query.source.toList, (query.layout lines).toList⟩
  · rw [Part.lay, if_pos hpart]
    exact .inl rfl
  · rw [Part.lay, if_neg hpart]
    obtain hdone | ⟨other, hmem, found, hfound, hother⟩ := h
    · exact .inl hdone
    · obtain rfl | hmem := List.mem_cons.mp hmem
      · cases hlines.symm.trans hfound
        exact absurd hother hpart
      · exact .inr ⟨other, hmem, found, hfound, hother⟩

/-- One turn: the layout of a query that is found nowhere else is given to its parts. -/
theorem replaceAll_parts {old new : String} {parts : List Part} (hold : old.toList ≠ [])
    (h : old = new ∨ strays old.toList new.toList parts = false) :
    replaceAll old new (String.ofList (parts.flatMap Part.now)) =
      String.ofList ((parts.map (Part.lay old.toList new.toList)).flatMap Part.now) := by
  simp only [replaceAll, String.toList_ofList]
  obtain rfl | hstrays := h
  · have hlay : parts.map (Part.lay old.toList old.toList) = parts := by
      refine List.map_id'' (fun part ↦ ?_) parts
      simp only [Part.lay]
      split <;> simp_all
    rw [replaceFrom_self hold, hlay, List.drop_zero]
  · rw [replaceFrom_parts hold hstrays]

theorem goal_lay (old new : List Char) (parts : List Part) :
    (parts.map (Part.lay old new)).flatMap Part.goal = parts.flatMap Part.goal := by
  rw [List.flatMap_map]
  congr 1
  funext part
  simp only [Part.lay]
  split <;> simp_all

theorem now_eq_goal {parts : List Part} (h : ∀ part ∈ parts, part.Settles []) :
    parts.flatMap Part.now = parts.flatMap Part.goal := by
  rw [List.flatMap_def, List.flatMap_def]
  refine congrArg List.flatten (List.map_congr_left fun part hpart ↦ ?_)
  simpa [Part.Settles] using h part hpart

/-- All turns: queries that are apart give every part what it has to become. -/
theorem layout_layOutQueries_parts (debug : Bool) {queries : List Query} {parts : List Part}
    (hsource : ∀ query ∈ queries, query.source.toList ≠ [])
    (hvalid : ∀ query ∈ queries, ∀ fault, format query.sql = .error fault → fault.isInvalid = true)
    (hsettles : ∀ part ∈ parts, part.Settles queries) (h : areApart queries parts = true) :
    (layOutQueries debug queries (String.ofList (parts.flatMap Part.now))).layout =
      .ok (some (String.ofList (parts.flatMap Part.goal))) := by
  -- A query leaves behind parts that the later queries settle.
  induction queries generalizing parts with
  | nil => rw [now_eq_goal hsettles, layOutQueries]
  | cons query queries ih =>
    have hsource' := fun later hmem ↦ hsource later (List.mem_cons_of_mem query hmem)
    have hvalid' := fun later hmem ↦ hvalid later (List.mem_cons_of_mem query hmem)
    rw [layout_layOutQueries_cons]
    rw [areApart] at h
    cases hformat : format query.sql with
    | error fault =>
      simp only [hformat] at h
      simp only [hvalid query (by simp) fault hformat, if_true]
      exact ih hsource' hvalid' (fun part hpart ↦ (hsettles part hpart).of_invalid hformat) h
    | ok lines =>
      simp only [hformat, Bool.and_eq_true, Bool.or_eq_true, decide_eq_true_eq,
        Bool.not_eq_true'] at h
      obtain ⟨hfound, hrest⟩ := h
      have hlaid : ∀ part ∈ parts.map (Part.lay query.source.toList (query.layout lines).toList),
          part.Settles queries := by
        intro part hpart
        obtain ⟨before, hbefore, rfl⟩ := List.mem_map.mp hpart
        exact (hsettles before hbefore).lay hformat
      dsimp only
      rw [replaceAll_parts (hsource query (by simp)) hfound,
        ih hsource' hvalid' hlaid hrest, goal_lay]

theorem now_parts (text : String) : String.ofList ((parts text).flatMap Part.now) = text := by
  rw [parts, List.flatMap_map, pieces]
  simpa using congrArg String.ofList (text_piecesFrom 0 text.toList)

theorem goal_parts (text : String) :
    String.ofList ((parts text).flatMap Part.goal) = laidOut text := by
  rw [parts, List.flatMap_map, laidOut]

theorem mem_queries_iff {text : String} {query : Query} :
    query ∈ queries text ↔ ∃ piece ∈ pieces text, piece.query? = some query := by
  rw [queries, segments, ← query?_piecesFrom, List.mem_filterMap]
  rfl

theorem source_of_mem_queries {text : String} {query : Query} (h : query ∈ queries text) :
    query.source.toList ≠ [] := by
  obtain ⟨segment, -, hquery⟩ := List.mem_filterMap.mp h
  exact (source_of_query? hquery).2

theorem settles_parts (text : String) : ∀ part ∈ parts text, part.Settles (queries text) := by
  intro part hpart
  obtain ⟨piece, hpiece, rfl⟩ := List.mem_map.mp hpart
  cases hquery : piece.query? with
  | none => exact .inl (by simp only [Piece.laidOut, hquery])
  | some query =>
    cases hformat : format query.sql with
    | error fault => exact .inl (by simp only [Piece.laidOut, hquery, hformat])
    | ok lines =>
      refine .inr ⟨query, mem_queries_iff.mpr ⟨piece, hpiece, hquery⟩, lines, hformat, ?_⟩
      cases piece with
      | code text => cases hquery
      | quoted segment =>
        simp only [Piece.laidOut, hquery, hformat, Piece.text, (source_of_query? hquery).1]

end SqlLayout.Embedded

namespace SqlLayout

open Embedded

/-- If at its turn every query of a Python text is found only where a segment holds it, then the text
gets the layout of each valid query in place of what its segment holds and is otherwise unchanged.  It
has no layout just if a query stops the work. -/
theorem layout_layOut_python_iff (debug : Bool) {text unified : String}
    (hunified : String.ofList (Text.unifyLineEnds text.toList) = unified)
    (h : areApart (queries unified) (parts unified) = true) (result : String) :
    (layOut .python debug text).layout = .ok (some result) ↔
      (∀ query ∈ queries unified, ∀ fault,
        format query.sql = .error fault → fault.isInvalid = true) ∧ result = laidOut unified := by
  have hlayout (hvalid) := layout_layOutQueries_parts debug (fun _ ↦ source_of_mem_queries) hvalid
    (settles_parts unified) h
  rw [now_parts, goal_parts] at hlayout
  simp only [layOut, layOutPython, hunified]
  constructor
  · intro hresult
    have hvalid := isInvalid_of_layout_layOutQueries hresult
    rw [hlayout hvalid] at hresult
    exact ⟨hvalid, by simpa using hresult.symm⟩
  · rintro ⟨hvalid, rfl⟩
    exact hlayout hvalid

theorem layout_layOut_python_iff_comment :
    areApart (queries "x = \"\"\"select a\"\"\" # select b\n")
        (parts "x = \"\"\"select a\"\"\" # select b\n") = true ∧
      (layOut .python false "x = \"\"\"select a\"\"\" # select b\n").layout =
        .ok (some "x = \"\"\"\n    SELECT\n        a \"\"\" # select b\n") := by
  have h : areApart (queries "x = \"\"\"select a\"\"\" # select b\n")
      (parts "x = \"\"\"select a\"\"\" # select b\n") = true := by decide +kernel
  refine ⟨h, (layout_layOut_python_iff false (by decide +kernel) h _).mpr ⟨?_, by decide +kernel⟩⟩
  have hqueries : queries "x = \"\"\"select a\"\"\" # select b\n" =
      [⟨"select a", "select a", "    "⟩] := by decide +kernel
  have hformat : (format "select a").toOption = some ["SELECT", "    a"] := by decide +kernel
  intro query hmem fault hfault
  rw [hqueries, List.mem_singleton] at hmem
  rw [hmem] at hfault
  rw [hfault] at hformat
  cases hformat

/-- A comment that reads like a query is replaced along with it. -/
theorem layout_layOut_python_stray_comment :
    (layOut .python false "x = \"\"\"select a\"\"\" # select a\n").layout.toOption =
        some (some "x = \"\"\"\n    SELECT\n        a \"\"\" # \n    SELECT\n        a \n") ∧
      laidOut "x = \"\"\"select a\"\"\" # select a\n" =
        "x = \"\"\"\n    SELECT\n        a \"\"\" # select a\n" := by
  decide +kernel

end SqlLayout
