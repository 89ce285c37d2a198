import SqlLayout.Proofs.DryRun

/-!
# Paths among switches

Paths and switches stand on a command line in any order.  The types and the flags are taken from all of it.
Of the paths only the first run is taken: those behind a switch that follows the run are ignored.
-/

namespace SqlLayout

/-- Whether a switch takes no value and lets the program run. -/
def Switch.isFlag : Switch → Bool
  | recursive | noSemicolon | debug | dryRun => true
  | _ => false

inductive Piece where
  | path (text : String)
  | types (text : String)
  | flag (spelling : String) (switch : Switch)

namespace Piece

def args : Piece → List String
  | path text => [text]
  | types text => ["--types", text]
  | flag spelling _ => [spelling]

def isDeclared : Piece → Bool
  | path text | types text => text.toList.head? != some '-'
  | flag spelling switch => Switch.spellings.contains (spelling, switch) && switch.isFlag

def path? : Piece → Option String
  | path text => some text
  | _ => none

def isPath (piece : Piece) : Bool :=
  piece.path?.isSome

def type? : Piece → Option String
  | types text => some text
  | _ => none

def sets (switch : Switch) : Piece → Bool
  | flag _ found => found = switch
  | _ => false

def firstRun (pieces : List Piece) : List String :=
  ((pieces.dropWhile (!·.isPath)).takeWhile isPath).filterMap path?

def behindRun (pieces : List Piece) : List Piece :=
  (pieces.dropWhile (!·.isPath)).dropWhile isPath

theorem firstRun_ne_nil {pieces : List Piece} (h : pieces.any isPath = true) : firstRun pieces ≠ [] := by
  induction pieces with
  | nil => cases h
  | cons piece rest ih =>
    cases piece with
    | path text =>
      have hpath : (path text).isPath = true := rfl
      simp [firstRun, hpath, path?]
    | _ => exact ih h

theorem filterMap_path?_eq (pieces : List Piece) :
    pieces.filterMap path? = firstRun pieces ++ (behindRun pieces).filterMap path? := by
  induction pieces with
  | nil => rfl
  | cons piece rest ih =>
    cases piece with
    | path text =>
      have hpath : (path text).isPath = true := rfl
      simp [firstRun, behindRun, hpath, path?, ← List.filterMap_append]
    | _ => exact ih

end Piece

theorem Arg.classifyAll_cons {text : String} {rest : List String} {arg : Arg} {sorted : List Arg}
    (hne : text ≠ "--") (harg : classify text = .ok arg) (hrest : classifyAll rest = .ok sorted) :
    classifyAll (text :: rest) = .ok (arg :: sorted) := by
  rw [classifyAll, if_neg hne, harg, hrest]
  rfl

theorem Arg.classifyAll_value {text : String} {rest : List String} {sorted : List Arg}
    (htext : (text.toList.head? != some '-') = true) (hrest : classifyAll rest = .ok sorted) :
    classifyAll (text :: rest) = .ok (.value text :: sorted) := by
  refine classifyAll_cons ?_ ?_ hrest
  · rintro rfl
    cases htext
  · rw [classify, htext]
    rfl

namespace Options

open Piece

def joined (options : Options) (paths : List String) (pieces : List Piece) : Options where
  paths := paths
  types := options.types ++ pieces.filterMap type?
  recursive := options.recursive || pieces.any (sets .recursive)
  noSemicolon := options.noSemicolon || pieces.any (sets .noSemicolon)
  debug := options.debug || pieces.any (sets .debug)
  dryRun := options.dryRun || pieces.any (sets .dryRun)

/-- The paths after pieces, `run` being those in front of them that no switch has ended. -/
def pathsFrom (options : Options) (run : List String) (pieces : List Piece) : List String :=
  if options.paths ≠ [] then options.paths
  else if run ≠ [] then run ++ (pieces.takeWhile isPath).filterMap path?
  else firstRun pieces

theorem takePaths_eq (options : Options) (run : List String) :
    options.takePaths (run.map .value) = options.joined (options.pathsFrom run []) [] := by
  have hvalues : (run.map Arg.value).filterMap Arg.value? = run := by
    rw [List.filterMap_map]
    exact List.filterMap_some
  rw [takePaths, hvalues]
  by_cases hpaths : options.paths = [] <;> by_cases hrun : run = [] <;>
    simp [joined, pathsFrom, firstRun, hpaths, hrun]

/-- A path goes on with the run. -/
theorem pathsFrom_path (options : Options) (run : List String) (text : String) (rest : List Piece) :
    options.pathsFrom (run ++ [text]) rest = options.pathsFrom run (.path text :: rest) := by
  have hpath : (path text).isPath = true := rfl
  cases run <;> simp [pathsFrom, firstRun, hpath, path?]

/-- A switch ends the run in front of it. -/
theorem joined_switch (options : Options) (run : List String) {piece : Piece}
    (hpiece : piece.isPath = false) (rest : List Piece) :
    (options.joined (options.pathsFrom run []) [piece]).joined
        ((options.joined (options.pathsFrom run []) [piece]).pathsFrom [] rest) rest =
      options.joined (options.pathsFrom run (piece :: rest)) (piece :: rest) := by
  have hpaths : (options.joined (options.pathsFrom run []) [piece]).pathsFrom [] rest =
      options.pathsFrom run (piece :: rest) := by
    by_cases hpaths : options.paths = [] <;> by_cases hrun : run = [] <;>
      simp [pathsFrom, joined, firstRun, hpaths, hrun, hpiece]
  rw [hpaths]
  simp [joined, ← List.filterMap_append, Bool.or_assoc]

/-- The induction is on the pieces, each of which is one or two arguments. -/
theorem exists_sorted {pieces : List Piece} (h : ∀ piece ∈ pieces, piece.isDeclared = true) :
    ∃ sorted, Arg.classifyAll (pieces.flatMap args) = .ok sorted ∧
      ∀ (options : Options) (run : List String), walk options (run.map .value) sorted =
        .ok (options.joined (options.pathsFrom run pieces) pieces) := by
  have hspellings : ∀ entry ∈ Switch.spellings, entry.1 ≠ "--" ∧ ∃ short,
      Arg.classify entry.1 = .ok (.use ⟨entry.2, short, none⟩) := by
    simp only [Switch.spellings, List.forall_mem_cons]
    refine ⟨?_, ?_, ?_, ?_, ?_, ?_, ?_, ?_, ?_, by simp⟩ <;> exact ⟨by decide, _, rfl⟩
  induction pieces with
  | nil => exact ⟨[], rfl, fun options run ↦ congrArg Except.ok (takePaths_eq options run)⟩
  | cons piece rest ih =>
    obtain ⟨hpiece, hrest⟩ := List.forall_mem_cons.mp h
    obtain ⟨sorted, hsorted, hwalk⟩ := ih hrest
    cases piece with
    | path text =>
      refine ⟨_, Arg.classifyAll_value hpiece hsorted, fun options run ↦ ?_⟩
      have hrun := hwalk options (run ++ [text])
      rwa [List.map_append, pathsFrom_path] at hrun
    | types text =>
      obtain ⟨hne, short, hclass⟩ := hspellings ("--types", .types) (by simp [Switch.spellings])
      refine ⟨_, Arg.classifyAll_cons hne hclass (Arg.classifyAll_value hpiece hsorted),
        fun options run ↦ ?_⟩
      have htypes : { options.joined (options.pathsFrom run []) [] with
            types := (options.joined (options.pathsFrom run []) []).types ++ [text] } =
          options.joined (options.pathsFrom run []) [.types text] := by
        simp [joined, type?, sets]
      have htakes : Switch.types.takesValue = true := rfl
      simp only [walk, htakes, if_true, takePaths_eq, htypes]
      exact (hwalk _ []).trans (congrArg Except.ok (joined_switch options run rfl rest))
    | flag spelling switch =>
      rw [isDeclared, Bool.and_eq_true, List.contains_iff_mem] at hpiece
      obtain ⟨hne, short, hclass⟩ := hspellings _ hpiece.1
      refine ⟨_, Arg.classifyAll_cons hne hclass hsorted, fun options run ↦ ?_⟩
      have hset : ¬switch.takesValue = true ∧ (options.takePaths (run.map .value)).set switch =
          .ok (options.joined (options.pathsFrom run []) [.flag spelling switch]) := by
        rw [takePaths_eq]
        cases switch with
        | help | version | types => cases hpiece.2
        | _ => exact ⟨by decide, by simp [set, joined, type?, sets]⟩
      rw [walk_switch _ _ _ _ _ hset.1, hset.2]
      exact (hwalk _ []).trans (congrArg Except.ok (joined_switch options run rfl rest))

/-- A command line of paths and switches in any order.  Its types and flags are found wherever they stand,
and its paths are those of the first run.  These are all of them exactly if none stands behind the run. -/
theorem ofArgs_pieces {pieces : List Piece} (h : ∀ piece ∈ pieces, piece.isDeclared = true)
    (hpath : pieces.any isPath = true) :
    ofArgs (pieces.flatMap args) = .ok (({} : Options).joined (firstRun pieces) pieces) ∧
      (firstRun pieces = pieces.filterMap path? ↔ (behindRun pieces).any isPath = false) := by
  obtain ⟨sorted, hsorted, hwalk⟩ := exists_sorted h
  have hpaths : walk {} [] sorted = .ok (({} : Options).joined (firstRun pieces) pieces) := hwalk {} []
  constructor
  · simp [ofArgs, hsorted, hpaths, bind, Except.bind, joined, firstRun_ne_nil hpath, pure, Except.pure]
  · rw [filterMap_path?_eq, List.self_eq_append_right]
    simp [isPath]

theorem ofArgs_pieces_twoTypes :
    ofArgs ["--types", "sql", "a.sql", "b.sql", "-r", "--types", "py"] =
      .ok { paths := ["a.sql", "b.sql"], types := ["sql", "py"], recursive := true } :=
  (@ofArgs_pieces [.types "sql", .path "a.sql", .path "b.sql", .flag "-r" .recursive, .types "py"]
    (by decide) rfl).1

/-- The path behind the switch is lost. -/
theorem ofArgs_path_behind_switch :
    ofArgs ["a.sql", "--debug", "b.sql"] = .ok { paths := ["a.sql"], debug := true } :=
  rfl

end Options

end SqlLayout
