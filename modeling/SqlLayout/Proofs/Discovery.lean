import SqlLayout.Proofs.FileTree

/-!
# Which places are found

With subdirectories, exactly those files are found that the arguments name or that lie below a place that
they name.  Without them a directory is listed, and its path is read as a pattern: what is found may be a
directory, and it may stand in a directory that nobody asked for.  Only files that were asked for are found
if and only if the directories that are listed have no visible directory and no foreign entry.
-/

namespace SqlLayout.FileTree

open NamePattern

/-- Whether nothing is both a file and a directory. -/
def IsTree (tree : FileTree) : Prop :=
  ∀ path, tree.isFile path = true → tree.isDirectory path = false

/-- Whether a place is one that the arguments name, or lies below one. -/
def IsAskedFor (tree : FileTree) (arguments : List String) (place : Place) : Prop :=
  ∃ argument ∈ arguments, place.doubled = (tree.locate argument).doubled ∧
    (tree.locate argument).path <+: place.path

/-- Whether no directory is visible where the path of a place leads when it is read as a pattern, and
all that is visible there is asked for. -/
def ListsFiles (tree : FileTree) (arguments : List String) (place : Place) : Prop :=
  ∀ directory ∈ tree.directoriesFor [] place.path, ∀ entry ∈ tree.visibleIn directory,
    tree.isDirectory entry = false ∧ tree.IsAskedFor arguments { place with path := entry }

variable {tree : FileTree} {arguments : List String} {path top : Path} {place : Place}

/-! ### Files and directories -/

theorem isBelow_iff : path.isBelow top = true ↔ top <+: path ∧ top ≠ path := by
  simp only [Path.isBelow, Bool.and_eq_true, List.isPrefixOf_iff_prefix, decide_eq_true_eq]
  constructor
  · rintro ⟨hstart, hlength⟩
    refine ⟨hstart, ?_⟩
    rintro rfl
    omega
  · rintro ⟨hstart, hne⟩
    have hle := hstart.length_le
    have hne' : top.length ≠ path.length := fun h ↦ hne (hstart.eq_of_length h)
    exact ⟨hstart, by omega⟩

theorem mem_filesBelow :
    path ∈ tree.filesBelow top ↔ tree.isFile path = true ∧ path.isBelow top = true := by
  simp only [filesBelow, List.mem_filter, isFile_iff]

theorem isDirectory_of_isBelow (hpath : path ∈ tree.paths) (hbelow : path.isBelow top = true) :
    tree.isDirectory top = true := by
  simp only [isDirectory, Bool.or_eq_true, List.any_eq_true]
  exact .inr ⟨path, hpath, hbelow⟩

theorem mem_paths_of_isFile (h : tree.isFile path = true) : path ∈ tree.paths :=
  List.mem_append_right _ (isFile_iff.mp h)

/-- What is known and no directory is a file. -/
theorem isFile_of_mem_paths (hpath : path ∈ tree.paths) (hnot : tree.isDirectory path = false) :
    tree.isFile path = true := by
  rcases List.mem_append.mp hpath with hdirectory | hfile
  · rw [isDirectory, Bool.or_eq_false_iff, ← Bool.not_eq_true, List.contains_iff_mem] at hnot
    exact absurd hdirectory hnot.1
  · exact isFile_iff.mpr hfile

theorem isFile_of_mem_visibleIn {directory entry : Path} (hentry : entry ∈ tree.visibleIn directory)
    (hnot : tree.isDirectory entry = false) : tree.isFile entry = true := by
  obtain ⟨name, hname, rfl⟩ := List.mem_map.mp hentry
  obtain ⟨known, hknown, hat⟩ :=
    List.mem_filterMap.mp (List.mem_eraseDups.mp (List.mem_filter.mp hname).1)
  obtain ⟨hpath, hbelow⟩ := List.mem_filter.mp hknown
  -- What is known leads through the entry, so it is the entry or makes a directory of it.
  have hstart : directory ++ [name] <+: known := by
    obtain ⟨rest, rfl⟩ := (isBelow_iff.mp hbelow).1
    cases rest with
    | nil => simp at hat
    | cons first rest =>
      obtain rfl : first = name := by simpa using hat
      exact ⟨rest, by simp⟩
  by_cases heq : directory ++ [name] = known
  · rw [heq] at hnot ⊢
    exact isFile_of_mem_paths hpath hnot
  · have hdirectory := isDirectory_of_isBelow hpath (isBelow_iff.mpr ⟨hstart, heq⟩)
    simp [hnot] at hdirectory

/-! ### Listings -/

theorem pathsFor_of_isFile (hfile : tree.isFile path = true) (recursive : Bool) :
    tree.pathsFor recursive path = [path] := by
  simp [pathsFor, hfile]

theorem pathsFor_of_isDirectory (htree : tree.IsTree) (hdirectory : tree.isDirectory path = true)
    (recursive : Bool) :
    tree.pathsFor recursive path =
      if recursive then tree.filesBelow path
      else (tree.directoriesFor [] path).flatMap tree.visibleIn := by
  have hfile : tree.isFile path = false := by
    rw [← Bool.not_eq_true]
    intro hfile
    simp [htree path hfile] at hdirectory
  simp [pathsFor, hfile, hdirectory]

/-- Something is found only where there is a file or a directory. -/
theorem isFile_or_isDirectory_of_mem {recursive : Bool} (h : path ∈ tree.pathsFor recursive top) :
    tree.isFile top = true ∨ tree.isDirectory top = true := by
  unfold pathsFor at h
  split at h
  · exact .inl ‹_›
  · split at h
    · exact .inr ‹_›
    · simp at h

/-- With subdirectories exactly the files at a path and below it are found. -/
theorem mem_pathsFor_true (htree : tree.IsTree) :
    path ∈ tree.pathsFor true top ↔ tree.isFile path = true ∧ top <+: path := by
  constructor
  · intro hpath
    rcases isFile_or_isDirectory_of_mem hpath with hfile | hdirectory
    · rw [pathsFor_of_isFile hfile, List.mem_singleton] at hpath
      subst hpath
      exact ⟨hfile, List.prefix_refl path⟩
    · rw [pathsFor_of_isDirectory htree hdirectory, if_pos rfl, mem_filesBelow] at hpath
      exact ⟨hpath.1, (isBelow_iff.mp hpath.2).1⟩
  · rintro ⟨hfile, hstart⟩
    by_cases heq : top = path
    · subst heq
      rw [pathsFor_of_isFile hfile]
      exact List.mem_singleton_self top
    · have hbelow := isBelow_iff.mpr ⟨hstart, heq⟩
      have hdirectory := isDirectory_of_isBelow (mem_paths_of_isFile hfile) hbelow
      rw [pathsFor_of_isDirectory htree hdirectory, if_pos rfl]
      exact mem_filesBelow.mpr ⟨hfile, hbelow⟩

/-- With subdirectories exactly the files are found that are asked for. -/
theorem mem_allFound_true (htree : tree.IsTree) :
    place ∈ tree.allFound true arguments ↔
      tree.isFile place.path = true ∧ tree.IsAskedFor arguments place := by
  simp only [mem_allFound, mem_found, mem_pathsFor_true htree, IsAskedFor]
  constructor
  · rintro ⟨argument, hargument, hdoubled, hfile, hstart⟩
    exact ⟨hfile, argument, hargument, hdoubled, hstart⟩
  · rintro ⟨hfile, argument, hargument, hdoubled, hstart⟩
    exact ⟨argument, hargument, hdoubled, hfile, hstart⟩

/-- Without subdirectories only files that are asked for are found if and only if the directories that
are listed show nothing else. -/
theorem forall_mem_allFound_false_iff (htree : tree.IsTree) :
    (∀ place ∈ tree.allFound false arguments,
        tree.isFile place.path = true ∧ tree.IsAskedFor arguments place) ↔
      ∀ argument ∈ arguments, tree.isDirectory (tree.locate argument).path = true →
        tree.ListsFiles arguments (tree.locate argument) := by
  constructor
  · intro h argument hargument hdirectory directory hlisted entry hentry
    have hfound : { tree.locate argument with path := entry } ∈ tree.allFound false arguments := by
      refine mem_allFound.mpr ⟨argument, hargument, mem_found.mpr ⟨rfl, ?_⟩⟩
      rw [pathsFor_of_isDirectory htree hdirectory]
      exact List.mem_flatMap.mpr ⟨directory, hlisted, hentry⟩
    exact ⟨htree entry (h _ hfound).1, (h _ hfound).2⟩
  · intro h place hplace
    obtain ⟨argument, hargument, hfound⟩ := mem_allFound.mp hplace
    obtain ⟨hdoubled, hpath⟩ := mem_found.mp hfound
    rcases isFile_or_isDirectory_of_mem hpath with hfile | hdirectory
    · rw [pathsFor_of_isFile hfile, List.mem_singleton] at hpath
      rw [hpath]
      exact ⟨hfile, argument, hargument, hdoubled, hpath ▸ List.prefix_refl _⟩
    · rw [pathsFor_of_isDirectory htree hdirectory] at hpath
      obtain ⟨directory, hlisted, hentry⟩ := List.mem_flatMap.mp hpath
      obtain ⟨hnot, hasked⟩ := h argument hargument hdirectory directory hlisted place.path hentry
      rw [← hdoubled] at hasked
      exact ⟨isFile_of_mem_visibleIn hentry hnot, hasked⟩

theorem directoriesFor_of_plain (top : Path) (h : ∀ name ∈ path, isPattern name = false) :
    tree.directoriesFor top path = [top ++ path] := by
  induction path generalizing top with
  | nil => simp [directoriesFor]
  | cons name names ih =>
    have hname : isPattern name = false := h name List.mem_cons_self
    rw [directoriesFor, hname, if_neg Bool.false_ne_true,
      ih (top ++ [name]) fun other hother ↦ h other (List.mem_cons_of_mem name hother)]
    simp

theorem prefix_of_mem_visibleIn {directory entry : Path} (h : entry ∈ tree.visibleIn directory) :
    directory <+: entry := by
  obtain ⟨name, -, rfl⟩ := List.mem_map.mp h
  exact List.prefix_append directory [name]

/-- A directory that is asked for by a path without pattern characters must only have no visible
directory in it. -/
theorem listsFiles_iff_of_plain (hasked : tree.IsAskedFor arguments place)
    (h : ∀ name ∈ place.path, isPattern name = false) :
    tree.ListsFiles arguments place ↔
      ∀ entry ∈ tree.visibleIn place.path, tree.isDirectory entry = false := by
  simp only [ListsFiles, directoriesFor_of_plain [] h, List.nil_append, List.mem_singleton,
    forall_eq]
  refine forall_congr' fun entry ↦ forall_congr' fun hentry ↦ and_iff_left ?_
  obtain ⟨argument, hargument, hdoubled, hstart⟩ := hasked
  exact ⟨argument, hargument, hdoubled, hstart.trans (prefix_of_mem_visibleIn hentry)⟩

/-- With subdirectories exactly the files are found that are asked for.  Only such files are found either
way, and without subdirectories no more than with them, if and only if no directory that an argument names
lists anything else; where its path has no pattern characters, that is a visible directory in it. -/
theorem mem_allFound_asked_iff (htree : tree.IsTree) :
    (∀ place, place ∈ tree.allFound true arguments ↔
        tree.isFile place.path = true ∧ tree.IsAskedFor arguments place) ∧
      (((∀ recursive, ∀ place ∈ tree.allFound recursive arguments,
            tree.isFile place.path = true ∧ tree.IsAskedFor arguments place) ∧
          ∀ place ∈ tree.allFound false arguments, place ∈ tree.allFound true arguments) ↔
        ∀ argument ∈ arguments, tree.isDirectory (tree.locate argument).path = true →
          tree.ListsFiles arguments (tree.locate argument)) ∧
      ∀ place, tree.IsAskedFor arguments place → (∀ name ∈ place.path, isPattern name = false) →
        (tree.ListsFiles arguments place ↔
          ∀ entry ∈ tree.visibleIn place.path, tree.isDirectory entry = false) := by
  refine ⟨fun place ↦ mem_allFound_true htree, ?_, fun place ↦ listsFiles_iff_of_plain⟩
  rw [← forall_mem_allFound_false_iff htree]
  constructor
  · rintro ⟨h, -⟩
    exact h false
  · intro h
    constructor
    · intro recursive
      cases recursive with
      | false => exact h
      | true => exact fun place hplace ↦ (mem_allFound_true htree).mp hplace
    · exact fun place hplace ↦ (mem_allFound_true htree).mpr (h place hplace)

/-- A directory with a file, an empty directory that is hidden, and another with a file. -/
def hiddenTree : FileTree where
  here := ["home"]
  directories := [["home", "queries", ".cache"]]
  files := [(["home", "queries", "a.sql"], "select a"),
    (["home", "queries", ".git", "b.sql"], "select b")]

theorem isTree_hiddenTree : hiddenTree.IsTree := by
  intro path hfile
  rcases List.mem_cons.mp (isFile_iff.mp hfile) with rfl | hfile
  · decide
  · obtain rfl := List.mem_singleton.mp hfile
    decide

theorem mem_allFound_asked_iff_hiddenTree :
    hiddenTree.IsTree ∧
      hiddenTree.allFound true ["queries"] =
        [{ path := ["home", "queries", ".git", "b.sql"] }, { path := ["home", "queries", "a.sql"] }] ∧
      hiddenTree.allFound false ["queries"] = [{ path := ["home", "queries", "a.sql"] }] ∧
      ∀ argument ∈ ["queries"], hiddenTree.isDirectory (hiddenTree.locate argument).path = true →
        hiddenTree.ListsFiles ["queries"] (hiddenTree.locate argument) := by
  refine ⟨isTree_hiddenTree, by decide +kernel, by decide +kernel, ?_⟩
  have hasked : ∀ place ∈ hiddenTree.allFound false ["queries"],
      place ∈ hiddenTree.allFound true ["queries"] := by decide +kernel
  obtain ⟨htrue, hiff, -⟩ := @mem_allFound_asked_iff hiddenTree ["queries"] isTree_hiddenTree
  refine hiff.mp ⟨?_, hasked⟩
  intro recursive place hplace
  cases recursive with
  | false => exact (htrue place).mp (hasked place hplace)
  | true => exact (htrue place).mp hplace

/-- Without subdirectories a directory inside the one that is asked for is found, and in place of a
directory whose name is a pattern those are listed that the pattern stands for. -/
theorem mem_allFound_false_not_asked :
    ({ path := ["home", "queries", "old"] } ∈
        FileTree.allFound
          { here := ["home"], files := [(["home", "queries", "old", "a.sql"], "select a")] }
          false ["queries"] ∧
      FileTree.isFile
          { here := ["home"], files := [(["home", "queries", "old", "a.sql"], "select a")] }
          ["home", "queries", "old"] = false) ∧
      FileTree.allFound
          { here := ["home"]
            files := [(["home", "[ab]", "c.sql"], "select c"), (["home", "a", "d.sql"], "select d")] }
          false ["[ab]"] = [{ path := ["home", "a", "d.sql"] }] := by
  decide +kernel

end SqlLayout.FileTree
