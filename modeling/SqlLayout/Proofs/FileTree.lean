import SqlLayout.FileTree
import Mathlib.Data.List.Nodup

/-!
# The order of places

The places that a command line asks for are kept in the order of their names.  A place therefore meets its
earlier copy before any place of a greater name, and no place is asked for twice.
-/

namespace SqlLayout

def Place.InOrder (places : List Place) : Prop :=
  places.Pairwise fun first second ↦ ¬ second.name < first.name

namespace FileTree

open Place

theorem mem_insertByName {place other : Place} {places : List Place} :
    other ∈ insertByName place places ↔ other = place ∨ other ∈ places := by
  induction places with
  | nil => simp [insertByName]
  | cons first places ih =>
    simp only [insertByName]
    split
    · simp_all
    · split
      · simp
      · simp only [List.mem_cons, ih]
        exact or_left_comm

theorem inOrder_insertByName (place : Place) {places : List Place} (h : InOrder places) :
    InOrder (insertByName place places) := by
  induction places with
  | nil => simp [insertByName, InOrder]
  | cons first places ih =>
    have hcons := List.pairwise_cons.mp h
    simp only [insertByName]
    split
    · exact h
    · split
      · rename_i hlt
        refine List.pairwise_cons.mpr ⟨fun other hother hless ↦ ?_, h⟩
        obtain rfl | hmem := List.mem_cons.mp hother
        · exact String.lt_asymm hlt hless
        · exact hcons.1 other hmem (String.lt_trans hless hlt)
      · rename_i hlt
        refine List.pairwise_cons.mpr ⟨fun other hother ↦ ?_, ih hcons.2⟩
        obtain rfl | hmem := mem_insertByName.mp hother
        · exact hlt
        · exact hcons.1 other hmem

theorem nodup_insertByName (place : Place) {places : List Place} (h : InOrder places)
    (hnodup : places.Nodup) : (insertByName place places).Nodup := by
  induction places with
  | nil => simp [insertByName]
  | cons first places ih =>
    have hcons := List.pairwise_cons.mp h
    have hnodup' := List.nodup_cons.mp hnodup
    simp only [insertByName]
    split
    · exact hnodup
    · rename_i hne
      split
      · rename_i hlt
        -- The place is not further down, where no name is smaller than the first.
        refine List.nodup_cons.mpr ⟨fun hmem ↦ ?_, hnodup⟩
        obtain rfl | hmem := List.mem_cons.mp hmem
        · exact hne rfl
        · exact hcons.1 place hmem hlt
      · refine List.nodup_cons.mpr ⟨fun hmem ↦ ?_, ih hcons.2 hnodup'.2⟩
        obtain rfl | hmem := mem_insertByName.mp hmem
        · exact hne rfl
        · exact hnodup'.1 hmem

theorem inOrder_foldr_insertByName (places : List Place) : InOrder (places.foldr insertByName []) := by
  induction places with
  | nil => exact List.Pairwise.nil
  | cons place places ih => exact inOrder_insertByName place ih

variable {tree : FileTree} {recursive : Bool} {arguments : List String} {place : Place}

theorem isFile_iff {path : Path} : tree.isFile path = true ↔ path ∈ tree.files.map Prod.fst := by
  unfold isFile text?
  induction tree.files with
  | nil => simp
  | cons file files ih =>
    obtain ⟨first, text⟩ := file
    by_cases h : path = first
    · simp [h]
    · have hne : (path == first) = false := by simpa using h
      simp [List.lookup_cons, hne, ih, h]

theorem paths_write (tree : FileTree) (path : Path) (text : String) :
    (tree.write path text).files.map Prod.fst = tree.files.map Prod.fst := by
  simp only [write, List.map_map]
  apply List.map_congr_left
  intro file _
  by_cases h : file.1 = path <;> simp [h]

theorem isFile_write (tree : FileTree) (path : Path) (text : String) (other : Path) :
    (tree.write path text).isFile other = tree.isFile other := by
  rw [Bool.eq_iff_iff, isFile_iff, isFile_iff, paths_write]

theorem mem_allFound :
    place ∈ tree.allFound recursive arguments ↔
      ∃ argument ∈ arguments, place ∈ tree.found recursive argument := by
  have hfoldr : ∀ places : List Place, place ∈ places.foldr insertByName [] ↔ place ∈ places := by
    intro places
    induction places with
    | nil => simp
    | cons first places ih => simp [mem_insertByName, ih]
  rw [allFound, hfoldr, List.mem_flatMap]

theorem mem_found {argument : String} :
    place ∈ tree.found recursive argument ↔
      place.doubled = (tree.locate argument).doubled ∧
        place.path ∈ tree.pathsFor recursive (tree.locate argument).path := by
  obtain ⟨path, doubled⟩ := place
  simp only [found, List.mem_map, Place.mk.injEq]
  constructor
  · rintro ⟨_, hpath, rfl, rfl⟩
    exact ⟨rfl, hpath⟩
  · rintro ⟨rfl, hpath⟩
    exact ⟨path, hpath, rfl, rfl⟩

theorem nodup_allFound (tree : FileTree) (recursive : Bool) (arguments : List String) :
    (tree.allFound recursive arguments).Nodup := by
  unfold allFound
  induction arguments.flatMap (tree.found recursive) with
  | nil => exact List.nodup_nil
  | cons place places ih => exact nodup_insertByName place (inOrder_foldr_insertByName places) ih

/-- Only an argument that starts with two slashes asks for places whose names do. -/
theorem doubled_of_mem_allFound
    (h : ∀ argument ∈ arguments, startsDoubled argument.toList = false)
    (hplace : place ∈ tree.allFound recursive arguments) : place.doubled = false := by
  obtain ⟨argument, hargument, hfound⟩ := mem_allFound.mp hplace
  rw [(mem_found.mp hfound).1, locate]
  split
  · exact h argument hargument
  · rfl

/-- Then no file is asked for under two names. -/
theorem nodup_paths_allFound
    (h : ∀ argument ∈ arguments, startsDoubled argument.toList = false) :
    ((tree.allFound recursive arguments).map Place.path).Nodup := by
  refine (nodup_allFound tree recursive arguments).map_on fun first hfirst second hsecond hpath ↦ ?_
  have hdoubled := (doubled_of_mem_allFound h hfirst).trans (doubled_of_mem_allFound h hsecond).symm
  obtain ⟨path, doubled⟩ := first
  obtain ⟨path', doubled'⟩ := second
  exact congrArg₂ Place.mk hpath hdoubled

end FileTree

end SqlLayout
