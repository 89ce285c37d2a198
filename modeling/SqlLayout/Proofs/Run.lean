import SqlLayout.Run
import SqlLayout.Proofs.FileTree
import SqlLayout.Proofs.Source

/-!
# What a run leaves behind

A run that writes gives each file it visits its layout, until it comes to a place without one, and there it
ends.  Files beyond that place keep their texts.  The place itself keeps its text too, except that an SQL
file with invalid SQL is emptied.  A file that is visited under two names is read again after its layout was
written, so that what counts is the text it has when its turn comes.
-/

namespace SqlLayout

namespace FileTree

def layout? (tree : FileTree) (place : Place) : Option String :=
  match tree.text? place.path with
  | none => none
  | some text =>
    match (layOut (SourceKind.ofName place.name) false text).layout with
    | .ok layout => layout
    | .error _ => none

/-- Whether a place is an SQL file whose text is invalid. -/
def isInvalid (tree : FileTree) (place : Place) : Bool :=
  match tree.text? place.path with
  | none => false
  | some text =>
    SourceKind.ofName place.name = .sql &&
      match format (String.ofList (Text.unifyLineEnds text.toList)) with
      | .ok _ => false
      | .error fault => fault.isInvalid

/-- Each file of a tree has its old text in another, or one of the layouts that were found for it. -/
def Kept (before : FileTree) (layouts : List (Path × String)) (after : FileTree) : Prop :=
  ∀ path text, before.text? path = some text →
    after.text? path = some text ∨ ∃ laid, (path, laid) ∈ layouts ∧ after.text? path = some laid

variable {tree other : FileTree} {place : Place}

theorem Kept.refl (tree : FileTree) (layouts : List (Path × String)) : tree.Kept layouts tree :=
  fun _ _ htext ↦ .inl htext

theorem layout?_congr (h : other.text? place.path = tree.text? place.path) :
    other.layout? place = tree.layout? place := by
  simp only [layout?, h]

theorem isInvalid_congr (h : other.text? place.path = tree.text? place.path) :
    other.isInvalid place = tree.isInvalid place := by
  simp only [isInvalid, h]

theorem isInvalid_iff {text : String} (htext : tree.text? place.path = some text) :
    tree.isInvalid place = true ↔
      (layOut (SourceKind.ofName place.name) false text).layout = .ok none := by
  simp only [isInvalid, htext, layout_layOut_eq_none_iff, Bool.and_eq_true, decide_eq_true_eq]
  cases format (String.ofList (Text.unifyLineEnds text.toList)) with
  | ok lines => simp
  | error fault => simp

theorem layout?_eq_some_iff {laid : String} :
    tree.layout? place = some laid ↔ ∃ text, tree.text? place.path = some text ∧
      (layOut (SourceKind.ofName place.name) false text).layout = .ok (some laid) := by
  simp only [layout?]
  cases tree.text? place.path with
  | none => simp
  | some text =>
    cases h : (layOut (SourceKind.ofName place.name) false text).layout with
    | error fault => simp [h]
    | ok layout => simp [h]

theorem text?_write_of_layout {laid : String} (h : tree.layout? place = some laid) :
    (tree.write place.path laid).text? place.path = some laid := by
  obtain ⟨text, htext, -⟩ := layout?_eq_some_iff.mp h
  exact tree.text?_write_self laid (by simp [isFile, htext])

theorem layout_layOut_empty (kind : SourceKind) : (layOut kind false "").layout = .ok (some "") := by
  cases kind with
  | sql => rfl
  | python => rfl

/-- The layout of an empty file is empty. -/
theorem eq_empty_of_layout {laid : String} (hempty : tree.text? place.path = some "")
    (h : tree.layout? place = some laid) : laid = "" := by
  obtain ⟨text, htext, hlayout⟩ := layout?_eq_some_iff.mp h
  obtain rfl : "" = text := by simpa [hempty] using htext
  simpa [layout_layOut_empty] using hlayout.symm

theorem text?_of_isInvalid (h : tree.isInvalid place = true) :
    ∃ text, tree.text? place.path = some text ∧ text ≠ "" := by
  cases htext : tree.text? place.path with
  | none => simp [isInvalid, htext] at h
  | some text =>
    refine ⟨text, rfl, ?_⟩
    rintro rfl
    simp [isInvalid_iff htext, layout_layOut_empty] at h

end FileTree

namespace Run

/-- How far a run that writes comes: the layouts it has written, the files with these layouts, and the
place without a layout where it ends. -/
structure Progress where
  layouts : List (Path × String) := []
  tree : FileTree
  stop : Option Place := none

def progress (tree : FileTree) : List Place → Progress
  | [] => { tree }
  | place :: places =>
    match tree.layout? place with
    | none => { tree, stop := some place }
    | some laid =>
      let rest := progress (tree.write place.path laid) places
      { rest with layouts := (place.path, laid) :: rest.layouts }

variable {options : Options} {tree : FileTree} {place : Place} {order places : List Place}

theorem progress_cons_of_layout {laid : String} (h : tree.layout? place = some laid)
    (places : List Place) :
    progress tree (place :: places) =
      { progress (tree.write place.path laid) places with
        layouts := (place.path, laid) :: (progress (tree.write place.path laid) places).layouts } := by
  simp only [progress, h]

theorem progress_cons_of_no_layout (h : tree.layout? place = none) (places : List Place) :
    progress tree (place :: places) = { tree, stop := some place } := by
  simp only [progress, h]

/-! ### One visit and all visits -/

/-- What one visit does to the files. -/
theorem tree_visit_cons (options : Options) (place : Place) (places : List Place) (tree : FileTree) :
    (visit options (place :: places) tree).tree =
      match tree.text? place.path with
      | none => tree
      | some text =>
        match (layOut (SourceKind.ofName place.name) false text).layout with
        | .error _ => tree
        | .ok layout =>
          if options.dryRun then (visit options places tree).tree
          else
            match layout with
            | some laid => (visit options places (tree.write place.path laid)).tree
            | none => tree.write place.path "" := by
  simp only [visit, layout_layOut _ options.debug]
  cases tree.text? place.path with
  | none => rfl
  | some text =>
    dsimp only
    cases (layOut (SourceKind.ofName place.name) false text).layout with
    | error fault => rfl
    | ok layout =>
      dsimp only
      cases options.dryRun with
      | true => rfl
      | false => cases layout <;> rfl

theorem tree_visit_of_dryRun (h : options.dryRun = true) (places : List Place) (tree : FileTree) :
    (visit options places tree).tree = tree := by
  induction places with
  | nil => rfl
  | cons place places ih =>
    rw [tree_visit_cons]
    split
    · rfl
    · split
      · rfl
      · simp [h, ih]

theorem tree_visit_cons_of_layout (h : options.dryRun = false) (places : List Place) {laid : String}
    (hlaid : tree.layout? place = some laid) :
    (visit options (place :: places) tree).tree =
      (visit options places (tree.write place.path laid)).tree := by
  obtain ⟨text, htext, hlayout⟩ := FileTree.layout?_eq_some_iff.mp hlaid
  simp [tree_visit_cons, htext, hlayout, h]

theorem tree_visit_cons_of_no_layout (h : options.dryRun = false) (places : List Place)
    (hnone : tree.layout? place = none) :
    (visit options (place :: places) tree).tree =
      if tree.isInvalid place then tree.write place.path "" else tree := by
  rw [tree_visit_cons]
  cases htext : tree.text? place.path with
  | none => simp [FileTree.isInvalid, htext]
  | some text =>
    have hinvalid := FileTree.isInvalid_iff htext
    cases hlayout : (layOut (SourceKind.ofName place.name) false text).layout with
    | error fault => simp [hinvalid, hlayout]
    | ok layout =>
      cases layout with
      | none => simp [h, hinvalid, hlayout]
      | some laid => simp [FileTree.layout?_eq_some_iff.mpr ⟨text, htext, hlayout⟩] at hnone

/-- A run that writes leaves the files as they are when it stops, but for an invalid one at its end. -/
theorem tree_visit_eq (h : options.dryRun = false) (order : List Place) (tree : FileTree) :
    (visit options order tree).tree =
      match (progress tree order).stop with
      | none => (progress tree order).tree
      | some place =>
        if (progress tree order).tree.isInvalid place then
          (progress tree order).tree.write place.path ""
        else (progress tree order).tree := by
  induction order generalizing tree with
  | nil => rfl
  | cons place places ih =>
    cases hlayout : tree.layout? place with
    | none =>
      rw [tree_visit_cons_of_no_layout h places hlayout, progress_cons_of_no_layout hlayout]
    | some laid =>
      rw [tree_visit_cons_of_layout h places hlayout, progress_cons_of_layout hlayout]
      exact ih _

/-! ### What is kept -/

/-- Where a run stops, each file has its old text or a layout that was written. -/
theorem text?_progress (tree : FileTree) (order : List Place) (path : Path) :
    (progress tree order).tree.text? path = tree.text? path ∨
      ∃ laid, (path, laid) ∈ (progress tree order).layouts ∧
        (progress tree order).tree.text? path = some laid := by
  induction order generalizing tree with
  | nil => exact .inl rfl
  | cons place places ih =>
    cases hlayout : tree.layout? place with
    | none =>
      rw [progress_cons_of_no_layout hlayout]
      exact .inl rfl
    | some laid =>
      rw [progress_cons_of_layout hlayout]
      rcases ih (tree.write place.path laid) with hsame | ⟨later, hmem, htext⟩
      · by_cases hpath : path = place.path
        · subst hpath
          exact .inr ⟨laid, List.mem_cons_self,
            hsame.trans (FileTree.text?_write_of_layout hlayout)⟩
        · exact .inl (hsame.trans (tree.text?_write_of_ne laid hpath))
      · exact .inr ⟨later, List.mem_cons_of_mem _ hmem, htext⟩

theorem kept_progress (tree : FileTree) (order : List Place) :
    tree.Kept (progress tree order).layouts (progress tree order).tree := by
  intro path text htext
  rcases text?_progress tree order path with hsame | hlaid
  · exact .inl (hsame.trans htext)
  · exact .inr hlaid

theorem text?_progress_of_empty {path : Path} (h : tree.text? path = some "") :
    (progress tree order).tree.text? path = some "" := by
  induction order generalizing tree with
  | nil => exact h
  | cons place places ih =>
    cases hlayout : tree.layout? place with
    | none => rwa [progress_cons_of_no_layout hlayout]
    | some laid =>
      rw [progress_cons_of_layout hlayout]
      apply ih
      by_cases hpath : path = place.path
      · subst hpath
        rw [FileTree.text?_write_of_layout hlayout, FileTree.eq_empty_of_layout h hlayout]
      · rw [tree.text?_write_of_ne laid hpath, h]

theorem text?_progress_of_mem_empty {path : Path} (h : (path, "") ∈ (progress tree order).layouts) :
    (progress tree order).tree.text? path = some "" := by
  induction order generalizing tree with
  | nil => cases h
  | cons place places ih =>
    cases hlayout : tree.layout? place with
    | none => simp [progress_cons_of_no_layout hlayout] at h
    | some laid =>
      rw [progress_cons_of_layout hlayout] at h ⊢
      rcases List.mem_cons.mp h with heq | hmem
      · obtain ⟨rfl, rfl⟩ := Prod.mk.inj heq
        exact text?_progress_of_empty (FileTree.text?_write_of_layout hlayout)
      · exact ih hmem

theorem isFile_progress (tree : FileTree) (order : List Place) (path : Path) :
    (progress tree order).tree.isFile path = tree.isFile path := by
  induction order generalizing tree with
  | nil => rfl
  | cons place places ih =>
    cases hlayout : tree.layout? place with
    | none => rw [progress_cons_of_no_layout hlayout]
    | some laid =>
      rw [progress_cons_of_layout hlayout]
      exact (ih _).trans (tree.isFile_write place.path laid path)

/-- A file that has a text where the run stops, and is emptied then, has lost it: it was not empty at the
start, and no layout of it was empty. -/
theorem not_kept_write_empty {path : Path} {text : String} (hne : text ≠ "")
    (htext : (progress tree order).tree.text? path = some text) :
    ¬ tree.Kept (progress tree order).layouts ((progress tree order).tree.write path "") := by
  have hfile : (progress tree order).tree.isFile path = true := by simp [FileTree.isFile, htext]
  have hempty : ((progress tree order).tree.write path "").text? path = some "" :=
    (progress tree order).tree.text?_write_self "" hfile
  have hnot : (progress tree order).tree.text? path ≠ some "" := by simpa [htext] using hne
  rw [isFile_progress] at hfile
  obtain ⟨old, hold⟩ := Option.isSome_iff_exists.mp hfile
  intro hkept
  obtain hsame | ⟨laid, hmem, hlaid⟩ := hkept path old hold
  · obtain rfl : "" = old := by simpa [hempty] using hsame
    exact hnot (text?_progress_of_empty hold)
  · obtain rfl : "" = laid := by simpa [hempty] using hlaid
    exact hnot (text?_progress_of_mem_empty hmem)

/-- What a run leaves of the files when it visits places in some order. -/
theorem kept_visit_iff (options : Options) (tree : FileTree) (order : List Place) :
    tree.Kept (progress tree order).layouts (visit options order tree).tree ↔
      (options.dryRun = false → ∀ place, (progress tree order).stop = some place →
        (progress tree order).tree.isInvalid place = false) := by
  cases hdry : options.dryRun with
  | true =>
    rw [tree_visit_of_dryRun hdry]
    exact iff_of_true (.refl tree _) (by simp)
  | false =>
    rw [tree_visit_eq hdry]
    cases hstop : (progress tree order).stop with
    | none => exact iff_of_true (kept_progress tree order) (by simp)
    | some place =>
      cases hinvalid : (progress tree order).tree.isInvalid place with
      | false => simpa [hinvalid] using kept_progress tree order
      | true =>
        obtain ⟨text, htext, hne⟩ := FileTree.text?_of_isInvalid hinvalid
        simpa [hinvalid] using not_kept_write_empty hne htext

/-- Where no file is visited twice, the place where a run ends still has its first text. -/
theorem text?_stop (hnodup : (order.map Place.path).Nodup)
    (hstop : (progress tree order).stop = some place) :
    place ∈ order ∧ (progress tree order).tree.text? place.path = tree.text? place.path := by
  induction order generalizing tree with
  | nil => cases hstop
  | cons first places ih =>
    obtain ⟨hnotMem, hnodup⟩ := List.nodup_cons.mp hnodup
    cases hlayout : tree.layout? first with
    | none =>
      rw [progress_cons_of_no_layout hlayout] at hstop ⊢
      obtain rfl := Option.some.inj hstop
      exact ⟨List.mem_cons_self, rfl⟩
    | some laid =>
      rw [progress_cons_of_layout hlayout] at hstop ⊢
      obtain ⟨hmem, htext⟩ := ih hnodup hstop
      refine ⟨List.mem_cons_of_mem _ hmem, htext.trans (tree.text?_write_of_ne laid fun heq ↦ ?_)⟩
      exact hnotMem (heq ▸ List.mem_map_of_mem hmem)

theorem nodup_paths_visited
    (h : ∀ argument ∈ options.paths, FileTree.startsDoubled argument.toList = false) :
    ((visited options tree).map Place.path).Nodup :=
  (FileTree.nodup_paths_allFound h).sublist (List.filter_sublist.map _)

/-- No order of visits loses a text iff no file to visit has invalid SQL, provided that no file is visited
twice. -/
theorem forall_kept_visit_iff
    (h : ∀ argument ∈ options.paths, FileTree.startsDoubled argument.toList = false) :
    (∀ order : List Place, order.Perm (visited options tree) →
        tree.Kept (progress tree order).layouts (visit options order tree).tree) ↔
      (options.dryRun = false → ∀ place ∈ visited options tree, tree.isInvalid place = false) := by
  simp only [kept_visit_iff]
  constructor
  · intro hall hdry place hplace
    by_contra hinvalid
    rw [Bool.not_eq_false] at hinvalid
    -- The run that starts with the invalid file ends there.
    obtain ⟨text, htext, -⟩ := FileTree.text?_of_isInvalid hinvalid
    have hlayout : tree.layout? place = none := by
      simp only [FileTree.layout?, htext, (FileTree.isInvalid_iff htext).mp hinvalid]
    have hkept := hall _ (List.perm_cons_erase hplace).symm hdry place
    rw [progress_cons_of_no_layout hlayout] at hkept
    exact Bool.false_ne_true ((hkept rfl).symm.trans hinvalid)
  · intro hall order horder hdry place hstop
    have hnodup : (order.map Place.path).Nodup :=
      (horder.map _).nodup_iff.mpr (nodup_paths_visited h)
    obtain ⟨hmem, htext⟩ := text?_stop hnodup hstop
    rw [FileTree.isInvalid_congr htext]
    exact hall hdry place (horder.mem_iff.mp hmem)

/-- The files after the program is called and visits places in some order. -/
def treeAfter (args : List String) (order : List Place) (tree : FileTree) : FileTree :=
  match Options.ofArgs args with
  | .ok options => (visit options order tree).tree
  | .error _ => tree

/-- In whatever order the program visits places, each file keeps its text or has a layout that was found for
it, iff the run writes nothing or the place where it ends is not an SQL file whose text is invalid when its
turn comes.  If no path starts with two slashes, this is so for all orders of the places that are asked for
iff none of them is an SQL file with invalid SQL. -/
theorem kept_treeAfter_iff (args : List String) (tree : FileTree) :
    (∀ order : List Place,
      tree.Kept (progress tree order).layouts (treeAfter args order tree) ↔
        ∀ options, Options.ofArgs args = .ok options → options.dryRun = false →
          ∀ place, (progress tree order).stop = some place →
            (progress tree order).tree.isInvalid place = false) ∧
    ∀ options, Options.ofArgs args = .ok options →
      (∀ argument ∈ options.paths, FileTree.startsDoubled argument.toList = false) →
      ((∀ order : List Place, order.Perm (visited options tree) →
          tree.Kept (progress tree order).layouts (treeAfter args order tree)) ↔
        (options.dryRun = false → ∀ place ∈ visited options tree, tree.isInvalid place = false)) := by
  unfold treeAfter
  cases Options.ofArgs args with
  | error exit => exact ⟨fun order ↦ iff_of_true (.refl tree _) (by simp), by simp⟩
  | ok found =>
    refine ⟨fun order ↦ (kept_visit_iff found tree order).trans ⟨fun hstop options hoptions ↦ ?_,
      fun hall ↦ hall found rfl⟩, fun options hoptions ↦ ?_⟩
    · obtain rfl := Except.ok.inj hoptions
      exact hstop
    · obtain rfl := Except.ok.inj hoptions
      exact forall_kept_visit_iff

/-- A file with one word that starts no statement. -/
def strayWord : FileTree :=
  { here := ["d"], files := [(["d", "a.sql"], "foo")] }

/-- An SQL file whose only word starts no statement is emptied, and it is the only one to visit. -/
theorem not_kept_treeAfter_strayWord :
    Options.ofArgs ["a.sql"] = .ok { paths := ["a.sql"] } ∧
      visited { paths := ["a.sql"] } strayWord = [{ path := ["d", "a.sql"] }] ∧
      (treeAfter ["a.sql"] [{ path := ["d", "a.sql"] }] strayWord).text? ["d", "a.sql"] = some "" ∧
      ¬ strayWord.Kept (progress strayWord [{ path := ["d", "a.sql"] }]).layouts
        (treeAfter ["a.sql"] [{ path := ["d", "a.sql"] }] strayWord) := by
  have hcomputed : visited { paths := ["a.sql"] } strayWord = [{ path := ["d", "a.sql"] }] ∧
      (treeAfter ["a.sql"] [{ path := ["d", "a.sql"] }] strayWord).text? ["d", "a.sql"] = some "" ∧
      (progress strayWord [{ path := ["d", "a.sql"] }]).layouts = [] := by
    decide +kernel
  obtain ⟨hvisited, hafter, hlayouts⟩ := hcomputed
  refine ⟨rfl, hvisited, hafter, fun hkept ↦ ?_⟩
  obtain hsame | ⟨laid, hlaid, -⟩ := hkept ["d", "a.sql"] "foo" rfl
  · simp [hafter] at hsame
  · simp [hlayouts] at hlaid

end Run

end SqlLayout
