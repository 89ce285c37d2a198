import SqlLayout.Proofs.Run

/-!
# Dry runs

A run touches only the files it is asked to visit, whichever way it ends, and a dry run touches none.  If a
run that writes gets through all its places, the dry run does so too and prints the layout that each file has
at the start.  Where no file is visited under two names, what is written is not seen again, and the dry run
reports the same and prints what the other wrote.
-/

namespace SqlLayout

namespace Arg

theorem classifyAll_append {front back : List String} {sorted last : List Arg}
    (hnot : "--" ∉ front) (hfront : classifyAll front = .ok sorted)
    (hback : classifyAll back = .ok last) :
    classifyAll (front ++ back) = .ok (sorted ++ last) := by
  induction front generalizing sorted with
  | nil =>
    obtain rfl := Except.ok.inj hfront
    exact hback
  | cons text front ih =>
    rw [List.mem_cons, not_or] at hnot
    simp only [List.cons_append, classifyAll, if_neg (Ne.symm hnot.1)] at hfront ⊢
    cases harg : classify text with
    | error exit => simp [harg, bind, Except.bind] at hfront
    | ok arg =>
      cases hrest : classifyAll front with
      | error exit => simp [harg, hrest, bind, Except.bind] at hfront
      | ok rest =>
        simp only [harg, hrest, bind, Except.bind] at hfront
        obtain rfl := Except.ok.inj hfront
        simp only [ih hnot.2 hrest, bind, Except.bind]
        rfl

end Arg

namespace Options

def dry (options : Options) : Options :=
  { options with dryRun := true }

theorem takePaths_dry (options : Options) (run : List Arg) :
    options.dry.takePaths run = (options.takePaths run).dry := by
  unfold takePaths
  cases h : options.paths.isEmpty with
  | true => rw [if_pos (by exact h), if_pos rfl]; rfl
  | false => rw [if_neg (by exact Bool.eq_false_iff.mp h), if_neg Bool.false_ne_true]

theorem set_dry (options : Options) (switch : Switch) :
    options.dry.set switch = (options.set switch).map dry := by
  cases switch <;> rfl

theorem setAll_dry (options : Options) (switches : List Switch) :
    options.dry.setAll switches = (options.setAll switches).map dry := by
  induction switches generalizing options with
  | nil => rfl
  | cons switch switches ih =>
    simp only [setAll, set_dry]
    cases options.set switch with
    | error exit => rfl
    | ok changed => exact ih changed

theorem setAttached_dry (options : Options) (switch : Switch) (short : Bool) (value : String) :
    options.dry.setAttached switch short value =
      (options.setAttached switch short value).map dry := by
  simp only [setAttached]
  split
  · rfl
  · split
    · cases shortSwitches switch value.toList with
      | error exit => rfl
      | ok switches => exact setAll_dry options switches
    · rfl

theorem walk_switch (options : Options) (run : List Arg) (switch : Switch) (short : Bool)
    (rest : List Arg) (h : ¬ switch.takesValue = true) :
    walk options run (.use ⟨switch, short, none⟩ :: rest) =
      (options.takePaths run).set switch >>= fun changed ↦ walk changed [] rest := by
  rw [walk.eq_def]
  exact if_neg h

theorem walk_dry (options : Options) (run args : List Arg) :
    walk options.dry run args = (walk options run args).map dry := by
  fun_induction walk options run args with
  | case1 options run => simp [walk, takePaths_dry, Except.map]
  | case2 options run text rest ih => simpa only [walk] using ih
  | case3 options run rest ih => simpa only [walk] using ih
  | case4 options run rest ih => simpa only [walk, takePaths_dry] using ih
  | case5 options run switch short value rest ih =>
    simp only [walk, takePaths_dry, setAttached_dry]
    cases (options.takePaths run).setAttached switch short value with
    | error exit => rfl
    | ok changed => exact ih changed
  | case6 options run switch short htakes text more taken ih =>
    simp only [walk, htakes, if_true, takePaths_dry]
    exact ih
  | case7 options run switch short rest htakes hrest =>
    rw [walk, if_pos htakes]
    · rfl
    · exact hrest
  | case8 options run switch short rest htakes ih =>
    simp only [walk_switch _ _ _ _ _ htakes, takePaths_dry, set_dry]
    cases (options.takePaths run).set switch with
    | error exit => rfl
    | ok changed => exact ih changed

/-- A command line asks for a dry run if the switch for it is put in front. -/
theorem ofArgs_cons_dryRun {args : List String} {options : Options} (h : ofArgs args = .ok options) :
    ofArgs ("--dry-run" :: args) = .ok options.dry := by
  have hclass : Arg.classifyAll ("--dry-run" :: args) =
      (Arg.classifyAll args).map (.use ⟨.dryRun, false, none⟩ :: ·) := by
    have hswitch : Arg.classify "--dry-run" = .ok (.use ⟨.dryRun, false, none⟩) := rfl
    simp only [Arg.classifyAll, hswitch]
    cases Arg.classifyAll args <;> rfl
  simp only [ofArgs, hclass] at h ⊢
  cases hsorted : Arg.classifyAll args with
  | error exit => simp [hsorted, bind, Except.bind] at h
  | ok sorted =>
    have hwalk : walk {} [] (.use ⟨.dryRun, false, none⟩ :: sorted) =
        (walk {} [] sorted).map dry := by
      rw [← walk_dry]
      exact walk_switch {} [] .dryRun false sorted (by decide)
    simp only [hsorted, bind, Except.bind, Except.map, hwalk] at h ⊢
    cases hopts : walk {} [] sorted with
    | error exit => simp [hopts] at h
    | ok found =>
      simp only [hopts] at h ⊢
      split at h
      · cases h
      · rename_i hpaths
        cases h
        exact if_neg hpaths

theorem takePaths_nil (options : Options) : options.takePaths [] = options := by
  unfold takePaths
  split
  · rename_i hpaths
    rw [List.filterMap_nil, ← List.isEmpty_iff.mp hpaths]
  · rfl

theorem walk_append_dryRun (options : Options) (run args : List Arg) {found : Options}
    (h : walk options run args = .ok found) :
    walk options run (args ++ [.use ⟨.dryRun, false, none⟩]) = .ok found.dry := by
  fun_induction walk options run args with
  | case1 options run =>
    obtain rfl := Except.ok.inj h
    have hset : (options.takePaths run).set .dryRun = .ok (options.takePaths run).dry := rfl
    rw [List.nil_append, walk_switch _ _ _ _ _ (by decide), hset]
    exact congrArg Except.ok (takePaths_nil _)
  | case2 options run text rest ih => exact ih h
  | case3 options run rest ih => exact ih h
  | case4 options run rest ih => exact ih h
  | case5 options run switch short value rest ih =>
    simp only [List.cons_append, walk]
    cases hset : (options.takePaths run).setAttached switch short value with
    | error exit => simp [hset, bind, Except.bind] at h
    | ok changed =>
      simp only [hset, bind, Except.bind] at h
      exact ih changed h
  | case6 options run switch short htakes text more taken ih =>
    simp only [List.cons_append, walk, htakes, if_true]
    exact ih h
  | case7 options run switch short rest htakes hrest => cases h
  | case8 options run switch short rest htakes ih =>
    simp only [List.cons_append, walk_switch _ _ _ _ _ htakes]
    cases hset : (options.takePaths run).set switch with
    | error exit => simp [hset, bind, Except.bind] at h
    | ok changed =>
      simp only [hset, bind, Except.bind] at h
      exact ih changed h

/-- The same holds if the switch is put behind all arguments, unless a separator makes a path of it. -/
theorem ofArgs_append_dryRun {args : List String} {options : Options} (hnot : "--" ∉ args)
    (h : ofArgs args = .ok options) : ofArgs (args ++ ["--dry-run"]) = .ok options.dry := by
  have hswitch : Arg.classifyAll ["--dry-run"] = .ok [.use ⟨.dryRun, false, none⟩] := rfl
  unfold ofArgs at h ⊢
  cases hsorted : Arg.classifyAll args with
  | error exit => simp [hsorted, bind, Except.bind] at h
  | ok sorted =>
    cases hwalk : walk {} [] sorted with
    | error exit => simp [hsorted, hwalk, bind, Except.bind] at h
    | ok found =>
      simp only [hsorted, hwalk, bind, Except.bind] at h
      simp only [Arg.classifyAll_append hnot hsorted hswitch, walk_append_dryRun _ _ _ hwalk,
        bind, Except.bind]
      split at h
      · cases h
      · rename_i hpaths
        cases h
        exact if_neg hpaths

end Options

/-- Both names of a file tell the same kind. -/
theorem SourceKind.ofName_name (path : Path) (doubled : Bool) :
    ofName (Place.name ⟨path, doubled⟩) = ofName (Place.name ⟨path, false⟩) := by
  cases doubled with
  | false => rfl
  | true =>
    have hslash : ∀ text : List Char, ['.', 'p', 'y'].isSuffixOf ('/' :: text) =
        ['.', 'p', 'y'].isSuffixOf text := by
      intro text
      rw [Bool.eq_iff_iff, List.isSuffixOf_iff_suffix, List.isSuffixOf_iff_suffix,
        List.suffix_cons_iff]
      simp
    simp [ofName, Place.name, hslash]

theorem FileTree.layout?_of_path (tree : FileTree) {first second : Place}
    (h : first.path = second.path) : tree.layout? first = tree.layout? second := by
  obtain ⟨path, doubled⟩ := first
  obtain ⟨_, doubled'⟩ := second
  obtain rfl := h
  simp only [layout?, SourceKind.ofName_name path doubled, SourceKind.ofName_name path doubled']

namespace Run

variable {options : Options} {places : List Place} {tree : FileTree}

/-- No run creates or removes a file. -/
theorem paths_visit (options : Options) (places : List Place) (tree : FileTree) :
    (visit options places tree).tree.files.map Prod.fst = tree.files.map Prod.fst := by
  induction places generalizing tree with
  | nil => rfl
  | cons place places ih =>
    rw [tree_visit_cons]
    split
    · rfl
    · split
      · rfl
      · split
        · exact ih tree
        · split
          · rw [ih, tree.paths_write]
          · exact tree.paths_write place.path ""

/-- A run leaves the files that it does not visit alone. -/
theorem text?_visit_of_notMem (options : Options) {other : Path} (h : other ∉ places.map Place.path)
    (tree : FileTree) : (visit options places tree).tree.text? other = tree.text? other := by
  induction places generalizing tree with
  | nil => rfl
  | cons place places ih =>
    rw [List.map_cons, List.mem_cons, not_or] at h
    obtain ⟨hne, hrest⟩ := h
    rw [tree_visit_cons]
    split
    · rfl
    · split
      · rfl
      · split
        · exact ih hrest tree
        · split
          · rw [ih hrest, tree.text?_write_of_ne _ hne]
          · exact tree.text?_write_of_ne "" hne

def reportOn (options : Options) (name text : String) : String :=
  ended (name :: (layOut (SourceKind.ofName name) options.debug text).report)

/-- A run that writes and does not fail has written the layout of the first file. -/
theorem exists_visit_cons_of_failure (hwrites : options.dryRun = false) {place : Place}
    (h : (visit options (place :: places) tree).failure = none) :
    ∃ text laid, tree.text? place.path = some text ∧ tree.layout? place = some laid ∧
      visit options (place :: places) tree =
        (visit options places (tree.write place.path laid)).after ""
          (reportOn options place.name text) := by
  cases htext : tree.text? place.path with
  | none => simp [visit, htext] at h
  | some text =>
    cases hlayout : (layOut (SourceKind.ofName place.name) options.debug text).layout with
    | error fault => simp [visit, htext, hlayout] at h
    | ok layout =>
      cases layout with
      | none => simp [visit, htext, hlayout, hwrites] at h
      | some laid =>
        refine ⟨text, laid, rfl, FileTree.layout?_eq_some_iff.mpr ⟨text, htext, ?_⟩, ?_⟩
        · rw [← layout_layOut _ options.debug, hlayout]
        · simp [visit, htext, hlayout, hwrites, reportOn]

theorem visit_dry_cons {place : Place} (places : List Place) {text laid : String}
    (htext : tree.text? place.path = some text) (hlaid : tree.layout? place = some laid) :
    visit options.dry (place :: places) tree =
      (visit options.dry places tree).after (laid ++ "\n") (reportOn options place.name text) := by
  obtain ⟨text', htext', hlayout⟩ := FileTree.layout?_eq_some_iff.mp hlaid
  obtain rfl : text = text' := by simpa [htext] using htext'
  rw [← layout_layOut _ options.debug] at hlayout
  simp only [visit, htext, Options.dry, hlayout, reportOn, if_true, Option.getD_some]

theorem visit_dry_of_layouts (options : Options) {texts : List String}
    (h : places.map tree.layout? = texts.map some) :
    (visit options.dry places tree).failure = none ∧
      (visit options.dry places tree).output = ended texts := by
  induction places generalizing texts with
  | nil =>
    obtain rfl : texts = [] := by simpa using h.symm
    exact ⟨rfl, rfl⟩
  | cons place places ih =>
    cases texts with
    | nil => cases h
    | cons laid texts =>
      obtain ⟨hlaid, hrest⟩ := List.cons.inj h
      obtain ⟨text, htext, -⟩ := FileTree.layout?_eq_some_iff.mp hlaid
      obtain ⟨hfailure, houtput⟩ := ih hrest
      rw [visit_dry_cons places htext hlaid]
      exact ⟨hfailure, by simp only [after, houtput, ended, List.map_cons, String.join_cons]⟩

/-- If a run that writes gets through all its places, all of them have a layout at the start. -/
theorem exists_layouts_of_failure (hwrites : options.dryRun = false)
    (h : (visit options places tree).failure = none) :
    ∃ texts : List String, places.map tree.layout? = texts.map some := by
  have hall : ∀ place ∈ places, (tree.layout? place).isSome = true := by
    induction places generalizing tree with
    | nil => simp
    | cons first places ih =>
      obtain ⟨text, laid, -, hlaid, hvisit⟩ := exists_visit_cons_of_failure hwrites h
      rw [hvisit] at h
      intro place hplace
      rcases List.mem_cons.mp hplace with rfl | hmem
      · simp [hlaid]
      · by_cases hpath : place.path = first.path
        -- Under its other name the file has the same layout.
        · simp [tree.layout?_of_path hpath, hlaid]
        · rw [← FileTree.layout?_congr (tree.text?_write_of_ne laid hpath)]
          exact ih h place hmem
  refine ⟨places.filterMap tree.layout?, ?_⟩
  rw [List.map_filterMap_some_eq_filter_map_isSome, List.filter_eq_self.mpr]
  intro layout hlayout
  obtain ⟨place, hplace, rfl⟩ := List.mem_map.mp hlayout
  exact hall place hplace

/-- If a run that writes gets through all its places and visits no file twice, the dry run reports the same
from any tree with the same texts at these places, and what has been written are their layouts. -/
theorem report_visit_dry_of_failure (hwrites : options.dryRun = false)
    (hnodup : (places.map Place.path).Nodup) {start : FileTree}
    (hstart : ∀ place ∈ places, start.text? place.path = tree.text? place.path)
    (h : (visit options places tree).failure = none) :
    (visit options.dry places start).report = (visit options places tree).report ∧
      places.map (fun place ↦ (visit options places tree).tree.text? place.path) =
        places.map start.layout? := by
  induction places generalizing tree with
  | nil => exact ⟨rfl, rfl⟩
  | cons place places ih =>
    obtain ⟨hnotMem, hnodup⟩ := List.nodup_cons.mp hnodup
    obtain ⟨text, laid, htext, hlaid, hvisit⟩ := exists_visit_cons_of_failure hwrites h
    have hsame := hstart place List.mem_cons_self
    have hfirst : start.layout? place = some laid := (FileTree.layout?_congr hsame).trans hlaid
    -- The file just written is not visited again, so the other texts still agree.
    have hstart' : ∀ later ∈ places,
        start.text? later.path = (tree.write place.path laid).text? later.path := by
      intro later hmem
      have hne : later.path ≠ place.path := fun heq ↦ hnotMem (heq ▸ List.mem_map_of_mem hmem)
      rw [tree.text?_write_of_ne laid hne]
      exact hstart later (List.mem_cons_of_mem _ hmem)
    have hwritten : (visit options places (tree.write place.path laid)).tree.text? place.path =
        some laid := by
      rw [text?_visit_of_notMem options hnotMem, FileTree.text?_write_of_layout hlaid]
    rw [hvisit] at h
    obtain ⟨hreport, htexts⟩ := ih hnodup hstart' h
    rw [visit_dry_cons places (hsame.trans htext) hfirst, hvisit]
    exact ⟨by simp only [after, hreport],
      by simp only [after, List.map_cons, hwritten, htexts, hfirst]⟩

/-- However the places are ordered, a run changes only files that it is asked for and that have one of the
given types, and creates and removes none, even if it fails; a dry run changes none.  If a run that writes
does not fail, the same command line with the switch for a dry run in front, or behind if there is no
separator, does not fail and prints for each place the layout that the file has at the start.  If no file is
visited twice, as is the case where no path starts with two slashes, it gives the same report and prints the
new text of each file in turn. -/
theorem visit_changes_and_visit_dry {args : List String} {options : Options}
    (hargs : Options.ofArgs args = .ok options) {tree : FileTree} {order : List Place}
    (horder : order.Perm (visited options tree)) :
    ((visit options order tree).tree.files.map Prod.fst = tree.files.map Prod.fst ∧
      ∀ path, (visit options order tree).tree.text? path ≠ tree.text? path →
        ∃ place ∈ tree.allFound options.recursive options.paths,
          place.path = path ∧ place.hasType options.types = true) ∧
    (options.dryRun = true → (visit options order tree).tree = tree) ∧
    (options.dryRun = false → (visit options order tree).failure = none →
      Options.ofArgs ("--dry-run" :: args) = .ok options.dry ∧
      ("--" ∉ args → Options.ofArgs (args ++ ["--dry-run"]) = .ok options.dry) ∧
      order.Perm (visited options.dry tree) ∧
      (visit options.dry order tree).failure = none ∧
      ∃ texts, order.map tree.layout? = texts.map some ∧
        (visit options.dry order tree).output = ended texts ∧
        ((order.map Place.path).Nodup →
          (visit options.dry order tree).report = (visit options order tree).report ∧
          order.map (fun place ↦ (visit options order tree).tree.text? place.path) =
            texts.map some)) ∧
    ((∀ argument ∈ options.paths, FileTree.startsDoubled argument.toList = false) →
      (order.map Place.path).Nodup) := by
  refine ⟨⟨paths_visit options order tree, ?_⟩, fun hdry ↦ tree_visit_of_dryRun hdry order tree, ?_,
    fun h ↦ (horder.map _).nodup_iff.mpr (nodup_paths_visited h)⟩
  · intro path hchanged
    have hmem : path ∈ order.map Place.path := by
      by_contra hnot
      exact hchanged (text?_visit_of_notMem options hnot tree)
    obtain ⟨place, hplace, rfl⟩ := List.mem_map.mp hmem
    obtain ⟨hfound, htype⟩ := List.mem_filter.mp (horder.mem_iff.mp hplace)
    exact ⟨place, hfound, rfl, htype⟩
  · intro hwrites hfailure
    obtain ⟨texts, htexts⟩ := exists_layouts_of_failure hwrites hfailure
    obtain ⟨hdry, houtput⟩ := visit_dry_of_layouts options htexts
    refine ⟨Options.ofArgs_cons_dryRun hargs, fun hnot ↦ Options.ofArgs_append_dryRun hnot hargs,
      horder, hdry, texts, htexts, houtput, fun hnodup ↦ ?_⟩
    rw [← htexts]
    exact report_visit_dry_of_failure hwrites hnodup (fun _ _ ↦ rfl) hfailure

def mixedFiles : FileTree where
  here := ["d"]
  files := [(["d", "a.py"], "x = \"\"\"select b;\"\"\"\n"), (["d", "b.sql"], "select a"),
    (["d", "c.txt"], "a")]

theorem visit_mixedFiles_changes_and_visit_dry :
    Options.ofArgs ["a.py", "b.sql"] = .ok { paths := ["a.py", "b.sql"] } ∧
      [{ path := ["d", "b.sql"] }, { path := ["d", "a.py"] }].Perm
        (visited { paths := ["a.py", "b.sql"] } mixedFiles) ∧
      (visit { paths := ["a.py", "b.sql"] } [{ path := ["d", "b.sql"] }, { path := ["d", "a.py"] }]
        mixedFiles).failure = none ∧
      (visit { paths := ["a.py", "b.sql"], dryRun := true }
        [{ path := ["d", "b.sql"] }, { path := ["d", "a.py"] }] mixedFiles).failure = none := by
  have hargs : Options.ofArgs ["a.py", "b.sql"] = .ok { paths := ["a.py", "b.sql"] } := rfl
  have hcomputed : [{ path := ["d", "b.sql"] }, { path := ["d", "a.py"] }].Perm
        (visited { paths := ["a.py", "b.sql"] } mixedFiles) ∧
      (visit { paths := ["a.py", "b.sql"] } [{ path := ["d", "b.sql"] }, { path := ["d", "a.py"] }]
        mixedFiles).failure = none := by
    decide +kernel
  obtain ⟨horder, hfailure⟩ := hcomputed
  obtain ⟨-, -, hdry, -⟩ := visit_changes_and_visit_dry hargs horder
  exact ⟨hargs, horder, hfailure, (hdry rfl hfailure).2.2.2.1⟩

def pairOfFiles : FileTree where
  here := ["d"]
  files := [(["d", "a.sql"], "select a"), (["d", "b.sql"], "select b")]

def tableNamedLeft : FileTree where
  here := ["d"]
  files := [(["d", "a.sql"], "from left, join b")]

/-- With the switch between two paths the dry run prints the layout of the first file alone.  And a file that
is named with one slash and with two is laid out twice, while the dry run prints its first layout twice. -/
theorem output_visit_dry_differs :
    (Options.ofArgs ["a.sql", "b.sql"] = .ok { paths := ["a.sql", "b.sql"] } ∧
      Options.ofArgs ["a.sql", "--dry-run", "b.sql"] = .ok { paths := ["a.sql"], dryRun := true } ∧
      (visit { paths := ["a.sql", "b.sql"] } [{ path := ["d", "a.sql"] }, { path := ["d", "b.sql"] }]
        pairOfFiles).failure = none ∧
      visited { paths := ["a.sql"], dryRun := true } pairOfFiles = [{ path := ["d", "a.sql"] }] ∧
      (visit { paths := ["a.sql"], dryRun := true } [{ path := ["d", "a.sql"] }] pairOfFiles).output =
        "SELECT\n    a\n") ∧
    visited { paths := ["/d/a.sql", "//d/a.sql"] } tableNamedLeft =
      [{ path := ["d", "a.sql"], doubled := true }, { path := ["d", "a.sql"] }] ∧
    (visit { paths := ["/d/a.sql", "//d/a.sql"] } [{ path := ["d", "a.sql"], doubled := true },
      { path := ["d", "a.sql"] }] tableNamedLeft).failure = none ∧
    (visit { paths := ["/d/a.sql", "//d/a.sql"] } [{ path := ["d", "a.sql"], doubled := true },
      { path := ["d", "a.sql"] }] tableNamedLeft).tree.text? ["d", "a.sql"] =
        some "FROM\n    LEFT\n    JOIN b" ∧
    (visit { paths := ["/d/a.sql", "//d/a.sql"], dryRun := true } [{ path := ["d", "a.sql"], doubled := true },
      { path := ["d", "a.sql"] }] tableNamedLeft).output =
        "FROM\n    left\n    JOIN b\nFROM\n    left\n    JOIN b\n" := by
  refine ⟨⟨rfl, rfl, ?_⟩, ?_⟩
  · decide +kernel
  · decide +kernel

end Run

end SqlLayout
