import SqlLayout.FileTree
import SqlLayout.Options
import SqlLayout.Source

/-!
# Runs of the program

A run visits the places that a command line asks for, in any order.  The layout of a file takes the place
of its text, or is printed if the run is dry.  The first failure ends the run and leaves the files that were
not visited alone.
-/

namespace SqlLayout

/-- Why a run ends before all files are visited. -/
inductive Failure where
  | fault (fault : Fault)
  /-- A directory cannot be read as a file. -/
  | directory
  /-- A file without a layout is emptied before it is found that nothing can be written. -/
  | nothingToWrite
deriving DecidableEq, Repr

structure Run where
  tree : FileTree
  output : String := ""
  report : String := ""
  failure : Option Failure := none
deriving Repr

namespace Run

def ended (lines : List String) : String :=
  String.join (lines.map (· ++ "\n"))

def after (output report : String) (run : Run) : Run :=
  { run with output := output ++ run.output, report := report ++ run.report }

/-- Visits places one after another. -/
def visit (options : Options) : List Place → FileTree → Run
  | [], tree => { tree }
  | place :: places, tree =>
    let name := place.name
    match tree.text? place.path with
    | none => { tree, report := name ++ "\n", failure := some .directory }
    | some text =>
      let laidOut := layOut (SourceKind.ofName name) options.debug text
      let report := ended (name :: laidOut.report)
      match laidOut.layout with
      | .error fault => { tree, report, failure := some (.fault fault) }
      | .ok layout =>
        if options.dryRun then
          (visit options places tree).after (layout.getD "None" ++ "\n") report
        else
          match layout with
          | some laid => (visit options places (tree.write place.path laid)).after "" report
          | none =>
            { tree := tree.write place.path "", report, failure := some .nothingToWrite }

/-- The places that a command line asks for. -/
def visited (options : Options) (tree : FileTree) : List Place :=
  (tree.allFound options.recursive options.paths).filter (·.hasType options.types)

def ofArgs (args : List String) (tree : FileTree) : Except Exit Run := do
  let options ← Options.ofArgs args
  return visit options (visited options tree) tree

end Run

end SqlLayout
