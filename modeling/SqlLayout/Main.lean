import SqlLayout.Run

/-!
# The command line

Reads the names below the given paths, runs the program on the files it visits, writes back the
texts that changed and prints what the run printed.
-/

namespace SqlLayout.CommandLine

def absolute (path : Path) : String :=
  Place.name { path }

/-- The directories and files from a path on; links to directories are not followed. -/
partial def entriesFrom (path : Path) : IO (List Path × List Path) := do
  let place := (← IO.currentDir) / absolute path
  if !(← place.pathExists) then return ([], [])
  if !(← place.isDir) then return ([], [path])
  let mut directories := [path]
  let mut files := []
  for entry in ← place.readDir do
    if (← entry.path.symlinkMetadata).type == .symlink && (← entry.path.isDir) then continue
    let below ← entriesFrom (path ++ [entry.fileName])
    directories := directories ++ below.1
    files := files ++ below.2
  return (directories, files)

/-- What the given paths lead to, without the texts of the files. -/
def namesFor (options : Options) : IO FileTree := do
  let here := (Path.names (← IO.currentDir).toString).filter (· != "")
  let empty : FileTree := { here, files := [] }
  let mut directories := []
  let mut files := []
  for argument in options.paths do
    let top := (empty.locate argument).path.takeWhile fun name ↦ !NamePattern.isPattern name
    let found ← entriesFrom top
    directories := directories ++ found.1
    files := files ++ found.2
  return { empty with
    directories := directories.eraseDups
    files := files.eraseDups.map fun path ↦ (path, "") }

def withTexts (tree : FileTree) (places : List Place) : IO FileTree := do
  let mut loaded := tree
  for place in places do
    if tree.isFile place.path then
      loaded := loaded.write place.path (← IO.FS.readFile (absolute place.path))
  return loaded

def writeBack (before after : FileTree) : IO Unit := do
  for (path, text) in after.files do
    if before.text? path != some text then
      IO.FS.writeFile (absolute path) text

def run (options : Options) : IO UInt32 := do
  let names ← namesFor options
  let visited := Run.visited options names
  let tree ← withTexts names visited
  let result := Run.visit options visited tree
  writeBack tree result.tree
  (← IO.getStdout).putStr result.output
  (← IO.getStderr).putStr result.report
  return if result.failure.isSome then 1 else 0

end SqlLayout.CommandLine

def main (args : List String) : IO UInt32 := do
  match SqlLayout.Options.ofArgs args with
  | .ok options => SqlLayout.CommandLine.run options
  | .error exit =>
    (← IO.getStdout).putStr exit.output
    for line in exit.complaint? do
      (← IO.getStderr).putStrLn (SqlLayout.Exit.usageText ++ line)
    return exit.code.toUInt32
