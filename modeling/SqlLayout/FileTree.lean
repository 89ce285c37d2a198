import SqlLayout.NamePattern

/-!
# File trees

A file tree holds the directories of a file system and the texts of its files.  It answers which places a
list of paths asks for.  One file can have two names, for a name may start with two slashes; such names are
different places.
-/

namespace SqlLayout

/-- The names on the way from the top of the file system to a file or directory. -/
abbrev Path := List String

/-- What an absolute name leads to; a name that starts with exactly two slashes keeps both. -/
structure Place where
  path : Path
  doubled : Bool := false
deriving DecidableEq, Repr

def Place.name (place : Place) : String :=
  (if place.doubled then "//" else "/") ++ "/".intercalate place.path

/-- Relative paths start from the directory `here`.  Directories that hold something need not be listed. -/
structure FileTree where
  here : Path
  directories : List Path := []
  files : List (Path × String)
deriving Repr

namespace Path

/-- Whether a path leads to a place strictly below another. -/
def isBelow (path top : Path) : Bool :=
  top.isPrefixOf path && top.length < path.length

def split : List Char → List (List Char)
  | [] => [[]]
  | c :: rest =>
    if c = '/' then [] :: split rest
    else
      match split rest with
      | [] => [[c]]
      | name :: names => (c :: name) :: names

def names (text : String) : List String :=
  (split text.toList).map String.ofList

/-- Follows names from a path.  Empty names and single dots stay, double dots go up as far as there is
anything above. -/
def follow (path : Path) : List String → Path
  | [] => path
  | name :: names =>
    if name = "" || name = "." then follow path names
    else if name = ".." then follow path.dropLast names
    else follow (path ++ [name]) names

end Path

namespace FileTree

def text? (tree : FileTree) (path : Path) : Option String :=
  tree.files.lookup path

def isFile (tree : FileTree) (path : Path) : Bool :=
  (tree.text? path).isSome

def paths (tree : FileTree) : List Path :=
  tree.here :: tree.directories ++ tree.files.map Prod.fst

def isDirectory (tree : FileTree) (path : Path) : Bool :=
  (tree.here :: tree.directories).contains path || tree.paths.any fun other ↦ other.isBelow path

def filesBelow (tree : FileTree) (directory : Path) : List Path :=
  (tree.files.map Prod.fst).filter fun path ↦ path.isBelow directory

def namesIn (tree : FileTree) (directory : Path) : List String :=
  ((tree.paths.filter fun path ↦ path.isBelow directory).filterMap
    fun path ↦ path[directory.length]?).eraseDups

/-- Whether a text starts with two slashes and no third. -/
def startsDoubled : List Char → Bool
  | '/' :: '/' :: rest => rest.head? != some '/'
  | _ => false

def locate (tree : FileTree) (argument : String) : Place :=
  if argument.toList.head? = some '/' then
    ⟨Path.follow [] (Path.names argument), startsDoubled argument.toList⟩
  else ⟨tree.here.follow (Path.names argument), false⟩

/-- The directories that a path stands for when every name on it that is a pattern is read as one.
-/
def directoriesFor (tree : FileTree) (top : Path) : Path → List Path
  | [] => [top]
  | name :: names =>
    if NamePattern.isPattern name then
      ((tree.namesIn top).filter fun entry ↦
        NamePattern.matchesName name entry && tree.isDirectory (top ++ [entry])).flatMap
          fun entry ↦ tree.directoriesFor (top ++ [entry]) names
    else tree.directoriesFor (top ++ [name]) names

def visibleIn (tree : FileTree) (directory : Path) : List Path :=
  ((tree.namesIn directory).filter fun name ↦ !NamePattern.isHidden name).map fun name ↦
    directory ++ [name]

/-- What a path leads to: a file, or what is found in a directory. -/
def pathsFor (tree : FileTree) (recursive : Bool) (path : Path) : List Path :=
  if tree.isFile path then [path]
  else if tree.isDirectory path then
    if recursive then tree.filesBelow path
    else (tree.directoriesFor [] path).flatMap tree.visibleIn
  else []

/-- What a path argument asks for.  Names below one that starts with two slashes start with two. -/
def found (tree : FileTree) (recursive : Bool) (argument : String) : List Place :=
  let place := tree.locate argument
  (tree.pathsFor recursive place.path).map fun path ↦ { place with path }

def insertByName (place : Place) : List Place → List Place
  | [] => [place]
  | other :: others =>
    if place = other then other :: others
    else if place.name < other.name then place :: other :: others
    else other :: insertByName place others

/-- What a list of path arguments asks for, each place once.  The order of the names stands for the
arbitrary order that the program takes them in. -/
def allFound (tree : FileTree) (recursive : Bool) (arguments : List String) : List Place :=
  (arguments.flatMap (tree.found recursive)).foldr insertByName []

def write (tree : FileTree) (path : Path) (text : String) : FileTree :=
  { tree with files := tree.files.map fun file ↦ if file.1 = path then (path, text) else file }

theorem text?_write_of_ne (tree : FileTree) {path other : Path} (text : String)
    (h : other ≠ path) : (tree.write path text).text? other = tree.text? other := by
  obtain ⟨here, directories, files⟩ := tree
  simp only [write, text?]
  induction files with
  | nil => rfl
  | cons file files ih =>
    obtain ⟨place, content⟩ := file
    by_cases hp : place = path
    · subst hp
      have hne : (other == place) = false := by simpa using h
      simpa [List.lookup_cons, hne] using ih
    · simp [List.lookup_cons, hp, ih]

theorem text?_write_self (tree : FileTree) {path : Path} (text : String)
    (h : tree.isFile path = true) : (tree.write path text).text? path = some text := by
  obtain ⟨here, directories, files⟩ := tree
  simp only [isFile, write, text?] at h ⊢
  induction files with
  | nil => simp at h
  | cons file files ih =>
    obtain ⟨place, content⟩ := file
    by_cases hp : place = path
    · simp [hp]
    · have hne : (path == place) = false := by simpa using fun hc ↦ hp hc.symm
      simp only [List.lookup_cons, hne] at h
      simpa [List.lookup_cons, hp, hne] using ih h

end FileTree

def Place.hasType (types : List String) (place : Place) : Bool :=
  types.isEmpty || types.any fun ending ↦ ending.toList.isSuffixOf place.name.toList

end SqlLayout
