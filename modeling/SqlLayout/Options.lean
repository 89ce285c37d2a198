import SqlLayout.Text.Digit
import SqlLayout.Text.Quoted

/-!
# Command lines

A command line is a list of arguments: switches, of which long ones may be shortened as long as only
one fits, and values.  The first run of values that no switch takes is the list of paths; later ones
are ignored, and so are switches that are not known.  After `--` every argument is a value.
-/

namespace SqlLayout

structure Options where
  paths : List String := []
  types : List String := []
  recursive : Bool := false
  noSemicolon : Bool := false
  debug : Bool := false
  dryRun : Bool := false
deriving DecidableEq, Repr

/-- Why a command line ends the program at once. -/
inductive Exit where
  | help
  | version
  | usage (problem : String)
deriving DecidableEq, Repr

inductive Switch where
  | help
  | types
  | recursive
  | noSemicolon
  | version
  | debug
  | dryRun
deriving DecidableEq, Repr

namespace Switch

def spellings : List (String × Switch) :=
  [("-h", help), ("--help", help), ("--types", types), ("-r", recursive),
    ("--recursive", recursive), ("--no-semicolon", noSemicolon), ("--version", version),
    ("--debug", debug), ("--dry-run", dryRun)]

def name (switch : Switch) : String :=
  "/".intercalate ((spellings.filter fun s ↦ s.2 = switch).map Prod.fst)

def takesValue (switch : Switch) : Bool :=
  switch = types

end Switch

/-- A switch as it is written: whether by its single letter, and the value attached to it. -/
structure Use where
  switch : Switch
  short : Bool
  value : Option String
deriving DecidableEq, Repr

inductive Arg where
  | value (text : String)
  | separator
  | use (use : Use)
  | unknown
deriving DecidableEq, Repr

namespace Arg

def splitAtEqual : List Char → List Char × Option (List Char)
  | [] => ([], none)
  | c :: rest =>
    if c = '=' then ([], some rest) else (c :: (splitAtEqual rest).1, (splitAtEqual rest).2)

/-- Whether a text is a dash and a number with an optional point. -/
def isNegativeNumber : List Char → Bool
  | '-' :: text =>
    let digits := if text.getLast? = some '\n' then text.dropLast else text
    match digits.dropWhile Text.isDecimal with
    | [] => !digits.isEmpty
    | '.' :: fraction => !fraction.isEmpty && fraction.all Text.isDecimal
    | _ => false
  | _ => false

def isShort (spelling : String) : Bool :=
  !(['-', '-'].isPrefixOf spelling.toList)

def candidates (text : List Char) : List (String × Use) :=
  if ['-', '-'].isPrefixOf text then
    let (start, attached) := splitAtEqual text
    (Switch.spellings.filter fun s ↦ start.isPrefixOf s.1.toList).map fun s ↦
      (s.1, ⟨s.2, isShort s.1, attached.map String.ofList⟩)
  else
    (Switch.spellings.filter fun s ↦ s.1.toList = text.take 2).map fun s ↦
      (s.1, ⟨s.2, true, some (String.ofList (text.drop 2))⟩)

def spelledOut? (text : String) : Option Use :=
  match Switch.spellings.lookup text with
  | some switch => some ⟨switch, isShort text, none⟩
  | none =>
    match splitAtEqual text.toList with
    | (start, some attached) =>
      (Switch.spellings.lookup (String.ofList start)).map fun switch ↦
        ⟨switch, isShort text, some (String.ofList attached)⟩
    | (_, none) => none

def classify (text : String) : Except Exit Arg :=
  if text.toList.head? != some '-' || text = "-" then .ok (.value text)
  else
    match spelledOut? text with
    | some found => .ok (.use found)
    | none =>
      match candidates text.toList with
      | [(_, found)] => .ok (.use found)
      | [] =>
        if isNegativeNumber text.toList || text.toList.contains ' ' then .ok (.value text)
        else .ok .unknown
      | several =>
        .error (.usage ("ambiguous option: " ++ text ++ " could match " ++
          ", ".intercalate (several.map Prod.fst)))

def classifyAll : List String → Except Exit (List Arg)
  | [] => .ok []
  | text :: rest =>
    if text = "--" then .ok (.separator :: rest.map .value)
    else do
      let arg ← classify text
      let args ← classifyAll rest
      return arg :: args

def value? : Arg → Option String
  | value text => some text
  | _ => none

end Arg

namespace Options

def ignoredValue (switch : Switch) (value : String) : Exit :=
  .usage ("argument " ++ switch.name ++ ": ignored explicit argument " ++ Text.quoted value)

def shortSwitches (switch : Switch) : List Char → Except Exit (List Switch)
  | [] => .ok [switch]
  | c :: rest =>
    match Switch.spellings.lookup (String.ofList ['-', c]) with
    | some next => do
      let switches ← shortSwitches next rest
      return switch :: switches
    | none => .error (ignoredValue switch (String.ofList (c :: rest)))

def set (options : Options) : Switch → Except Exit Options
  | .help => .error .help
  | .version => .error .version
  | .types => .ok options
  | .recursive => .ok { options with recursive := true }
  | .noSemicolon => .ok { options with noSemicolon := true }
  | .debug => .ok { options with debug := true }
  | .dryRun => .ok { options with dryRun := true }

def setAll (options : Options) : List Switch → Except Exit Options
  | [] => .ok options
  | switch :: switches => do
    let changed ← options.set switch
    changed.setAll switches

def setAttached (options : Options) (switch : Switch) (short : Bool) (value : String) :
    Except Exit Options :=
  if switch.takesValue then .ok { options with types := options.types ++ [value] }
  else if short && value != "" then do
    let switches ← shortSwitches switch value.toList
    options.setAll switches
  else .error (ignoredValue switch value)

/-- Takes the next run of values as the paths, if it holds any and there are none yet. -/
def takePaths (options : Options) (run : List Arg) : Options :=
  if options.paths.isEmpty then { options with paths := run.filterMap Arg.value? } else options

/-- Goes through the arguments, `run` being the values in front that no switch takes. -/
def walk (options : Options) (run : List Arg) : List Arg → Except Exit Options
  | [] => .ok (options.takePaths run)
  | .value text :: rest => walk options (run ++ [.value text]) rest
  | .separator :: rest => walk options (run ++ [.separator]) rest
  | .unknown :: rest => walk (options.takePaths run) [] rest
  | .use ⟨switch, short, some value⟩ :: rest => do
    let changed ← (options.takePaths run).setAttached switch short value
    walk changed [] rest
  | .use ⟨switch, _, none⟩ :: rest =>
    if switch.takesValue then
      match rest with
      | .value text :: more =>
        let taken := options.takePaths run
        walk { taken with types := taken.types ++ [text] } [] more
      | _ => .error (.usage ("argument " ++ switch.name ++ ": expected one argument"))
    else do
      let changed ← (options.takePaths run).set switch
      walk changed [] rest

/-- The options of a command line; at least one path has to be there. -/
def ofArgs (args : List String) : Except Exit Options := do
  let sorted ← Arg.classifyAll args
  let options ← walk {} [] sorted
  if options.paths.isEmpty then .error (.usage "the following arguments are required: paths")
  else return options

end Options

namespace Exit

def versionText : String :=
  "format-sql 0.12.0"

def usageText : String :=
  "usage: format-sql [-h] [--types TYPES] [-r] [--no-semicolon] [--version]\n" ++
  "                  [--debug] [--dry-run]\n" ++
  "                  paths [paths ...]\n"

def helpText : String :=
  usageText ++ "\npositional arguments:\n  paths\n\noptions:\n" ++
  "  -h, --help       show this help message and exit\n" ++
  "  --types TYPES    Only process these given file types.\n" ++
  "  -r, --recursive  Process files found in subdirectories.\n" ++
  "  --no-semicolon   Try to detect SQL queries with no trailing semicolon.\n" ++
  "  --version        show program's version number and exit\n" ++
  "  --debug          Print available debug information.\n" ++
  "  --dry-run        Print the altered output and do not change the file.\n"

def code : Exit → Nat
  | help | version => 0
  | usage _ => 2

def output : Exit → String
  | help => helpText
  | version => versionText ++ "\n"
  | usage _ => ""

def complaint? : Exit → Option String
  | help | version => none
  | usage problem => some ("format-sql: error: " ++ problem)

end Exit

end SqlLayout
