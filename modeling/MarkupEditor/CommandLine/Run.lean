import MarkupEditor.CommandLine.Arguments
import MarkupEditor.Document.Loading
import MarkupEditor.Markup.PreviewTag
import MarkupEditor.Json.Write
import MarkupEditor.Markup.Parse
import MarkupEditor.Markup.Print
import MarkupEditor.Markup.Report
import MarkupEditor.Path
import MarkupEditor.Storage.Fault
import MarkupEditor.Text.Utf8

namespace MarkupEditor

-- Requests reach files only through this, so the same ones run on a disk and on a tree of files in memory. All paths
-- are full.
structure FileAccess (m : Type → Type) where
  exists_ : String → m Bool
  read : String → m (Except FileFault (List UInt8))
  write : String → String → m (Option FileFault)

-- What a request leaves behind: its exit code, what it printed, and what it has to say about a failure.
structure Outcome where
  code : Nat := 0
  output : String := ""
  failure : Option String := none
  deriving DecidableEq, Repr

namespace CommandLine

def programName : String := "reshaper"

def version : String := "0.1.0"

def fail (message : String) : Outcome := { code := 1, failure := some message }

def misused : Outcome := { code := 2 }

-- Passes the slashes and the names that stand for nothing.
def skipEmpty : List Char → List Char
  | '/' :: cs => skipEmpty cs
  | ['.'] => []
  | '.' :: '/' :: cs => skipEmpty cs
  | cs => cs

def below? : List String → List Char → Option (List Char)
  | [], cs => some (skipEmpty cs)
  | name :: names, cs =>
    let rest := skipEmpty cs
    if rest.takeWhile (· ≠ '/') = name.toList then below? names (rest.dropWhile (· ≠ '/')) else none

-- A path as it is shown and as files are known by: from the directory on if it lies there, with plain slashes.
def shown (directory path : String) : String :=
  let cs := (below? (Path.names directory) path.toList).getD path.toList
  String.ofList (cs.map fun c => if c = '\\' then '/' else c)

def text (bytes : List UInt8) : Except FileFault String :=
  match Text.decode? bytes with
  | some t => .ok t
  | none => .error .notText

def sourceTree (path : String) : Except FileFault (List UInt8) → Except String SourceTree
  | .error fault => .error ("Cannot read " ++ path ++ ": " ++ fault.message)
  | .ok bytes =>
    match text bytes with
    | .error fault => .error ("Cannot read " ++ path ++ ": " ++ fault.message)
    | .ok source =>
      match parse source with
      | .ok tree => .ok tree
      | .error e => .error ("\n" ++ e.report source.toList ((Path.fileName? path).getD "unknown"))

def faultWords : Json.Fault → String
  | .malformed => "malformed text"
  | .mismatched => "value of the wrong type"
  | .ended => "text ends early"

def config : Except FileFault (List UInt8) → Except String Config
  | .error fault => .error ("IO error: " ++ fault.message)
  | .ok bytes =>
    match text bytes with
    | .error fault => .error ("IO error: " ++ fault.message)
    | .ok source =>
      match Config.parse source with
      | .ok c => .ok c
      | .error fault => .error ("Invalid config: " ++ faultWords fault)

-- The outline of a tree, which has to have something in it.
def outlineOf (config : Config) (key : String) (tree : SourceTree) : Except String Outline :=
  let document := Document.new config.classAttribute config.undoCoalesceMs config.undoMaxLevels
  match document.load key tree with
  | .error e => .error e.message
  | .ok (root, document) =>
    let outline := document.outline root.id
    if outline.children.isEmpty then .error (key ++ " has no statements") else .ok outline

def printOutline (json : Bool) (outline : Outline) : String :=
  if json then outline.json.pretty ++ "\n" else outline.render

def output : Except String String → Outcome
  | .ok text => { output := text }
  | .error message => fail message

def alreadyThere : String := "⚠️ " ++ Config.fileName ++ " already exists\nUse --force to overwrite\n"

def created : String :=
  "  ✓ Created " ++ Config.fileName ++ "\n\nNext steps:\n  1. Run: " ++ programName ++
    " outline src/App.jsx\n  2. Run: " ++ programName ++ " watch src\n"

section

variable {m : Type → Type} [Monad m] (files : FileAccess m) (directory : String)

-- The configuration of the directory; without a file it is the default.
def readConfig : m (Except String Config) := do
  let path := Path.join directory Config.fileName
  if ← files.exists_ path then return config (← files.read path) else return .ok {}

def init (saveDebounceMs : Nat) (classAttribute : String) (force : Bool) : m Outcome := do
  let path := Path.join directory Config.fileName
  if (← files.exists_ path) && !force then return { output := alreadyThere }
  else
    let written : Config := { saveDebounceMs, classAttribute }
    match ← files.write path written.json.pretty with
    | some fault => return fail fault.message
    | none => return { output := created }

def onFile (file : String) (f : Config → String → SourceTree → Except String String) : m Outcome := do
  match ← readConfig files directory with
  | .error message => return fail message
  | .ok config =>
    let path := Path.join directory file
    match sourceTree path (← files.read path) with
    | .error message => return fail message
    | .ok tree => return output (f config (shown directory path) tree)

def request : Request → m Outcome
  | .version => return { output := programName ++ " " ++ version ++ "\n" }
  | .init saveDebounceMs classAttribute force => init files directory saveDebounceMs classAttribute force
  | .outline file json =>
    onFile files directory file fun config key tree => (outlineOf config key tree).map (printOutline json)
  | .tag file mark =>
    onFile files directory file fun config key tree => .ok (tree.annotate key (mark.getD config.tagAttribute)).print

def run (args : List String) : m Outcome :=
  match Request.ofArguments? args with
  | some r => request files directory r
  | none => return misused

end

def report (message : String) : String := "Error: " ++ message ++ "\n\n"

end CommandLine

end MarkupEditor
