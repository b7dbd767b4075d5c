import MarkupEditor.Path
import MarkupEditor.Storage.Fault
import MarkupEditor.Text.Utf8

namespace MarkupEditor

inductive FileNode where
  | file (bytes : List UInt8)
  | directory (entries : List (String × FileNode))

abbrev FileEntries := List (String × FileNode)

namespace FileEntries

def get? (entries : FileEntries) (name : String) : Option FileNode := (entries.find? (·.1 == name)).map Prod.snd

def put (entries : FileEntries) (name : String) (node : FileNode) : FileEntries :=
  entries.filter (·.1 != name) ++ [(name, node)]

end FileEntries

structure FileTree where
  entries : FileEntries := []

-- A directory in a tree: its entries, and the directories above it from the nearest on, each with the name that
-- was taken in it. What is changed in a directory shows above once it is left.
structure FilePlace where
  entries : FileEntries
  above : List (String × FileEntries) := []

namespace FilePlace

def down (p : FilePlace) (name : String) (entries : FileEntries) : FilePlace := ⟨entries, (name, p.entries) :: p.above⟩

-- The directory above; there is none above the top.
def up (p : FilePlace) : FilePlace :=
  match p.above with
  | [] => p
  | (name, entries) :: above => ⟨entries.put name (.directory p.entries), above⟩

def closeFrom (entries : FileEntries) : List (String × FileEntries) → FileEntries
  | [] => entries
  | (name, higher) :: above => closeFrom (higher.put name (.directory entries)) above

def tree (p : FilePlace) : FileTree := ⟨closeFrom p.entries p.above⟩

end FilePlace

inductive FileSpot where
  | file (bytes : List UInt8)
  | directory (place : FilePlace)

namespace FileTree

def top (t : FileTree) : FilePlace := ⟨t.entries, []⟩

def longestName : Nat := 255

def longestPath : Nat := 4095

def isLongName (name : String) : Bool := longestName < (Text.encode name).length

def stays (name : String) : Bool := name == "" || name == "."

-- Every name on the way, also one that stays or leads up, needs to be in a directory.
def follow : FileSpot → List String → Except FileFault FileSpot
  | spot, [] => .ok spot
  | .file _, _ :: _ => .error .notADirectory
  | .directory place, name :: names =>
    if stays name then follow (.directory place) names
    else if name = ".." then follow (.directory place.up) names
    else if isLongName name then .error .nameTooLong
    else
      match place.entries.get? name with
      | none => .error .notFound
      | some (.directory entries) => follow (.directory (place.down name entries)) names
      | some (.file bytes) => follow (.file bytes) names

def names (path : String) : List String := (Path.splitFrom [] path.toList).map String.ofList

-- What is wrong with a path wherever it may lead.
def pathFault? (path : String) : Option FileFault :=
  if path.toList.contains '\x00' then some .invalidName
  else if longestPath < (Text.encode path).length then some .nameTooLong
  else none

def find (t : FileTree) (path : String) : Except FileFault FileSpot :=
  match pathFault? path with
  | some e => .error e
  | none => follow (.directory t.top) (names path)

def holds (t : FileTree) (path : String) : Bool :=
  match t.find path with
  | .ok _ => true
  | .error _ => false

def readBytes (t : FileTree) (path : String) : Except FileFault (List UInt8) :=
  match t.find path with
  | .ok (.file bytes) => .ok bytes
  | .ok (.directory _) => .error .isADirectory
  | .error e => .error e

def readText (t : FileTree) (path : String) : Except FileFault String :=
  match t.readBytes path with
  | .error e => .error e
  | .ok bytes =>
    match Text.decode? bytes with
    | some text => .ok text
    | none => .error .notText

def writeIn (place : FilePlace) (name : String) (bytes : List UInt8) : Except FileFault FileTree :=
  if isLongName name then .error .nameTooLong
  else
    match place.entries.get? name with
    | some (.directory _) => .error .isADirectory
    | _ => .ok (FilePlace.tree { place with entries := place.entries.put name (.file bytes) })

-- A slash or dots at the end ask for a directory, and a directory cannot be written; what comes before the last
-- name still has to be there.
def write (t : FileTree) (path : String) (bytes : List UInt8) : Except FileFault FileTree :=
  match pathFault? path with
  | some e => .error e
  | none =>
    let reversed := (names path).reverse
    match reversed.dropWhile (· == "") with
    | [] => .error .isADirectory
    | name :: above =>
      match follow (.directory t.top) above.reverse with
      | .error e => .error e
      | .ok (.file _) => .error .notADirectory
      | .ok (.directory place) =>
        if reversed.head? = some "" ∨ name = "." ∨ name = ".." then .error .isADirectory else writeIn place name bytes

-- Makes the directories that are missing along the names; `making` once the first of them has been made. A file
-- is in the way of the directory that should be made in its place, which is so while making and at the last name;
-- elsewhere it is a name followed through something that is no directory.
def makeFrom (making : Bool) (place : FilePlace) : List String → FilePlace × Option FileFault
  | [] => (place, none)
  | name :: rest =>
    if stays name then makeFrom making place rest
    else if name = ".." then makeFrom making place.up rest
    else if isLongName name then (place, some .nameTooLong)
    else
      match place.entries.get? name with
      | none => makeFrom true (place.down name []) rest
      | some (.directory entries) => makeFrom making (place.down name entries) rest
      | some (.file _) => (place, some (if making || rest.isEmpty then .alreadyExists else .notADirectory))

-- The names up to the last that does not stay. Given and returned in reverse.
def trimmed (reversed : List String) : List String := reversed.dropWhile stays

-- Makes the directory at the end of the names, with those above it. What was made stays, should it fail. The
-- names are in reverse.
def makeAll (t : FileTree) (reversed : List String) : FileTree × Option FileFault :=
  let way := (trimmed reversed).reverse
  match pathFault? ("/".intercalate way) with
  | some e => (t, some e)
  | none =>
    let (place, fault) := makeFrom false t.top way
    (place.tree, fault)

def makeDirectory (t : FileTree) (path : String) : FileTree × Option FileFault := t.makeAll (names path).reverse

-- Writes a file after making the directories on its way. What was made stays, should writing fail.
def save (t : FileTree) (path : String) (bytes : List UInt8) : FileTree × Option FileFault :=
  match t.makeAll (trimmed (names path).reverse).tail with
  | (made, some e) => (made, some e)
  | (made, none) =>
    match made.write path bytes with
    | .ok written => (written, none)
    | .error e => (made, some e)

mutual

def filesAt (path : String) : FileNode → List (String × List UInt8)
  | .file bytes => [(path, bytes)]
  | .directory entries => filesIn (path ++ "/") entries

def filesIn (path : String) : List (String × FileNode) → List (String × List UInt8)
  | [] => []
  | (name, node) :: rest => filesAt (path ++ name) node ++ filesIn path rest

end

def filesBelow (t : FileTree) (directory : String) : List (String × List UInt8) :=
  match t.find directory with
  | .ok (.directory place) => filesIn "" place.entries
  | _ => []

end FileTree

end MarkupEditor
