namespace MarkupEditor.Path

-- Cuts a text at every `/`. What has been read of the first name is in reverse.
def splitFrom (read : List Char) : List Char → List (List Char)
  | [] => [read.reverse]
  | c :: cs => if c = '/' then read.reverse :: splitFrom [] cs else splitFrom (c :: read) cs

def isAbsolute (path : String) : Bool := path.toList.head? == some '/'

def join (directory path : String) : String :=
  if isAbsolute path then path
  else if directory.toList.getLast? = some '/' then directory ++ path
  else directory ++ "/" ++ path

-- The names of a path in order. A leading `.` of a relative path counts as a name.
def names (path : String) : List String :=
  match (splitFrom [] path.toList).map String.ofList with
  | first :: rest =>
    (if first = "" then [] else [first]) ++ rest.filter (fun name => name ≠ "" ∧ name ≠ ".")
  | [] => []

def fileName? (path : String) : Option String :=
  match (names path).getLast? with
  | some name => if name = "." ∨ name = ".." then none else some name
  | none => none

-- What follows the last dot of a name that has one past its start.
def extension? (path : String) : Option String := do
  let name ← fileName? path
  let reversed := name.toList.reverse
  match reversed.dropWhile (· ≠ '.') with
  | _ :: stem => if stem.isEmpty then none else some (String.ofList (reversed.takeWhile (· ≠ '.')).reverse)
  | [] => none

def sourceExtensions : List String := ["js", "jsx", "ts", "tsx"]

def isSourceFile (path : String) : Bool :=
  match extension? path with
  | some e => sourceExtensions.contains e
  | none => false

end MarkupEditor.Path
