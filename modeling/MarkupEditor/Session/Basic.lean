import MarkupEditor.Config
import MarkupEditor.Document.Loading
import MarkupEditor.Document.Numbering
import MarkupEditor.Markup.Parse
import MarkupEditor.Markup.Print
import MarkupEditor.Session.Feed
import MarkupEditor.Storage.Basic

namespace MarkupEditor

inductive SessionError where
  | invalidSource (source : String) (error : ParseError)
  | io (fault : FileFault)
  | fileNotFound (path : String)
  | edit (error : EditError)
  | noActiveFile

def SessionError.message : SessionError → String
  | invalidSource _ e => "Syntax error: " ++ e.message
  | io fault => "IO error: " ++ fault.message
  | fileNotFound path => "File not found: " ++ path
  | edit e => e.message
  | noActiveFile => "No file is active"

structure PublishedEdit where
  path : String
  source : String
  deriving DecidableEq, Repr

structure Session (σ : Type) where
  storage : σ
  config : Config := {}
  document : Document
  active : Option String := none
  -- The files to be saved, in the order they were first touched.
  pending : IdSet := {}
  deadline : Option Nat := none
  clock : Nat := 0
  edits : Feed PublishedEdit := { capacity := 64 }

namespace Session

variable {σ : Type} [Storage σ]

def new (storage : σ) (config : Config) : Session σ :=
  { storage, config, document := .new config.classAttribute config.undoCoalesceMs config.undoMaxLevels }

-- Takes over a document without marking anything for saving.
def withDocument (s : Session σ) (d : Document) : Session σ := { s with document := { d with touched := [] } }

-- Takes over an edited document: the files that it touched are to be saved once the edits have settled.
def edited (s : Session σ) (d : Document) : Session σ :=
  if d.touched.isEmpty then s.withDocument d
  else
    { s.withDocument d with
      pending := s.pending.insertAll d.touched
      deadline := some (s.clock + s.config.saveDebounceMs) }

def forget (s : Session σ) (path : String) : Session σ := { s with pending := s.pending.erase path }

def activate (s : Session σ) (path : String) : Session σ := { s with active := some path }

def source (s : Session σ) (path : String) : Except SessionError SourceTree :=
  match Storage.load s.storage path with
  | .error .notFound => .error (.fileNotFound path)
  | .error fault => .error (.io fault)
  | .ok text =>
    match parse text with
    | .ok tree => .ok tree
    | .error e => .error (.invalidSource text e)

-- Opens a file and makes it the active one. A file that is open is only made active.
def openFile (s : Session σ) (path : String) : Except SessionError (Session σ) :=
  if s.document.isLoaded path then .ok (s.activate path)
  else
    match s.source path with
    | .error e => .error e
    | .ok tree =>
      match s.document.load path tree with
      | .error e => .error (.edit e)
      | .ok (_, d) => .ok ((s.withDocument d).activate path)

-- Reads an open file again; edits that were not saved are lost.
def reopenFile (s : Session σ) (path : String) : Except SessionError (Session σ) :=
  if s.document.isLoaded path then
    match s.source path with
    | .error e => .error e
    | .ok tree =>
      match s.document.reload path tree with
      | .error e => .error (.edit e)
      | .ok (_, d) => .ok ((s.withDocument d).forget path)
  else .error (.edit (.fileNotLoaded path))

def closeFile (s : Session σ) (path : String) : Except SessionError (Session σ) :=
  match s.document.close path with
  | .error e => .error (.edit e)
  | .ok d =>
    let s := (s.withDocument d).forget path
    .ok (if s.active = some path then { s with active := none } else s)

def setActive (s : Session σ) (path : String) : Except SessionError (Session σ) :=
  if s.document.isLoaded path then .ok (s.activate path) else .error (.edit (.fileNotLoaded path))

def activeRoot (s : Session σ) : Except SessionError Handle :=
  match s.active with
  | none => .error .noActiveFile
  | some path =>
    match s.document.fileRoot? path with
    | some root => .ok root
    | none => .error (.edit (.fileNotLoaded path))

-- Opens a file if need be, selects its element of that number alone and expands everything above it. The file
-- stays open when it has no such element.
def reveal (s : Session σ) (path : String) (number : Nat) : Except SessionError Handle × Session σ :=
  match s.openFile path with
  | .error e => (.error e, s)
  | .ok s =>
    match s.document.nodeForLocation path number with
    | .error e => (.error (.edit e), s)
    | .ok h => (.ok h, { s with document := s.document.reveal h.id })

def revealTag (s : Session σ) (tag : String) : Except SessionError Handle × Session σ :=
  match PreviewTag.parse? tag with
  | none => (.error (.edit (.invalidTag tag)), s)
  | some t => s.reveal t.path t.index

def previewSource (s : Session σ) (path : String) : Except SessionError String :=
  match s.document.modifiedTree path with
  | .error e => .error (.edit e)
  | .ok tree => .ok (tree.annotate path s.config.tagAttribute).print

-- Writes one file, publishes it and numbers its elements as they were written.
def saveFile (s : Session σ) (path : String) : Option SessionError × Session σ :=
  match s.document.modifiedTree path with
  | .error e => (some (.edit e), s)
  | .ok tree =>
    let text := tree.print
    match Storage.save s.storage path text with
    | (storage, some fault) => (some (.io fault), { s with storage })
    | (storage, none) =>
      let s := { s with storage, edits := s.edits.publish ⟨path, text⟩ }
      match s.document.renumber path with
      | .error e => (some (.edit e), s)
      | .ok d => (none, s.withDocument d)

-- Writes the files that are open. At the first failure the rest stay pending.
def saveAll (s : Session σ) (saved : List String) : List String → Except SessionError (List String) × Session σ
  | [] => (.ok saved, s)
  | path :: rest =>
    if s.document.isLoaded path then
      match s.saveFile path with
      | (none, s) => s.saveAll (saved ++ [path]) rest
      | (some e, s) => (.error e, { s with pending := ({} : IdSet).insertAll (path :: rest) })
    else s.saveAll saved rest

-- Waits until the edits have settled and writes every pending file once; nothing happens unless there was an
-- edit since the last time. Returns the files that were written.
def save (s : Session σ) : Except SessionError (List String) × Session σ :=
  match s.deadline with
  | none => (.ok [], s)
  | some deadline =>
    { s with clock := max s.clock deadline, deadline := none, pending := {} }.saveAll [] s.pending.ids

def advance (s : Session σ) (ms : Nat) : Session σ := { s with clock := s.clock + ms }

end Session

end MarkupEditor
