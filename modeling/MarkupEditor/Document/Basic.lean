import MarkupEditor.Document.File
import MarkupEditor.Document.Rebuild
import MarkupEditor.History.Recorder
import MarkupEditor.Store.IdSet
import MarkupEditor.Store.Instances

namespace MarkupEditor

inductive EditError where
  | notFound (id : String)
  | fileNotLoaded (path : String)
  | invalidTag (tag : String)
  deriving DecidableEq, Repr

def EditError.message : EditError → String
  | notFound id => "Node not found: " ++ id
  | fileNotLoaded path => "File is not loaded: " ++ path
  | invalidTag tag => "Invalid preview tag: " ++ tag

-- A node as someone holds it: an entry's id with the instance that was live when it was looked up.
structure Handle where
  id : String
  serial : Nat
  deriving DecidableEq, Repr

-- All writes to the store go through `write` and `replay`, which keep the instances in step with it and note the files
-- whose entries are touched.
structure Document where
  classAttribute : String := "className"
  store : Store Record := Store.empty
  instances : Instances := {}
  -- The instances that are expanded, live or not.
  expanded : List Nat := []
  selection : IdSet := {}
  hovered : Option String := none
  files : List File := []
  history : History Unit Record := {}
  now : Nat := 0
  -- The files touched by writes, one path for each write that touched one.
  touched : List String := []

namespace Document

def new (classAttribute : String) (undoWindow maxLevels : Nat) : Document :=
  { classAttribute, history := { window := undoWindow, stack := { maxLevels } } }

def handle? (d : Document) (id : String) : Option Handle := (d.instances.get? id).map (⟨id, ·⟩)

def handles (d : Document) (ids : List String) : List Handle := ids.filterMap d.handle?

def node (d : Document) (id : String) : Except EditError Handle :=
  match d.handle? id with
  | some h => .ok h
  | none => .error (.notFound id)

def record? (d : Document) (h : Handle) : Option Record := d.store.get? h.id

def filePath? (s : Store Record) (id : String) : Option String :=
  match s.get? id with
  | some r => if r.isFile then Record.pathOf? id else none
  | none => none

-- The file whose entries a change touched, in the store after it. A record that was erased counts with the
-- place it had.
def owner? (s : Store Record) (c : Change Record) : Option String :=
  match c.after.or c.before with
  | some r =>
    match r.parent with
    | some parent => if s.contains parent then filePathAbove? s parent else none
    | none => if r.isFile then Record.pathOf? c.id else none
  | none => none
where
  -- The file at the root above an entry, whose ancestors must all be there.
  filePathAbove? (s : Store Record) (id : String) : Option String :=
    let root := s.root id
    match s.get? root with
    | some r => if r.parent.isNone && r.isFile then Record.pathOf? root else none
    | none => none

def replay (d : Document) (id : String) (value : Option Record) : Document :=
  match d.store.write id value with
  | (_, none) => d
  | (store, some c) =>
    { d with store, instances := d.instances.note c, touched := d.touched ++ (owner? store c).toList }

def write (d : Document) (id : String) (value : Option Record) : Document :=
  match d.store.write id value with
  | (_, none) => d
  | (_, some c) => { d.replay id value with history := d.history.stage d.now () c }

def update (d : Document) (id : String) (f : Record → Record) : Document :=
  match d.store.get? id with
  | some r => d.write id (some (f r))
  | none => d

def replayAll (d : Document) (writes : List (Write Unit Record)) : Document :=
  writes.foldl (fun d w => d.replay w.id w.value) d

def undo (d : Document) : Bool × Document :=
  match d.history.undo with
  | (some writes, history) => (true, { d with history }.replayAll writes)
  | (none, history) => (false, { d with history })

def redo (d : Document) : Bool × Document :=
  match d.history.redo with
  | (some writes, history) => (true, { d with history }.replayAll writes)
  | (none, history) => (false, { d with history })

def file? (d : Document) (path : String) : Option File := File.find? d.files path

def isLoaded (d : Document) (path : String) : Bool := (d.file? path).isSome

def fileRoot? (d : Document) (path : String) : Option Handle := d.handle? (File.rootId path)

def descendantAt? (d : Document) (h : Handle) (path : List Nat) : Option Handle :=
  if path.isEmpty then some h else (d.store.descendantAt? h.id path).bind d.handle?

def filePathOf? (d : Document) (id : String) : Option String := filePath? d.store (d.store.root id)

def numberOf? (d : Document) (id : String) : Option Nat :=
  match d.filePathOf? id with
  | some path => (d.file? path).bind (·.numberOf? id)
  | none => none

def tree? (d : Document) (id : String) : Option (Tree Record) :=
  (d.store.get? id).map fun r => .mk id r (d.store.trees id)

-- An outline also of an entry that is gone: it has no label then.
def outline (d : Document) (id : String) : Outline :=
  .mk id (((d.store.get? id).map (·.label id)).getD "") (Rebuild.outlines (d.store.trees id))

end Document

end MarkupEditor
