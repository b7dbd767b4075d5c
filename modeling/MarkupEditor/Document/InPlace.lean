import MarkupEditor.Document.Loading

namespace MarkupEditor

namespace Document

def selectPlace (d : Document) (h : Handle) (place : List Nat) : Document :=
  match d.descendantAt? h place with
  | some below => d.select below.id
  | none => d

def expandPlace (d : Document) (h : Handle) (place : List Nat) : Document :=
  match d.descendantAt? h place with
  | some below => d.setExpanded below true
  | none => d

-- An action that fails part of the way leaves the document as the steps before made it.
abbrev Action (α : Type) := EStateM EditError Document α

namespace Action

def node (id : String) : Action Handle := do MonadExcept.ofExcept ((← get).node id)

def unrecorded {α : Type} (act : Action α) : Action α := do
  modify fun d => { d with history := d.history.pause }
  try act finally modify fun d => { d with history := d.history.resume }

def build (path : String) (tree : SourceTree) (generation : Nat) : Action Unit := unrecorded do
  let rootId := File.rootId path
  let s := (← get).store
  let order := match s.get? rootId with
    | some r => r.order
    | none => (s.appendKeys none 1).getLast?
  modify (·.write rootId (some { origin := .file tree, order }))
  let d ← get
  let drafts := Draft.ofTree (File.nodeId path generation) d.classAttribute tree
  (Draft.entriesUnder d.store rootId drafts).forM fun e => modify (·.write e.1 (some e.2))
  let file : File := { path, tree, generation, numbering := Draft.numbersAll drafts }
  modify fun d => { d with files := File.put file d.files }
  modify fun d => { d with history := d.history.clear }

def reload (path : String) (tree : SourceTree) : Action Handle := do
  match (← get).file? path with
  | none => throw (.fileNotLoaded path)
  | some file =>
    let root ← node (File.rootId path)
    let d ← get
    let selected := d.placesOf root.id d.isSelected
    let expanded := d.placesOf root.id d.isOpen
    unrecorded ((Tree.postorderAll (d.store.trees root.id)).forM fun id => modify (·.removeEntry id))
    build path tree (file.generation + 1)
    selected.forM fun place => modify (·.selectPlace root place)
    expanded.forM fun place => modify (·.expandPlace root place)
    return root

def load (path : String) (tree : SourceTree) : Action Handle := do
  if (← get).isLoaded path then reload path tree
  else
    build path tree 0
    node (File.rootId path)

def close (path : String) : Action Unit := do
  let root ← node (File.rootId path)
  unrecorded (modify (·.remove root.id))
  modify fun d => { d with files := d.files.filter (·.path ≠ path) }
  modify fun d => { d with history := d.history.clear }

end Action

end Document

end MarkupEditor
