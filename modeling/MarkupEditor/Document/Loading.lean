import MarkupEditor.Document.Draft
import MarkupEditor.Document.Edit

namespace MarkupEditor

namespace Document

def build (d : Document) (path : String) (tree : SourceTree) (generation : Nat) : Document :=
  let rootId := File.rootId path
  let order := match d.store.get? rootId with
    | some r => r.order
    | none => (d.store.appendKeys none 1).getLast?
  let d := { d with history := d.history.pause }.write rootId (some { origin := .file tree, order })
  let drafts := Draft.ofTree (File.nodeId path generation) d.classAttribute tree
  let d := (Draft.entriesUnder d.store rootId drafts).foldl (fun d e => d.write e.1 (some e.2)) d
  let file : File := { path, tree, generation, numbering := Draft.numbersAll drafts }
  { d with files := File.put file d.files, history := d.history.resume.clear }

def placesOf (d : Document) (id : String) (chosen : String → Bool) : List (List Nat) :=
  ((d.store.descendants id).filter chosen).map d.store.indexPath

-- What was selected and expanded is found again by its place. The history does not record any of this, and forgets what
-- it had recorded.
def reload (d : Document) (path : String) (tree : SourceTree) : Except EditError (Handle × Document) :=
  match d.file? path with
  | none => .error (.fileNotLoaded path)
  | some file =>
    match d.node (File.rootId path) with
    | .error e => .error e
    | .ok root =>
      let selected := d.placesOf root.id d.isSelected
      let expanded := d.placesOf root.id d.isOpen
      let paused := { d with history := d.history.pause }
      let emptied := paused.removeBelow root.id
      let built := { emptied with history := emptied.history.resume }.build path tree (file.generation + 1)
      let shown := selected.foldl (fun d place => match d.descendantAt? root place with
        | some h => d.select h.id
        | none => d) built
      .ok (root, shown.expandAll (expanded.filterMap (shown.descendantAt? root)))

-- Opens a file and returns its root. A file that is open is read again.
def load (d : Document) (path : String) (tree : SourceTree) : Except EditError (Handle × Document) :=
  if d.isLoaded path then d.reload path tree
  else
    let d := d.build path tree 0
    match d.node (File.rootId path) with
    | .ok root => .ok (root, d)
    | .error e => .error e

def close (d : Document) (path : String) : Except EditError Document :=
  match d.node (File.rootId path) with
  | .error e => .error e
  | .ok root =>
    let d := { d with history := d.history.pause }.remove root.id
    .ok { d with files := d.files.filter (·.path ≠ path), history := d.history.resume.clear }

end Document

end MarkupEditor
