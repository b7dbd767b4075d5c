import MarkupEditor.Document.View
import MarkupEditor.Markup.PreviewTag
import MarkupEditor.Markup.Walk

namespace MarkupEditor

namespace Document

def modifiedTree (d : Document) (path : String) : Except EditError SourceTree :=
  match d.file? path with
  | none => .error (.fileNotLoaded path)
  | some file => .ok (Rebuild.file d.classAttribute file.tree (d.store.trees (File.rootId path)))

def sourcesBelow (d : Document) (id : String) : List (String × Node) :=
  (d.store.descendants id).filterMap fun below => ((d.store.get? below).bind Record.node?).map (below, ·)

def madeFrom? (sources : List (String × Node)) (n : Node) : Option String :=
  (sources.find? (·.2.sameSource n)).map Prod.fst

-- Numbers the elements of a file as they stand in its present form. Of several entries made from one node the
-- last has the number.
def renumber (d : Document) (path : String) : Except EditError Document :=
  match d.modifiedTree path with
  | .error e => .error e
  | .ok tree =>
    match d.node (File.rootId path), d.file? path with
    | .error e, _ => .error e
    | .ok _, none => .error (.fileNotLoaded path)
    | .ok root, some file =>
      let sources := (d.sourcesBelow root.id).reverse
      let numbering := tree.elements.zipIdx.filterMap fun (n, number) => (madeFrom? sources n).map (number, ·)
      .ok { d with files := File.put { file with numbering } d.files }

def nodeForLocation (d : Document) (path : String) (number : Nat) : Except EditError Handle :=
  match d.file? path with
  | none => .error (.fileNotLoaded path)
  | some file =>
    match file.idOf? number with
    | none => .error (.notFound (PreviewTag.format ⟨path, number⟩))
    | some id => d.node id

def nodeForTag (d : Document) (tag : String) : Except EditError Handle :=
  match PreviewTag.parse? tag with
  | none => .error (.invalidTag tag)
  | some t => d.nodeForLocation t.path t.index

def tagOf? (d : Document) (id : String) : Option String :=
  match d.filePathOf? id, d.numberOf? id with
  | some path, some number => some (PreviewTag.format ⟨path, number⟩)
  | _, _ => none

def reveal (d : Document) (id : String) : Document := (d.clearSelection.select id).expandAncestors id

end Document

end MarkupEditor
