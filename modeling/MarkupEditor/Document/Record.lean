import MarkupEditor.Markup.Node
import MarkupEditor.Store.Children
import MarkupEditor.Text.Blank
import MarkupEditor.Text.Quoted

namespace MarkupEditor

inductive Origin where
  | file (tree : SourceTree)
  | node (node : Node)

-- A record lays the edited class and text over the source that it was made from. The source itself never changes.
structure Record where
  parent : Option String := none
  order : Option String := none
  origin : Origin
  className : Option String := none
  text : Option String := none

instance : Placed Record := ⟨Record.parent, Record.order⟩

namespace Record

def node? (r : Record) : Option Node :=
  match r.origin with
  | .node n => some n
  | .file _ => none

def kind? (r : Record) : Option Kind := r.node?.map Node.kind

def isFile (r : Record) : Bool := r.node?.isNone

-- The children of files, statements and brace expressions stand in code, which fixes their places.
def pinsChildren (r : Record) : Bool :=
  match r.kind? with
  | none | some .wrapper | some .other => true
  | _ => false

def mayHaveChildren (r : Record) : Bool :=
  match r.kind? with
  | some .element | some .fragment => true
  | _ => false

def tagName? (r : Record) : Option String :=
  match r.node? with
  | some (.element _ name ..) => some name
  | _ => none

def placed (r : Record) (parent : String) (order : Option String) : Record :=
  { r with parent := some parent, order }

def fileMark : String := "file:"

def pathOf? (id : String) : Option String :=
  if fileMark.toList.isPrefixOf id.toList then some (String.ofList (id.toList.drop fileMark.length)) else none

def classSuffix (className : String) : List Char := (Text.words className.toList).flatMap ('.' :: ·)

def label (r : Record) (id : String) : String :=
  match r.node? with
  | none => (pathOf? id).getD id
  | some (.element _ name ..) =>
    match r.className with
    | some className => name ++ String.ofList (classSuffix className)
    | none => name
  | some (.fragment ..) => "<>"
  | some (.text _ value) => Text.quoted (Text.trim (r.text.getD value).toList)
  | some (.wrapper _ true _) => "\x7b...\x7d"
  | some (.wrapper _ false _) => "\x7b\x7d"
  | some (.other ..) => "statement"

end Record

end MarkupEditor
