import MarkupEditor.Document.Record
import MarkupEditor.Outline
import MarkupEditor.Store.Forest

namespace MarkupEditor

namespace Rebuild

-- The embedded nodes of code replaced by the present form of the first entry made from them.
def splice (children : List (Node × Node)) : Part → Part
  | .code text => .code text
  | .node n =>
    match children.find? (·.1.sameSource n) with
    | some (_, present) => .node present
    | none => .node n

-- Attributes with the class of a record, unless they have it.
def withClass (classAttribute : String) (className : Option String) (attributes : List Attribute) : List Attribute :=
  match className with
  | some name =>
    if Attribute.stringValue? attributes classAttribute = some name then attributes
    else Attribute.setText classAttribute name attributes
  | none => attributes

-- The present form of a node, given its children as pairs of source and present form.
def form (classAttribute : String) (r : Record) (children : List (Node × Node)) : Node → Node
  | .element loc name attributes _ selfClosing =>
    .element loc name (withClass classAttribute r.className attributes) (children.map Prod.snd) selfClosing
  | .fragment loc _ => .fragment loc (children.map Prod.snd)
  | .text loc value => .text loc (r.text.getD value)
  | .wrapper loc spread expression => .wrapper loc spread (expression.map (splice children))
  | .other loc parts => .other loc (parts.map (splice children))

mutual

def entry (classAttribute : String) : Tree Record → Option (Node × Node)
  | .mk _ r children =>
    match r.node? with
    | some n => some (n, form classAttribute r (entries classAttribute children) n)
    | none => none

def entries (classAttribute : String) : List (Tree Record) → List (Node × Node)
  | [] => []
  | t :: ts =>
    match entry classAttribute t with
    | some pair => pair :: entries classAttribute ts
    | none => entries classAttribute ts

end

def file (classAttribute : String) (source : SourceTree) (below : List (Tree Record)) : SourceTree :=
  ⟨source.body.map (splice (entries classAttribute below))⟩

mutual

def outline : Tree Record → Outline
  | .mk id r children => .mk id (r.label id) (outlines children)

def outlines : List (Tree Record) → List Outline
  | [] => []
  | t :: ts => outline t :: outlines ts

end

end Rebuild

end MarkupEditor
