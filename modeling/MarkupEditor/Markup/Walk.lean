import MarkupEditor.Markup.Node

namespace MarkupEditor

namespace Walk

mutual

def node : Node → List Node
  | .element loc name attrs kids selfClosing =>
    .element loc name attrs kids selfClosing :: (attributes attrs ++ nodes kids)
  | .fragment loc kids => .fragment loc kids :: nodes kids
  | .text loc value => [.text loc value]
  | .wrapper loc spread expression => .wrapper loc spread expression :: parts expression
  | .other loc ps => .other loc ps :: parts ps

def nodes : List Node → List Node
  | [] => []
  | n :: ns => node n ++ nodes ns

def part : Part → List Node
  | .code _ => []
  | .node n => node n

def parts : List Part → List Node
  | [] => []
  | p :: ps => part p ++ parts ps

def attr : Attribute → List Node
  | .flag _ => []
  | .string .. => []
  | .expression _ ps => parts ps
  | .spread ps => parts ps

def attributes : List Attribute → List Node
  | [] => []
  | a :: rest => attr a ++ attributes rest

end

end Walk

namespace SourceTree

def nodes (t : SourceTree) : List Node := Walk.parts t.body

def elements (t : SourceTree) : List Node := t.nodes.filter (·.kind == .element)

def count (t : SourceTree) (k : Kind) : Nat := t.nodes.countP (·.kind == k)

-- The parts of code that a node holds itself, not through other nodes.
def ownParts : Node → List Part
  | .element _ _ attrs _ _ => attrs.flatMap Attribute.parts
  | .wrapper _ _ expression => expression
  | .other _ ps => ps
  | _ => []

def partCount (t : SourceTree) : Nat := t.nodes.foldl (fun count n => count + (ownParts n).length) t.body.length

end SourceTree

end MarkupEditor
