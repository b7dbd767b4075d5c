import MarkupEditor.Markup.Node

namespace MarkupEditor

namespace Print

-- A brace or `<` is written as a brace expression that holds it as a string, so text opens no markup or code.
def textChar (c : Char) : List Char :=
  if c = '{' ∨ c = '}' ∨ c = '<' then ['{', '"', c, '"', '}'] else [c]

def text (cs : List Char) : List Char := cs.flatMap textChar

mutual

def part : Part → List Char
  | .code text => text.toList
  | .node n => node n

def parts : List Part → List Char
  | [] => []
  | p :: ps => part p ++ parts ps

def attr : Attribute → List Char
  | .flag name => name.toList
  | .string name value quote => name.toList ++ '=' :: quote.char :: value.toList ++ [quote.char]
  | .expression name ps => name.toList ++ '=' :: '{' :: parts ps ++ ['}']
  | .spread ps => '{' :: '.' :: '.' :: '.' :: parts ps ++ ['}']

def attributes : List Attribute → List Char
  | [] => []
  | a :: rest => ' ' :: attr a ++ attributes rest

def node : Node → List Char
  | .element _ name attrs kids selfClosing =>
    '<' :: name.toList ++ attributes attrs ++
      if selfClosing ∧ kids.isEmpty then [' ', '/', '>']
      else '>' :: nodes kids ++ '<' :: '/' :: name.toList ++ ['>']
  | .fragment _ kids => '<' :: '>' :: nodes kids ++ ['<', '/', '>']
  | .text _ value => text value.toList
  | .wrapper _ spread expression => '{' :: (if spread then ['.', '.', '.'] else []) ++ parts expression ++ ['}']
  | .other _ ps => parts ps

def nodes : List Node → List Char
  | [] => []
  | n :: ns => node n ++ nodes ns

end

end Print

def Node.print (n : Node) : String := String.ofList (Print.node n)

def SourceTree.print (t : SourceTree) : String := String.ofList (Print.parts t.body)

end MarkupEditor
