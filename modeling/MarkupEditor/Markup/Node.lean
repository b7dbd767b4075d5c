import MarkupEditor.Markup.Location

namespace MarkupEditor

inductive Quote where
  | double
  | single
  deriving DecidableEq, Repr, Inhabited

def Quote.char : Quote → Char
  | .double => '"'
  | .single => '\''

mutual

-- A stretch of code: source text kept as it is, or an embedded node.
inductive Part where
  | code (text : String)
  | node (node : Node)

-- An attribute of a tag: a bare name, a name with a quoted string, a name with a brace expression, or a spread
-- of an expression.
inductive Attribute where
  | flag (name : String)
  | string (name value : String) (quote : Quote)
  | expression (name : String) (parts : List Part)
  | spread (parts : List Part)

-- A node with the place it was read from. A `wrapper` is a brace expression between tags; `other` holds
-- everything else, in particular the statements of a file.
inductive Node where
  | element (loc : Location) (name : String) (attributes : List Attribute) (children : List Node) (selfClosing : Bool)
  | fragment (loc : Location) (children : List Node)
  | text (loc : Location) (value : String)
  | wrapper (loc : Location) (spread : Bool) (expression : List Part)
  | other (loc : Location) (parts : List Part)

end

inductive Kind where
  | element
  | fragment
  | text
  | wrapper
  | other
  deriving DecidableEq, Repr, Inhabited

-- A parsed source file: its statements, with the blank space and comments between them as code.
structure SourceTree where
  body : List Part

namespace Part

def node? : Part → Option Node
  | .node n => some n
  | .code _ => none

-- Code as parts: empty text is no part.
def ofCode (cs : List Char) : List Part := if cs.isEmpty then [] else [.code (String.ofList cs)]

end Part

namespace Node

def loc : Node → Location
  | element l .. => l
  | fragment l _ => l
  | text l _ => l
  | wrapper l .. => l
  | other l _ => l

def kind : Node → Kind
  | element .. => .element
  | fragment .. => .fragment
  | text .. => .text
  | wrapper .. => .wrapper
  | other .. => .other

-- Two nodes read from the same place as the same kind stand for the same piece of source.
def sameSource (a b : Node) : Bool := a.loc == b.loc && a.kind == b.kind

end Node

namespace Attribute

def name? : Attribute → Option String
  | flag n => some n
  | string n .. => some n
  | expression n _ => some n
  | spread _ => none

def parts : Attribute → List Part
  | expression _ ps => ps
  | spread ps => ps
  | _ => []

def find? (attributes : List Attribute) (name : String) : Option Attribute :=
  attributes.find? (·.name? == some name)

-- The value of the first attribute of that name, if it is a quoted string.
def stringValue? (attributes : List Attribute) (name : String) : Option String :=
  match find? attributes name with
  | some (.string _ value _) => some value
  | _ => none

def escapeChar : Char → List Char
  | '"' => ['\\', '"']
  | '\\' => ['\\', '\\']
  | '\n' => ['\\', 'n']
  | '\r' => ['\\', 'r']
  | c => [c]

def stringLiteral (value : String) : String :=
  String.ofList ('"' :: value.toList.flatMap escapeChar ++ ['"'])

-- The attribute that gives `name` the text `value`: quoted with a mark that the text does not hold, and written
-- as a string expression if it holds both.
def ofText (name value : String) : Attribute :=
  if value.toList.contains '"' then
    if value.toList.contains '\'' then .expression name [.code (stringLiteral value)]
    else .string name value .single
  else .string name value .double

def setText (name value : String) : List Attribute → List Attribute
  | [] => [ofText name value]
  | a :: rest => if a.name? == some name then ofText name value :: rest else a :: setText name value rest

end Attribute

namespace SourceTree

def statements (t : SourceTree) : List Node := t.body.filterMap Part.node?

end SourceTree

end MarkupEditor
