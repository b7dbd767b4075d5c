import MarkupEditor.Markup.Parse
import MarkupEditor.Markup.Print
import MarkupEditor.Markup.Walk

namespace MarkupEditor

-- What becomes of the locations, of the mark that a tag closes itself, and of each child in front of those after it.
-- Everything else stays.
structure Reshape where
  place : Location → Location
  closed : Bool → List Node → Bool
  child : Node → List Node → List Node

namespace Reshape

section

variable (f : Reshape)

mutual

def node : Node → Node
  | .element loc name attrs kids selfClosing =>
    .element (f.place loc) name (attributes attrs) (nodes kids) (f.closed selfClosing kids)
  | .fragment loc kids => .fragment (f.place loc) (nodes kids)
  | .text loc value => .text (f.place loc) value
  | .wrapper loc spread expression => .wrapper (f.place loc) spread (parts expression)
  | .other loc ps => .other (f.place loc) (parts ps)

def nodes : List Node → List Node
  | [] => []
  | n :: ns => f.child (node n) (nodes ns)

def part : Part → Part
  | .code text => .code text
  | .node n => .node (node n)

def parts : List Part → List Part
  | [] => []
  | p :: ps => part p :: parts ps

def attr : Attribute → Attribute
  | .flag name => .flag name
  | .string name value quote => .string name value quote
  | .expression name ps => .expression name (parts ps)
  | .spread ps => .spread (parts ps)

def attributes : List Attribute → List Attribute
  | [] => []
  | a :: rest => attr a :: attributes rest

end

def tree (t : SourceTree) : SourceTree := ⟨f.parts t.body⟩

theorem parts_append (ps qs : List Part) : f.parts (ps ++ qs) = f.parts ps ++ f.parts qs := by
  induction ps with
  | nil => rfl
  | cons p ps ih => simp [parts, ih]

theorem parts_ofCode (text : List Char) : f.parts (Part.ofCode text) = Part.ofCode text := by
  unfold Part.ofCode
  split <;> rfl

end

-- The place of everything in a tree that was never read.
def nowhere : Location := ⟨.origin, .origin⟩

def unplaced : Reshape := ⟨fun _ => nowhere, fun selfClosing _ => selfClosing, List.cons⟩

def quoting (c : Char) : Node := .wrapper nowhere false [.code (String.ofList ['"', c, '"'])]

def piece (cs : List Char) : List Node := if cs.isEmpty then [] else [.text nowhere (String.ofList cs)]

-- A tree without its locations, in which each closing brace in a text has become a wrapper that splits the text.
def splitBraces : Reshape where
  place _ := nowhere
  closed selfClosing _ := selfClosing
  child n rest := match n with
    | .text _ value => [quoting '}'].intercalate ((value.toList.splitOn '}').map piece) ++ rest
    | n => n :: rest

def prepend (c : Char) : List Node → List Node
  | .text loc value :: rest => .text loc (String.ofList (c :: value.toList)) :: rest
  | rest => .text nowhere (String.ofList [c]) :: rest

-- The text as it is read back: what would open or close a brace or a tag stands in a wrapper.
def respell : List Char → List Node → List Node
  | [], rest => rest
  | c :: cs, rest =>
    if c = '{' ∨ c = '}' ∨ c = '<' then quoting c :: respell cs rest else prepend c (respell cs rest)

-- What is read when a tree is printed.
def reread : Reshape where
  place _ := nowhere
  closed selfClosing children := selfClosing && children.isEmpty
  child n rest := match n with
    | .text _ value => respell value.toList rest
    | n => n :: rest

end Reshape

end MarkupEditor
