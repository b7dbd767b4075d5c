import MarkupEditor.Text.Decimal
import MarkupEditor.Markup.Node
import MarkupEditor.Json.Basic

namespace MarkupEditor

namespace Position

def json (p : Position) : Json :=
  .object [("offset", .nat p.offset), ("line", .nat p.line), ("column", .nat p.column)]

def ofJson? (j : Json) : Option Position := do
  match ← j.fields? ["offset", "line", "column"] with
  | [some offset, some line, some column] =>
    return ⟨← offset.natUpTo? Text.largest64, ← line.natUpTo? Text.largest32, ← column.natUpTo? Text.largest32⟩
  | _ => none

end Position

namespace Location

def json (l : Location) : Json := .object [("start", l.start.json), ("end", l.stop.json)]

def ofJson? (j : Json) : Option Location := do
  match ← j.fields? ["start", "end"] with
  | [some start, some stop] => return ⟨← Position.ofJson? start, ← Position.ofJson? stop⟩
  | _ => none

end Location

namespace Quote

def json : Quote → Json
  | double => .string "Double"
  | single => .string "Single"

def ofJson? : Json → Option Quote
  | .string "Double" => some double
  | .string "Single" => some single
  | .object [("Double", .null)] => some double
  | .object [("Single", .null)] => some single
  | .object [("Double", .object [])] => some double
  | .object [("Single", .object [])] => some single
  | _ => none

end Quote

namespace TreeJson

mutual

def node : Node → Json
  | .element loc name attrs kids selfClosing =>
    located loc [("type", .string "Element"), ("name", .string name), ("attributes", .array (attributes attrs)),
      ("children", .array (nodes kids)), ("self_closing", .bool selfClosing)]
  | .fragment loc kids => located loc [("type", .string "Fragment"), ("children", .array (nodes kids))]
  | .text loc value => located loc [("type", .string "Text"), ("value", .string value)]
  | .wrapper loc spread expression =>
    located loc [("type", .string "Wrapper"), ("spread", .bool spread), ("expression", .array (parts expression))]
  | .other loc ps => located loc [("type", .string "Other"), ("parts", .array (parts ps))]
where
  located (loc : Location) (kind : List (String × Json)) : Json := .object [("loc", loc.json), ("kind", .object kind)]

def nodes : List Node → List Json
  | [] => []
  | n :: ns => node n :: nodes ns

def part : Part → Json
  | .code text => .object [("Code", .string text)]
  | .node n => .object [("Node", node n)]

def parts : List Part → List Json
  | [] => []
  | p :: ps => part p :: parts ps

def attr : Attribute → Json
  | .flag name => .object [("type", .string "Named"), ("name", .string name), ("value", .null)]
  | .string name value quote =>
    .object [("type", .string "Named"), ("name", .string name),
      ("value", .object [("String", .object [("value", .string value), ("quote", quote.json)])])]
  | .expression name ps =>
    .object [("type", .string "Named"), ("name", .string name), ("value", .object [("Expression", .array (parts ps))])]
  | .spread ps => .object [("type", .string "Spread"), ("expression", .array (parts ps))]

def attributes : List Attribute → List Json
  | [] => []
  | a :: rest => attr a :: attributes rest

end

-- Whether a tagged value stands by itself or inside another one.
inductive Standing where
  | alone
  | inside
  deriving DecidableEq, Repr

def nodeKinds : List String := ["Element", "Fragment", "Text", "Wrapper", "Other"]

def attributeKinds : List String := ["Named", "Spread"]

-- A kind is given by its name. Inside another tagged value its place among the kinds will do.
def kind? (kinds : List String) : Standing → Json → Option String
  | _, .string name => some name
  | .inside, j => (j.natUpTo? Text.largest64).bind (kinds[·]?)
  | .alone, _ => none

-- The kind of a tagged value, and its fields: of an object the members, of an array the items after the kind.
def tagged? (kinds : List String) (standing : Standing) : Json → Option (String × Json)
  | .object members => do
    return (← kind? kinds standing (← Json.member? "type" members), .object members)
  | .array (first :: items) => do return (← kind? kinds standing first, .array items)
  | _ => none

mutual

def node? (standing : Standing) : Nat → Json → Option Node
  | 0, _ => none
  | fuel + 1, j => do
    let [some loc, some kind] ← j.fields? ["loc", "kind"] | none
    let loc ← Location.ofJson? loc
    match ← tagged? nodeKinds standing kind with
    | ("Element", j) =>
      let [some name, some attrs, some kids, some selfClosing] ← j.fields? ["name", "attributes", "children", "self_closing"]
        | none
      return .element loc (← name.string?) (← (← attrs.array?).mapM (attr? fuel)) (← (← kids.array?).mapM (node? .inside fuel))
        (← selfClosing.bool?)
    | ("Fragment", j) =>
      let [some kids] ← j.fields? ["children"] | none
      return .fragment loc (← (← kids.array?).mapM (node? .inside fuel))
    | ("Text", j) =>
      let [some value] ← j.fields? ["value"] | none
      return .text loc (← value.string?)
    | ("Wrapper", j) =>
      let [some spread, some expression] ← j.fields? ["spread", "expression"] | none
      return .wrapper loc (← spread.bool?) (← (← expression.array?).mapM (part? .inside fuel))
    | ("Other", j) =>
      let [some ps] ← j.fields? ["parts"] | none
      return .other loc (← (← ps.array?).mapM (part? .inside fuel))
    | _ => none

def part? (standing : Standing) : Nat → Json → Option Part
  | 0, _ => none
  | fuel + 1, j =>
    match j with
    | .object [("Code", text)] => .code <$> text.string?
    | .object [("Node", n)] => .node <$> node? standing fuel n
    | _ => none

def attr? : Nat → Json → Option Attribute
  | 0, _ => none
  | fuel + 1, j => do
    match ← tagged? attributeKinds .inside j with
    | ("Named", .array [name, value]) => value? fuel (← name.string?) value
    | ("Named", .object members) =>
      value? fuel (← (← Json.member? "name" members).string?) ((Json.member? "value" members).getD .null)
    | ("Spread", j) =>
      let [some expression] ← j.fields? ["expression"] | none
      return .spread (← (← expression.array?).mapM (part? .inside fuel))
    | _ => none

def value? : Nat → String → Json → Option Attribute
  | 0, _, _ => none
  | fuel + 1, name, j =>
    match j with
    | .null => some (.flag name)
    | .object [("String", j)] => do
      let [some value, some quote] ← j.fields? ["value", "quote"] | none
      return .string name (← value.string?) (← Quote.ofJson? quote)
    | .object [("Expression", j)] => do return .expression name (← (← j.array?).mapM (part? .inside fuel))
    | _ => none

end

end TreeJson

def Node.ofJson? (j : Json) : Option Node := TreeJson.node? .alone (j.depth + 1) j

namespace SourceTree

def ofJson? (j : Json) : Option SourceTree := do
  let [some body] ← j.fields? ["body"] | none
  return ⟨← (← body.array?).mapM (TreeJson.part? .alone (j.depth + 1))⟩

def json (t : SourceTree) : Json := .object [("body", .array (TreeJson.parts t.body))]

end SourceTree

end MarkupEditor
