import MarkupEditor.Json.Basic

namespace MarkupEditor

inductive Outline where
  | mk (id label : String) (children : List Outline)

namespace Outline

def children : Outline → List Outline
  | mk _ _ children => children

def line (depth : Nat) (label : String) : String := String.ofList (List.replicate (2 * depth) ' ') ++ label ++ "\n"

mutual

def linesAt (depth : Nat) : Outline → List String
  | mk _ label children => line depth label :: linesOf (depth + 1) children

def linesOf (depth : Nat) : List Outline → List String
  | [] => []
  | o :: os => linesAt depth o ++ linesOf depth os

end

def render (o : Outline) : String := "".intercalate (linesAt 0 o)

mutual

-- Nodes without children have no member for them.
def json : Outline → Json
  | mk id label children =>
    .object ([("id", .string id), ("label", .string label)] ++
      if children.isEmpty then [] else [("children", .array (jsonList children))])

def jsonList : List Outline → List Json
  | [] => []
  | o :: os => json o :: jsonList os

end

def read? : Nat → Json → Option Outline
  | 0, _ => none
  | fuel + 1, j => do
    let [some id, some label, children] ← j.fields? ["id", "label", "children"] | none
    let items ← match children with
      | some children => children.array?
      | none => some []
    return .mk (← id.string?) (← label.string?) (← items.mapM (read? fuel))

def ofJson? (j : Json) : Option Outline := read? (j.depth + 1) j

end Outline

end MarkupEditor
