import MarkupEditor.Document.Record
import MarkupEditor.Markup.Walk
import MarkupEditor.Store.Forest

namespace MarkupEditor

structure Draft where
  record : Record
  number : Option Nat := none

namespace Draft

structure Count where
  ids : Nat := 0
  elements : Nat := 0

def Count.nextId (c : Count) : Count := { c with ids := c.ids + 1 }

def elementsIn (attributes : List Attribute) : Nat := (Walk.attributes attributes).countP (·.kind == .element)

section

variable (name : Nat → String) (classAttribute : String)

mutual

-- The drafts of a node, which may stand in markup or in code. Elements are numbered in document order; those in
-- attribute values count, although they have no entry.
def node (inMarkup : Bool) (c : Count) : Node → List (Tree Draft) × Count
  | .element loc tag attributes children selfClosing =>
    let record : Record :=
      { origin := .node (.element loc tag attributes children selfClosing)
        className := Attribute.stringValue? attributes classAttribute }
    let (below, next) := nodes ⟨c.ids + 1, c.elements + 1 + elementsIn attributes⟩ children
    ([.mk (name c.nextId.ids) ⟨record, some c.elements⟩ below], next)
  | .fragment loc children =>
    let (below, next) := nodes c.nextId children
    ([.mk (name c.nextId.ids) ⟨{ origin := .node (.fragment loc children) }, none⟩ below], next)
  | .text loc value =>
    if inMarkup then
      ([.mk (name c.nextId.ids) ⟨{ origin := .node (.text loc value), text := some value }, none⟩ []], c.nextId)
    else ([], c)
  | .wrapper loc spread expression =>
    if inMarkup then
      let (below, next) := parts c.nextId expression
      ([.mk (name c.nextId.ids) ⟨{ origin := .node (.wrapper loc spread expression) }, none⟩ below], next)
    else parts c expression
  | .other _ ps => parts c ps

def nodes (c : Count) : List Node → List (Tree Draft) × Count
  | [] => ([], c)
  | n :: ns =>
    let (first, c) := node true c n
    let (rest, c) := nodes c ns
    (first ++ rest, c)

def part (c : Count) : Part → List (Tree Draft) × Count
  | .code _ => ([], c)
  | .node n => node false c n

def parts (c : Count) : List Part → List (Tree Draft) × Count
  | [] => ([], c)
  | p :: ps =>
    let (first, c) := part c p
    let (rest, c) := parts c ps
    (first ++ rest, c)

end

-- A statement has an id whether or not it is kept.
def statement (c : Count) : Node → List (Tree Draft) × Count
  | .other loc ps =>
    let (below, next) := parts name classAttribute c.nextId ps
    if below.isEmpty then ([], next)
    else ([.mk (name c.nextId.ids) ⟨{ origin := .node (.other loc ps) }, none⟩ below], next)
  | n => node name classAttribute false c n

def statements (c : Count) : List Node → List (Tree Draft) × Count
  | [] => ([], c)
  | n :: ns =>
    let (first, c) := statement name classAttribute c n
    let (rest, c) := statements c ns
    (first ++ rest, c)

def ofTree (tree : SourceTree) : List (Tree Draft) := (statements name classAttribute {} tree.statements).1

end

mutual

def numbers : Tree Draft → List (Nat × String)
  | .mk id d children =>
    match d.number with
    | some n => (n, id) :: numbersAll children
    | none => numbersAll children

def numbersAll : List (Tree Draft) → List (Nat × String)
  | [] => []
  | t :: ts => numbers t ++ numbersAll ts

end

section

variable (s : Store Record)

mutual

-- The entries of a draft under a parent: its own and those below it, whose keys follow what the store holds.
def entries (parent : String) (order : Option String) : Tree Draft → List (String × Record)
  | .mk id d children =>
    (id, d.record.placed parent order) :: entriesAll id (s.appendKeys (some id) children.length) children

def entriesAll (parent : String) : List String → List (Tree Draft) → List (String × Record)
  | _, [] => []
  | keys, t :: ts => entries parent keys.head? t ++ entriesAll parent keys.tail ts

end

def entriesUnder (parent : String) (drafts : List (Tree Draft)) : List (String × Record) :=
  entriesAll s parent (s.appendKeys (some parent) drafts.length) drafts

end

end Draft

end MarkupEditor
