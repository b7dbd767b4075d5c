import MarkupEditor.Document.Numbering
import MarkupEditor.Geometry

namespace MarkupEditor

structure DrawnBox where
  tag : String
  rect : Rect

-- What lies under a point: an element of a file, and its node if it has one.
structure Located where
  node : Option Handle
  tag : PreviewTag

namespace Document

variable (boxes : List DrawnBox) (d : Document)

def locate? (x y : Float) : Option Located :=
  match boxes.reverse.find? (·.rect.contains x y) with
  | none => none
  | some box =>
    (PreviewTag.parse? box.tag).map fun tag => ⟨(d.nodeForLocation tag.path tag.index).toOption, tag⟩

def boxesOf (id : String) : List Rect :=
  match d.tagOf? id with
  | some tag => (boxes.filter (·.tag == tag)).map DrawnBox.rect
  | none => []

def selectedBoxes : List Rect := d.selectedNodes.flatMap fun h => boxesOf boxes d h.id

def hoveredBoxes : List Rect :=
  match d.hoveredNode? with
  | some h => boxesOf boxes d h.id
  | none => []

def revealPoint (x y : Float) : Option Handle × Document :=
  match (locate? boxes d x y).bind Located.node with
  | some h => (some h, d.reveal h.id)
  | none => (none, d)

end Document

end MarkupEditor
