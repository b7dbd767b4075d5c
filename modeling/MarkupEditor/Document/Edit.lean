import MarkupEditor.Document.View
import MarkupEditor.OrderKey

namespace MarkupEditor

namespace Document

-- What stands in code keeps its place: nothing is moved into an entry that pins its children, and these are neither
-- moved nor deleted.
def pinsChildren (d : Document) (id : String) : Bool := (d.store.get? id).any Record.pinsChildren

def isMovable (d : Document) (id : String) : Bool := !(d.store.parent? id).any d.pinsChildren

-- Erases an entry that has nothing below it, also from the selection and from under the pointer.
def removeEntry (d : Document) (id : String) : Document :=
  let hovered := if d.hovered = some id then none else d.hovered
  { d with selection := d.selection.erase id, hovered }.write id none

def removeBelow (d : Document) (id : String) : Document :=
  (Tree.postorderAll (d.store.trees id)).foldl removeEntry d

def remove (d : Document) (id : String) : Document := (d.removeBelow id).removeEntry id

def delete (d : Document) (id : String) : Bool × Document :=
  if d.isMovable id then (true, d.remove id) else (false, d)

-- The nodes that may go under a parent: not itself or one of its ancestors, and no pinned ones.
def movedUnder (d : Document) (parent : Handle) (nodes : List Handle) : List Handle :=
  nodes.filter fun h => h ≠ parent && !d.store.isAncestor h.id parent.id && d.isMovable h.id

def keysBefore (d : Document) (parent : String) (next : Option String) (n : Nat) : List String :=
  let children := d.store.children parent
  let place := next.bind (children.idxOf? ·)
  let lower := match place.getD children.length with
    | index + 1 => children[index]?.bind d.store.orderKeyOf?
    | 0 => none
  let upper := (place.bind (children[·]?)).bind d.store.orderKeyOf?
  OrderKey.batch lower upper n

-- Moves nodes under a parent, in the order given, before one of its children or after the last. Returns the
-- nodes that were moved.
def insertBefore (d : Document) (parent : Handle) (nodes : List Handle) (next : Option String) : List Handle × Document :=
  if d.pinsChildren parent.id then ([], d)
  else
    let moved := d.movedUnder parent nodes
    if moved.isEmpty then ([], d)
    else
      let keys := d.keysBefore parent.id next moved.length
      (moved, (moved.zip keys).foldl (fun d (h, key) => d.update h.id (·.placed parent.id (some key))) d)

def append (d : Document) (parent : Handle) (nodes : List Handle) : List Handle × Document :=
  d.insertBefore parent nodes none

def kindOf? (d : Document) (id : String) : Option Kind := (d.store.get? id).bind Record.kind?

def setClass (d : Document) (id className : String) : Document :=
  if d.kindOf? id = some .element then d.update id fun r => { r with className := some className } else d

def setText (d : Document) (id text : String) : Document :=
  if d.kindOf? id = some .text then d.update id fun r => { r with text := some text } else d

end Document

end MarkupEditor
