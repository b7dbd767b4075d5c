import MarkupEditor.Document.Basic

namespace MarkupEditor

namespace Document

-- A node is selected instead of what stands below it, so selecting deselects everything there.
def deselect (d : Document) (id : String) : Document :=
  { d with selection := d.selection.eraseAll (id :: d.store.descendants id) }

def select (d : Document) (id : String) : Document :=
  { d with selection := (d.selection.eraseAll (d.store.descendants id)).insert id }

def clearSelection (d : Document) : Document := { d with selection := {} }

def isSelected (d : Document) (id : String) : Bool := d.selection.contains id

def isAncestorSelected (d : Document) (id : String) : Bool := (id :: d.store.ancestors id).any d.isSelected

def selectedNodes (d : Document) : List Handle := d.handles d.selection.ids

def hoveredNode? (d : Document) : Option Handle := d.hovered.bind d.handle?

def hover (d : Document) (id : Option String) : Document := { d with hovered := id }

def isExpanded (d : Document) (h : Handle) : Bool := d.expanded.contains h.serial

def setExpanded (d : Document) (h : Handle) (value : Bool) : Document :=
  if value then
    if d.isExpanded h then d else { d with expanded := d.expanded ++ [h.serial] }
  else { d with expanded := d.expanded.filter (· ≠ h.serial) }

-- The live instance of an entry is expanded.
def isOpen (d : Document) (id : String) : Bool := (d.handle? id).any d.isExpanded

def expandAll (d : Document) (handles : List Handle) : Document := handles.foldl (·.setExpanded · true) d

def expandAncestors (d : Document) (id : String) : Document := d.expandAll (d.handles (d.store.ancestors id))

-- The last row of an entry and what shows below it.
def lastRow (d : Document) : Nat → String → String
  | 0, id => id
  | levels + 1, id =>
    if d.isOpen id then
      match (d.store.children id).getLast? with
      | some child => d.lastRow levels child
      | none => id
    else id

def previousRow? (d : Document) (id : String) : Option String :=
  match d.store.previousSibling? id with
  | some sibling => some (d.lastRow d.store.size sibling)
  | none => d.store.parent? id

-- The row after everything that shows below an entry.
def rowAfter? (d : Document) (id : String) : Option String :=
  (id :: d.store.ancestors id).findSome? d.store.nextSibling?

def nextRow? (d : Document) (h : Handle) : Option Handle :=
  let inside := if d.isExpanded h then d.store.childAt? h.id 0 else none
  (inside.or (d.rowAfter? h.id)).bind d.handle?

-- The rows from a node on to the end or to a last one, within a number of steps.
def rowsUpTo (d : Document) (last : Option Handle) : Nat → Handle → List Handle
  | 0, h => [h]
  | steps + 1, h =>
    if last = some h then [h]
    else
      match d.nextRow? h with
      | some next => h :: d.rowsUpTo last steps next
      | none => [h]

def rowsFrom (d : Document) (h : Handle) : List Handle := d.rowsUpTo none d.store.size h

def rowsBackUpTo (d : Document) : Nat → String → List String
  | 0, id => [id]
  | steps + 1, id =>
    match d.previousRow? id with
    | some previous => id :: d.rowsBackUpTo steps previous
    | none => [id]

def rowsBack (d : Document) (id : String) : List String := d.rowsBackUpTo d.store.size id

def inOrder (d : Document) (handles : List Handle) : List Handle :=
  ((handles.map fun h => (d.store.indexPath h.id, h)).mergeSort fun a b => !(b.1 < a.1)).map Prod.snd

def selectBetween (d : Document) (handles : List Handle) : Document :=
  let sorted := d.inOrder handles
  match sorted.head?, sorted.getLast? with
  | some first, some last =>
    (d.rowsUpTo (some last) d.store.size first).foldl (fun d h => d.select h.id) d.clearSelection
  | _, _ => d

end Document

end MarkupEditor
