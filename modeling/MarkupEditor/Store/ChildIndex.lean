import MarkupEditor.Store.Children
import MarkupEditor.Store.IdSet

namespace MarkupEditor

structure ChildList where
  items : List String := []
  places : List (String × Nat) := []

namespace ChildList

def ofItems (items : List String) : ChildList := ⟨items, items.zipIdx⟩

def indexOf? (l : ChildList) (id : String) : Option Nat := (l.places.find? (·.1 == id)).map Prod.snd

end ChildList

structure ChildGroup where
  members : IdSet := {}
  listing : Option ChildList := none

structure ChildIndex where
  groups : Store ChildGroup := Store.empty

namespace ChildIndex

def insert (i : ChildIndex) (parent id : String) : ChildIndex :=
  let group := (i.groups.get? parent).getD {}
  ⟨i.groups.set parent { members := group.members.insert id }⟩

def remove (i : ChildIndex) (parent id : String) : ChildIndex :=
  match i.groups.get? parent with
  | some group =>
    let members := group.members.erase id
    if members.isEmpty then ⟨i.groups.erase parent⟩ else ⟨i.groups.set parent { members }⟩
  | none => i

-- The group is to be sorted again.
def invalidate (i : ChildIndex) (parent : String) : ChildIndex :=
  match i.groups.get? parent with
  | some group => ⟨i.groups.set parent { group with listing := none }⟩
  | none => i

section

variable {α : Type} [Placed α]

-- Follows a change of the store. What a record holds besides its place does not matter.
def note (i : ChildIndex) (c : Change α) : ChildIndex :=
  match c.before, c.after with
  | none, some new => i.insert (Store.parentId new) c.id
  | some old, some new =>
    if Store.parentId old ≠ Store.parentId new then
      (i.remove (Store.parentId old) c.id).insert (Store.parentId new) c.id
    else if Placed.order old ≠ Placed.order new then i.invalidate (Store.parentId new)
    else i
  | some old, none => i.remove (Store.parentId old) c.id
  | none, none => i

def ofStore (s : Store α) : ChildIndex := s.entries.foldl (fun i e => i.insert (Store.parentId e.2) e.1) {}

def sorted (s : Store α) (ids : List String) : List String :=
  ((ids.map fun id => ((s.orderKeyOf? id).getD OrderKey.default, id)).mergeSort Store.precedes).map Prod.snd

def read (i : ChildIndex) (s : Store α) (parent : String) : ChildList × ChildIndex :=
  match i.groups.get? parent with
  | some group =>
    match group.listing with
    | some listing => (listing, i)
    | none =>
      let listing := ChildList.ofItems (sorted s group.members.ids)
      (listing, ⟨i.groups.set parent { group with listing := some listing }⟩)
  | none => ({}, i)

end

end ChildIndex

end MarkupEditor
