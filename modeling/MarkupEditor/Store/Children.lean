import MarkupEditor.OrderKey
import MarkupEditor.Store.Basic

namespace MarkupEditor

class Placed (α : Type) where
  parent : α → Option String
  order : α → Option String

namespace Store

variable {α : Type} [Placed α]

-- The id under which entries without a parent are listed.
def rootsId : String := ""

def parentId (a : α) : String := (Placed.parent a).getD rootsId

def orderKey (a : α) : String := (Placed.order a).getD OrderKey.default

-- By key, then by id.
def precedes (a b : String × String) : Bool := a.1 < b.1 || (a.1 == b.1 && (a.2 < b.2 || a.2 == b.2))

def keyedChildren (s : Store α) (parent : String) : List (String × String) :=
  ((s.entries.filter (fun e => parentId e.2 == parent)).map (fun e => (orderKey e.2, e.1))).mergeSort precedes

def children (s : Store α) (parent : String) : List String := (s.keyedChildren parent).map Prod.snd

def roots (s : Store α) : List String := s.children rootsId

def orderKeyOf? (s : Store α) (id : String) : Option String := (s.get? id).map orderKey

def appendKeys (s : Store α) (parent : Option String) (n : Nat) : List String :=
  OrderKey.batch ((s.keyedChildren (parent.getD rootsId)).getLast?.map Prod.fst) none n

end Store

end MarkupEditor
