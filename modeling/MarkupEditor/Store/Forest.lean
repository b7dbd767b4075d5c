import MarkupEditor.Store.Children

namespace MarkupEditor

inductive Tree (α : Type) where
  | mk (id : String) (value : α) (children : List (Tree α))

namespace Tree

variable {α : Type}

def id : Tree α → String
  | mk id _ _ => id

def value : Tree α → α
  | mk _ value _ => value

def children : Tree α → List (Tree α)
  | mk _ _ children => children

mutual

def preorder : Tree α → List String
  | mk id _ children => id :: preorderAll children

def preorderAll : List (Tree α) → List String
  | [] => []
  | t :: ts => preorder t ++ preorderAll ts

end

mutual

def postorder : Tree α → List String
  | mk id _ children => postorderAll children ++ [id]

def postorderAll : List (Tree α) → List String
  | [] => []
  | t :: ts => postorder t ++ postorderAll ts

end

end Tree

namespace Store

variable {α : Type} [Placed α]

def parent? (s : Store α) (id : String) : Option String :=
  match s.get? id with
  | some record =>
    match Placed.parent record with
    | some parent => if s.contains parent then some parent else none
    | none => none
  | none => none

def ancestorsUpTo (s : Store α) : Nat → String → List String
  | 0, _ => []
  | steps + 1, id =>
    match s.parent? id with
    | some parent => parent :: s.ancestorsUpTo steps parent
    | none => []

-- In a store with a circle of parents the walk stops after as many steps as the store has entries.
def ancestors (s : Store α) (id : String) : List String := s.ancestorsUpTo s.size id

def root (s : Store α) (id : String) : String := (s.ancestors id).getLast?.getD id

def isAncestor (s : Store α) (above below : String) : Bool := (s.ancestors below).contains above

def treesUpTo (s : Store α) : Nat → String → List (Tree α)
  | 0, _ => []
  | levels + 1, id =>
    (s.children id).filterMap fun child =>
      (s.get? child).map fun record => .mk child record (s.treesUpTo levels child)

def trees (s : Store α) (id : String) : List (Tree α) := s.treesUpTo s.size id

def descendants (s : Store α) (id : String) : List String := Tree.preorderAll (s.trees id)

def index? (s : Store α) (id : String) : Option Nat :=
  match (s.get? id).bind Placed.parent with
  | some parent => (s.children parent).idxOf? id
  | none => none

-- The places of an entry and its ancestors below the root, from the root down.
def indexPath (s : Store α) (id : String) : List Nat :=
  (id :: s.ancestors id).dropLast.reverse.filterMap s.index?

def childAt? (s : Store α) (id : String) (index : Nat) : Option String := (s.children id)[index]?

def descendantAt? (s : Store α) : String → List Nat → Option String
  | id, [] => some id
  | id, index :: path =>
    match s.childAt? id index with
    | some child => s.descendantAt? child path
    | none => none

def siblings (s : Store α) (id : String) : List String :=
  match s.parent? id with
  | some parent => s.children parent
  | none => []

def previousSibling? (s : Store α) (id : String) : Option String :=
  match s.parent? id, s.index? id with
  | some parent, some (index + 1) => s.childAt? parent index
  | _, _ => none

def nextSibling? (s : Store α) (id : String) : Option String :=
  match s.parent? id, s.index? id with
  | some parent, some index => s.childAt? parent (index + 1)
  | _, _ => none

end Store

end MarkupEditor
