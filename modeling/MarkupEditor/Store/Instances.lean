import MarkupEditor.Store.Basic

namespace MarkupEditor

-- An entry that was erased and added again has a new instance, told from the old one by its serial number.
structure Instances where
  live : List (String × Nat) := []
  made : Nat := 0

namespace Instances

def get? (i : Instances) (id : String) : Option Nat := (i.live.find? (·.1 == id)).map Prod.snd

def make (i : Instances) (id : String) : Instances :=
  { live := i.live ++ [(id, i.made + 1)], made := i.made + 1 }

def note {α : Type} (i : Instances) (c : Change α) : Instances :=
  match c.after with
  | some _ => if (i.get? c.id).isSome then i else i.make c.id
  | none => { i with live := i.live.filter (·.1 ≠ c.id) }

def ofStore {α : Type} (s : Store α) (made : Nat) : Instances := s.ids.foldl make { made }

end Instances

end MarkupEditor
