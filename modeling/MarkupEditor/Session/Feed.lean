namespace MarkupEditor

-- A receiver that is further behind than the items that are kept is told how many it missed.
structure Feed (α : Type) where
  capacity : Nat
  sent : List α := []
  -- How many items each receiver has passed.
  receivers : List Nat := []

inductive Received (α : Type) where
  | item (a : α)
  | missed (count : Nat)

namespace Feed

variable {α : Type}

def publish (f : Feed α) (a : α) : Feed α := { f with sent := f.sent ++ [a] }

def subscribe (f : Feed α) : Nat × Feed α :=
  (f.receivers.length, { f with receivers := f.receivers ++ [f.sent.length] })

def drain (f : Feed α) (receiver : Nat) : List (Received α) × Feed α :=
  match f.receivers[receiver]? with
  | none => ([], f)
  | some position =>
    let oldest := f.sent.length - f.capacity
    let missed := if position < oldest then [.missed (oldest - position)] else []
    (missed ++ (f.sent.drop (max position oldest)).map .item,
      { f with receivers := f.receivers.set receiver f.sent.length })

end Feed

end MarkupEditor
