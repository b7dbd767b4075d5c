namespace MarkupEditor

-- `real s m e` is m · 10^e, negative if `s`.
inductive Json.Number where
  | whole (n : Int)
  | real (negative : Bool) (mantissa : Nat) (exponent : Int)
  deriving DecidableEq, Repr

inductive Json where
  | null
  | bool (value : Bool)
  | number (value : Json.Number)
  | string (value : String)
  | array (items : List Json)
  | object (members : List (String × Json))

namespace Json

def nat (n : Nat) : Json := .number (.whole n)

def int (n : Int) : Json := .number (.whole n)

def ofOption {α : Type} (f : α → Json) : Option α → Json
  | some a => f a
  | none => .null

def strings (ss : List String) : Json := .array (ss.map .string)

def member? (name : String) (members : List (String × Json)) : Option Json :=
  (members.reverse.find? (·.1 == name)).map Prod.snd

def get? (name : String) : Json → Option Json
  | object members => member? name members
  | _ => none

def string? : Json → Option String
  | string s => some s
  | _ => none

def bool? : Json → Option Bool
  | bool b => some b
  | _ => none

def array? : Json → Option (List Json)
  | array items => some items
  | _ => none

def natUpTo? (bound : Nat) : Json → Option Nat
  | number (.whole n) => if 0 ≤ n ∧ n ≤ bound then some n.toNat else none
  | _ => none

mutual

def depth : Json → Nat
  | array items => depthItems items + 1
  | object members => depthMembers members + 1
  | _ => 0

def depthItems : List Json → Nat
  | [] => 0
  | j :: js => max (depth j) (depthItems js)

def depthMembers : List (String × Json) → Nat
  | [] => 0
  | (_, j) :: ms => max (depth j) (depthMembers ms)

end

-- The fields of a record, in declared order: by name from an object, by place from an array. An object may
-- have other members; an array may not be longer.
def fields? (names : List String) : Json → Option (List (Option Json))
  | object members => some (names.map (member? · members))
  | array items =>
    if items.length ≤ names.length then
      some (items.map some ++ List.replicate (names.length - items.length) none)
    else none
  | _ => none

end Json

end MarkupEditor
