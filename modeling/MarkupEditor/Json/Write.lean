import MarkupEditor.Json.Basic

namespace MarkupEditor.Json

namespace Write

def hexDigit (n : Nat) : Char := Nat.digitChar n

def escapeChar (c : Char) : List Char :=
  match c with
  | '"' => ['\\', '"']
  | '\\' => ['\\', '\\']
  | '\x08' => ['\\', 'b']
  | '\x0c' => ['\\', 'f']
  | '\n' => ['\\', 'n']
  | '\r' => ['\\', 'r']
  | '\t' => ['\\', 't']
  | c => if c.toNat < 0x20 then ['\\', 'u', '0', '0', hexDigit (c.toNat / 16), hexDigit (c.toNat % 16)] else [c]

def quoted (s : String) : String := String.ofList ('"' :: s.toList.flatMap escapeChar ++ ['"'])

def number : Number → String
  | .whole n => toString n
  | .real negative mantissa exponent => (if negative then "-" else "") ++ toString mantissa ++ "e" ++ toString exponent

def indent (depth : Nat) : String := "\n" ++ String.ofList (List.replicate (2 * depth) ' ')

mutual

def line : Json → String
  | .null => "null"
  | .bool b => if b then "true" else "false"
  | .number n => number n
  | .string s => quoted s
  | .array items => "[" ++ ",".intercalate (lines items) ++ "]"
  | .object members => "\x7b" ++ ",".intercalate (memberLines members) ++ "\x7d"

def lines : List Json → List String
  | [] => []
  | j :: js => line j :: lines js

def memberLines : List (String × Json) → List String
  | [] => []
  | (name, j) :: ms => (quoted name ++ ":" ++ line j) :: memberLines ms

end

mutual

def spread (depth : Nat) : Json → String
  | .array (j :: js) =>
    "[" ++ ",".intercalate (spreadItems (depth + 1) (j :: js)) ++ indent depth ++ "]"
  | .object (m :: ms) =>
    "\x7b" ++ ",".intercalate (spreadMembers (depth + 1) (m :: ms)) ++ indent depth ++ "\x7d"
  | j => line j

def spreadItems (depth : Nat) : List Json → List String
  | [] => []
  | j :: js => (indent depth ++ spread depth j) :: spreadItems depth js

def spreadMembers (depth : Nat) : List (String × Json) → List String
  | [] => []
  | (name, j) :: ms => (indent depth ++ quoted name ++ ": " ++ spread depth j) :: spreadMembers depth ms

end

end Write

def compact (j : Json) : String := Write.line j

def pretty (j : Json) : String := Write.spread 0 j

end MarkupEditor.Json
