import MarkupEditor.Markup.Location

namespace MarkupEditor

inductive ParseError where
  | unexpectedToken (pos : Nat) (expected found : String)
  | unexpectedEnd (pos : Nat) (expected : String)
  | invalid (pos : Nat) (message : String)
  | unclosed (pos : Nat) (name : String)
  deriving DecidableEq, Repr, Inhabited

namespace ParseError

def pos : ParseError → Nat
  | unexpectedToken p .. => p
  | unexpectedEnd p _ => p
  | invalid p _ => p
  | unclosed p _ => p

def message : ParseError → String
  | unexpectedToken p expected found => s!"Unexpected token at {p}: expected {expected}, found {found}"
  | unexpectedEnd p expected => s!"Unexpected end of file at {p}: expected {expected}"
  | invalid p text => s!"Invalid syntax at {p}: {text}"
  | unclosed p name => s!"Unclosed element <{name}> opened at {p}"

def label : ParseError → String
  | unexpectedToken _ expected _ => s!"expected {expected}"
  | unexpectedEnd _ expected => s!"expected {expected}"
  | invalid _ text => text
  | unclosed _ name => s!"<{name}> is never closed"

end ParseError

def charsBefore? (offset : Nat) : List Char → Option (List Char)
  | [] => if offset = 0 then some [] else none
  | c :: cs =>
    if offset = 0 then some []
    else if c.utf8Size ≤ offset then (charsBefore? (offset - c.utf8Size) cs).map (c :: ·)
    else none

-- The line feeds before the place are counted, and the characters after the last of them. An offset past the end
-- counts as the end, and one inside a character as the end too.
def ParseError.lineColumn (e : ParseError) (source : List Char) : Nat × Nat :=
  let before := (charsBefore? (min e.pos (byteSize source)) source).getD source
  (before.count '\n' + 1, (before.reverse.takeWhile (· ≠ '\n')).length)

end MarkupEditor
