import MarkupEditor.Markup.Location

namespace MarkupEditor

structure Cursor where
  pos : Position
  rest : List Char

namespace Cursor

def ofText (cs : List Char) : Cursor := ⟨.origin, cs⟩

-- Past `text`, with `rest` still to read.
def moved (c : Cursor) (text rest : List Char) : Cursor := ⟨c.pos.after text, rest⟩

def endOffset (c : Cursor) : Nat := c.pos.offset + byteSize c.rest

end Cursor

-- What was read from a text of at most `size` characters, and where the reader stands after it.
structure Reading (α : Type) (size : Nat) where
  value : α
  stop : Cursor
  within : stop.rest.length ≤ size

end MarkupEditor
