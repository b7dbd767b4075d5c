import MarkupEditor.Markup.ParseError
import MarkupEditor.Markup.Token.Code
import MarkupEditor.Markup.Token.Tag

namespace MarkupEditor

variable {κ : Type}

-- The kind of a token (`none` if it fits none), the offset where it starts and the offset where it stops.
structure Span (κ : Type) where
  kind : Option κ
  start : Nat
  stop : Nat
  deriving DecidableEq, Repr

def Token.span (t : Token κ) (offset : Nat) : Span κ := ⟨t.kind, offset + byteSize t.skipped, offset + byteSize t.through⟩

-- The text behind a byte offset, if a character starts or the text ends there.
def textFrom? (offset : Nat) (source : List Char) : Option (List Char) :=
  (charsBefore? offset source).map fun before => source.drop before.length

def scanAt? (scan : List Char → Option (Token κ)) (source : String) (offset : Nat) : Option (Span κ) :=
  (textFrom? offset source.toList).bind fun rest => (scan rest).map (·.span offset)

def Code.nextAt? (source : String) (offset : Nat) : Option (Span CodeKind) := scanAt? next source offset

def Tag.nextAt? (source : String) (offset : Nat) : Option (Span TagKind) := scanAt? next source offset

end MarkupEditor
