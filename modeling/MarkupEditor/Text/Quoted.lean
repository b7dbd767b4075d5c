import MarkupEditor.Text.Checksum
import MarkupEditor.Text.GraphemeExtend

namespace MarkupEditor.Text

-- The sound marks of halfwidth katakana extend the character before them but show by themselves.
def isHalfwidthMark (c : Char) : Bool := c == '\uff9e' || c == '\uff9f'

-- The fillers of Hangul syllables count as letters but show nothing.
def isFiller (c : Char) : Bool := c == '\u115f' || c == '\u1160' || c == '\u3164' || c == '\uffa0'

def isVisible (c : Char) : Bool := isPrintable c && !isFiller c && (!isGraphemeExtend c || isHalfwidthMark c)

def quotedChar (c : Char) : List Char :=
  if c = '\x00' then ['\\', '0']
  else if c = '\t' then ['\\', 't']
  else if c = '\r' then ['\\', 'r']
  else if c = '\n' then ['\\', 'n']
  else if c = '\\' ∨ c = '"' then ['\\', c]
  else if isVisible c then [c]
  else "\\u\x7b".toList ++ (hexadecimal c.toNat).toList ++ ['}']

def quoted (cs : List Char) : String := String.ofList ('"' :: cs.flatMap quotedChar ++ ['"'])

end MarkupEditor.Text
