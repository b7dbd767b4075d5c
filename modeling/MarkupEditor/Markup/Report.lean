import MarkupEditor.Text.Blank
import MarkupEditor.Text.Decimal
import MarkupEditor.Text.Width
import MarkupEditor.Markup.ParseError

namespace MarkupEditor

namespace Report

def paint (colour text : String) : String := "\x1b[" ++ colour ++ "m" ++ text ++ "\x1b[0m"

def frame (text : String) : String := paint "38;5;246" text

def plain (text : String) : String := paint "38;5;249" text

def bright (text : String) : String := paint "31" text

def isLineEnd (c : Char) : Bool :=
  c == '\n' || c == '\r' || c == '\x0b' || c == '\x0c' || c == '\x85' || c == '\u2028' || c == '\u2029'

-- The lines of a text with their ends; a carriage return before a line feed does not end one. What has been read
-- of the first line is in reverse.
def linesFrom (read : List Char) : List Char → List (List Char)
  | [] => if read.isEmpty then [] else [read.reverse]
  | c :: cs =>
    if isLineEnd c ∧ ¬(c = '\r' ∧ cs.head? = some '\n') then (c :: read).reverse :: linesFrom [] cs
    else linesFrom (c :: read) cs

-- The number of the line that holds the character at `index`, its text, and the place in it. The end of
-- the text counts to the last line.
def locate (number index : Nat) : List (List Char) → Option (Nat × List Char × Nat)
  | [] => none
  | [line] => some (number, line, index)
  | line :: rest => if index < line.length then some (number, line, index) else locate (number + 1) (index - line.length) rest

def spaces (n : Nat) : String := String.ofList (List.replicate n ' ')

-- The room that a character takes at a column: a tab runs to the next multiple of four, every other blank takes
-- one cell.
def room (column : Nat) (c : Char) : Nat :=
  if c = '\t' then 4 - column % 4 else if Text.isBlank c then 1 else Text.cellWidth c

-- Blanks are shown as spaces that fill their room.
def shownChar (column : Nat) (c : Char) : List Char :=
  if Text.isBlank c then List.replicate (room column c) ' ' else [c]

def shownLine (column : Nat) (line : List Char) : String :=
  "".intercalate (line.zipIdx.map fun (c, i) =>
    "".intercalate ((shownChar i c).map fun cell => if i = column then bright cell.toString else plain cell.toString))

-- The room at a column of a line; past its end every column takes one cell.
def roomAt (line : List Char) (column : Nat) : Nat :=
  match (line.drop column).head? with
  | some c => room column c
  | none => 1

def roomFrom (line : List Char) (first count : Nat) : Nat :=
  let cs := (line.drop first).take count
  (cs.zipIdx first).foldl (fun total (c, i) => total + room i c) (count - cs.length)

-- The row below a line that points at a column, and the row below it that leads to the label. Where the column
-- takes no room nothing points at it.
def pointer (line : List Char) (column : Nat) : String :=
  let here := roomAt line column
  spaces (roomFrom line 0 column) ++ (if here = 0 then "" else bright "┬") ++
    "".intercalate (List.replicate (here - 1) (bright "─")) ++ spaces (roomFrom line (column + 1) 2)

def arrow (line : List Char) (column : Nat) : String :=
  let here := roomAt line column
  spaces (roomFrom line 0 column) ++ (if here = 0 then "" else bright "╰") ++
    "".intercalate (List.replicate (here - 1 + roomFrom line (column + 1) 2) (bright "─"))

end Report

open Report in
-- The offset of the error counts bytes, and is used as a number of characters here.
def ParseError.report (e : ParseError) (source : List Char) (fileName : String) : String :=
  let start := min e.pos (byteSize source - 1)
  let title := paint "31" "Error:" ++ " " ++ e.message ++ "\n"
  if source.length < start then title
  else
    match locate 1 start (linesFrom [] source) with
    | none => title
    | some (number, line, column) =>
      let n := Text.decimal number
      let margin := spaces n.length
      let gutter := " " ++ paint "38;5;240" (margin ++ " │") ++ " "
      let line := Text.trimEnd line
      let header := margin ++ "  " ++ frame "╭" ++ frame "─" ++ frame "[" ++ fileName ++ ":" ++ n ++ ":" ++
        Text.decimal (column + 1) ++ frame "]" ++ "\n" ++ margin ++ "  " ++ frame "│" ++ "\n"
      let excerpt :=
        if start = source.length then gutter ++ "\n"
        else " " ++ frame (n ++ " │") ++ " " ++ shownLine column line ++ "\n" ++
          gutter ++ pointer line column ++ "\n" ++ gutter ++ arrow line column ++ " " ++ e.label ++ "\n"
      let footer := frame (String.ofList (List.replicate (n.length + 2) '─') ++ "╯") ++ "\n"
      title ++ header ++ excerpt ++ footer

end MarkupEditor
