import MarkupEditor.Document.Record
import MarkupEditor.Text.Checksum
import MarkupEditor.Text.Decimal

namespace MarkupEditor

-- The ids of the entries hold the checksum of the path, the number of times the file was read again, and a count.
-- Should an id stand in the numbering twice, the last one counts.
structure File where
  path : String
  tree : SourceTree
  generation : Nat := 0
  numbering : List (Nat × String) := []

namespace File

def rootId (path : String) : String := Record.fileMark ++ path

def seed (path : String) : String := Text.hexadecimal (Text.crc32 path).toNat

-- The id of the entry with a count, which starts at one.
def nodeId (path : String) (generation count : Nat) : String :=
  seed path ++ "-" ++ Text.decimal generation ++ "-" ++ Text.decimal count

def idOf? (f : File) (number : Nat) : Option String := (f.numbering.find? (·.1 == number)).map Prod.snd

def numberOf? (f : File) (id : String) : Option Nat := (f.numbering.reverse.find? (·.2 == id)).map Prod.fst

def find? (files : List File) (path : String) : Option File := files.find? (·.path == path)

def put (f : File) : List File → List File
  | [] => [f]
  | g :: rest => if g.path = f.path then f :: rest else g :: put f rest

end File

end MarkupEditor
