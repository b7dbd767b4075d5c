import MarkupEditor.Text.Decimal

namespace MarkupEditor

inductive FileFault where
  | notFound
  | alreadyExists
  | notADirectory
  | isADirectory
  | notText
  -- The name of a file cannot hold this text.
  | invalidName
  | nameTooLong
  | rejected (path : String)
  | other (code : Nat) (words : String)
  deriving DecidableEq, Repr

namespace FileFault

def systemWords (words : String) (code : Nat) : String := words ++ " (os error " ++ Text.decimal code ++ ")"

def message : FileFault → String
  | notFound => systemWords "No such file or directory" 2
  | alreadyExists => systemWords "File exists" 17
  | notADirectory => systemWords "Not a directory" 20
  | isADirectory => systemWords "Is a directory" 21
  | notText => "stream did not contain valid UTF-8"
  | invalidName => "file name contained an unexpected NUL byte"
  | nameTooLong => systemWords "File name too long" 36
  | rejected path => "save rejected: " ++ path
  | other code words => systemWords words code

end FileFault

end MarkupEditor
