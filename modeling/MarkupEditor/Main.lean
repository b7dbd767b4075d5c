import MarkupEditor.CommandLine.Run

namespace MarkupEditor

namespace Main

def fault : IO.Error → FileFault
  | .noFileOrDirectory .. => .notFound
  | .alreadyExists .. => .alreadyExists
  | .inappropriateType _ code _ => if code = 20 ∨ code = 0 - 20 then .notADirectory else .isADirectory
  | .permissionDenied _ code _ => .other code.toNat "Permission denied"
  | e => .other 5 (toString e)

def disk : FileAccess IO where
  exists_ path := do ((← IO.currentDir) / path).pathExists
  read path := do
    try return .ok (← IO.FS.readBinFile path).toList
    catch e => return .error (fault e)
  write path text := do
    try
      IO.FS.writeFile path text
      return none
    catch e => return some (fault e)

end Main

end MarkupEditor

open MarkupEditor in
def main (args : List String) : IO UInt32 := do
  let directory := toString (← IO.currentDir)
  let outcome ← CommandLine.run Main.disk directory args
  IO.print outcome.output
  match outcome.failure with
  | some message => IO.eprint ("\n" ++ CommandLine.report message)
  | none => if outcome.code = 2 then IO.eprintln "usage: reshaper (init | outline FILE | tag FILE) [options]"
  return outcome.code.toUInt32
