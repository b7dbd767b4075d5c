import MarkupEditor.Document.InPlace
import MarkupEditor.Session.Basic

namespace MarkupEditor

namespace Session

-- While guards are held nothing is marked for saving. A guard goes also when what it was held for fails.
structure Guarded (σ : Type) where
  session : Session σ
  guards : Nat := 0

abbrev Action (σ α : Type) := EStateM SessionError (Guarded σ) α

def Guarded.taken {σ : Type} (g : Guarded σ) (d : Document) : Guarded σ :=
  { g with session := if g.guards = 0 then g.session.edited d else g.session.withDocument d }

namespace Action

variable {σ : Type} {α : Type}

def change (f : Session σ → Session σ) : Action σ Unit := modify fun g => { g with session := f g.session }

def onDocument (act : Document.Action α) : Action σ α := fun g =>
  match act g.session.document with
  | .ok a d => .ok a (g.taken d)
  | .error e d => .error (.edit e) (g.taken d)

def unmarked (act : Action σ α) : Action σ α := do
  modify fun g => { g with guards := g.guards + 1 }
  try act finally modify fun g => { g with guards := g.guards - 1 }

variable [Storage σ]

def readIn (path : String) (entries : SourceTree → Document.Action Handle) : Action σ Unit := do
  let tree ← MonadExcept.ofExcept ((← get).session.source path)
  let _ ← unmarked (onDocument (entries tree))

def openFile (path : String) : Action σ Unit := do
  if (← get).session.document.isLoaded path then change (·.activate path)
  else
    readIn path (.load path)
    change (·.activate path)

def reopenFile (path : String) : Action σ Unit := do
  if (← get).session.document.isLoaded path then
    readIn path (.reload path)
    change (·.forget path)
  else throw (.edit (.fileNotLoaded path))

omit [Storage σ]

def closeFile (path : String) : Action σ Unit := do
  unmarked (onDocument (.close path))
  change (·.forget path)
  if (← get).session.active = some path then change ({ · with active := none })

def setActive (path : String) : Action σ Unit := do
  if (← get).session.document.isLoaded path then change (·.activate path)
  else throw (.edit (.fileNotLoaded path))

end Action

end Session

end MarkupEditor
