import MarkupEditor.History.Stack
import MarkupEditor.Store.Basic

namespace MarkupEditor

-- The changes to the entries of one store, in the order the entries were first touched.
structure Sheet (κ α : Type) where
  store : κ
  changes : List (Change α)

structure Write (κ α : Type) where
  store : κ
  id : String
  value : Option α

abbrev Command (κ α : Type) := List (Sheet κ α)

namespace Command

variable {κ α : Type}

-- Adds a change to the changes of a store: the first record before and the last record after count.
def stageChange (c : Change α) : List (Change α) → List (Change α)
  | [] => [c]
  | d :: rest => if d.id = c.id then { d with after := c.after } :: rest else d :: stageChange c rest

def stage [DecidableEq κ] (store : κ) (c : Change α) : Command κ α → Command κ α
  | [] => [⟨store, [c]⟩]
  | sheet :: rest =>
    if sheet.store = store then { sheet with changes := stageChange c sheet.changes } :: rest
    else sheet :: stage store c rest

def reverting (command : Command κ α) : List (Write κ α) :=
  command.reverse.flatMap fun sheet => sheet.changes.reverse.map fun c => ⟨sheet.store, c.id, c.before⟩

def repeating (command : Command κ α) : List (Write κ α) :=
  command.flatMap fun sheet => sheet.changes.map fun c => ⟨sheet.store, c.id, c.after⟩

end Command

structure History (κ α : Type) where
  stack : UndoStack (Command κ α) := {}
  window : Nat := 1000
  -- When the last change was recorded, while the newest command is open.
  lastStaged : Option Nat := none
  paused : Nat := 0

namespace History

variable {κ α : Type}

def recording (h : History κ α) : Bool := h.paused == 0

def close (h : History κ α) : History κ α := { h with lastStaged := none }

def open? (h : History κ α) (now : Nat) : Bool :=
  match h.lastStaged with
  | some last => now - last ≤ h.window
  | none => false

-- Changes that follow one another within the window form one command, until it is closed.
def stage [DecidableEq κ] (h : History κ α) (now : Nat) (store : κ) (c : Change α) : History κ α :=
  if h.recording then
    let stack := if h.open? now then h.stack else h.stack.push []
    { h with stack := stack.amend (Command.stage store c), lastStaged := some now }
  else h

def undo (h : History κ α) : Option (List (Write κ α)) × History κ α :=
  match h.stack.undo? with
  | some (command, stack) => (some command.reverting, { h.close with stack })
  | none => (none, h.close)

def redo (h : History κ α) : Option (List (Write κ α)) × History κ α :=
  match h.stack.redo? with
  | some (command, stack) => (some command.repeating, { h.close with stack })
  | none => (none, h.close)

def clear (h : History κ α) : History κ α := { h.close with stack := h.stack.clear }

def pause (h : History κ α) : History κ α := { h with paused := h.paused + 1 }

def resume (h : History κ α) : History κ α := { h with paused := h.paused - 1 }

def setTitle (h : History κ α) (title : String) : History κ α := { h with stack := h.stack.setTitle title }

end History

end MarkupEditor
