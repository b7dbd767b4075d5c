namespace MarkupEditor

structure TitledCommand (γ : Type) where
  command : γ
  title : Option String := none

structure UndoStack (γ : Type) where
  done : List (TitledCommand γ) := []
  undone : List (TitledCommand γ) := []
  maxLevels : Nat := 100

namespace UndoStack

variable {γ : Type}

def limited (maxLevels : Nat) (commands : List (TitledCommand γ)) : List (TitledCommand γ) :=
  if maxLevels = 0 then commands else commands.take maxLevels

def push (s : UndoStack γ) (command : γ) : UndoStack γ :=
  { s with done := limited s.maxLevels (⟨command, none⟩ :: s.done), undone := [] }

-- The command to revert, and the stack with it undone.
def undo? (s : UndoStack γ) : Option (γ × UndoStack γ) :=
  match s.done with
  | [] => none
  | c :: rest => some (c.command, { s with done := rest, undone := c :: s.undone })

def redo? (s : UndoStack γ) : Option (γ × UndoStack γ) :=
  match s.undone with
  | [] => none
  | c :: rest => some (c.command, { s with done := c :: s.done, undone := rest })

def clear (s : UndoStack γ) : UndoStack γ := { s with done := [], undone := [] }

def undoLevels (s : UndoStack γ) : Nat := s.done.length

def redoLevels (s : UndoStack γ) : Nat := s.undone.length

def setTitle (s : UndoStack γ) (title : String) : UndoStack γ :=
  match s.done with
  | [] => s
  | c :: rest => { s with done := { c with title := some title } :: rest }

def undoTitle? (s : UndoStack γ) : Option String := s.done.head?.bind TitledCommand.title

def redoTitle? (s : UndoStack γ) : Option String := s.undone.head?.bind TitledCommand.title

def amend (s : UndoStack γ) (f : γ → γ) : UndoStack γ :=
  match s.done with
  | [] => s
  | c :: rest => { s with done := { c with command := f c.command } :: rest }

end UndoStack

end MarkupEditor
