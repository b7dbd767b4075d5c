import MarkupEditor.History.Recorder
import MarkupEditor.Store.Children
import MarkupEditor.Store.Instances

namespace MarkupEditor

-- What observes a store: a log, which may also copy every change onto an id of its own; a child index; a
-- keeper of instances; the history.
inductive Observer (α : Type) where
  | log (name : String) (copy : Option (String × (α → α)))
  | children
  | instances
  | history

namespace Observer

variable {α : Type}

-- The writes that an observer answers a change with: the copy of the record after it, or the erasure of
-- the copy. Changes to the copy itself are not copied.
def answers (o : Observer α) (c : Change α) : List (String × Option α) :=
  match o with
  | .log _ (some (copyId, f)) => if c.id = copyId then [] else [(copyId, c.after.map f)]
  | _ => []

def isLog (name : String) : Observer α → Bool
  | .log n _ => n == name
  | _ => false

end Observer

-- Observers hear of a change in the order of their subscription, after the store has changed. One may write to the
-- store in turn; that is announced before the remaining observers hear of the first change.
structure Observed (α : Type) where
  store : Store α := Store.empty
  observers : List (Observer α) := []

namespace Observed

variable {α : Type}

mutual

-- Writes and announces the change. Returns the store and what each observer heard, in order. The depth
-- bounds how far observers may answer one another.
def write (observers : List (Observer α)) : Nat → Store α → String → Option α → Store α × List (Observer α × Change α)
  | 0, s, _, _ => (s, [])
  | depth + 1, s, id, value =>
    match s.write id value with
    | (s, none) => (s, [])
    | (s, some c) => announce observers depth s c observers

def announce (observers : List (Observer α)) : Nat → Store α → Change α → List (Observer α) →
    Store α × List (Observer α × Change α)
  | _, s, _, [] => (s, [])
  | depth, s, c, o :: rest =>
    let (s, answered) := answer observers depth s (o.answers c)
    let (s, later) := announce observers depth s c rest
    (s, (o, c) :: answered ++ later)

def answer (observers : List (Observer α)) : Nat → Store α → List (String × Option α) →
    Store α × List (Observer α × Change α)
  | _, s, [] => (s, [])
  | depth, s, (id, value) :: rest =>
    let (s, heard) := write observers depth s id value
    let (s, later) := answer observers depth s rest
    (s, heard ++ later)

end

end Observed

end MarkupEditor
