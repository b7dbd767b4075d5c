import MarkupEditor.Store.ChildIndex
import MarkupEditor.Store.Observed

namespace MarkupEditor

structure Bench (κ α : Type) where
  stores : κ → Observed α := fun _ => {}
  indexes : κ → Option ChildIndex := fun _ => none
  instances : κ → Option Instances := fun _ => none
  history : History κ α := {}
  now : Nat := 0

structure Heard (α : Type) where
  name : String
  change : Change α

namespace Bench

variable {κ α : Type} [DecidableEq κ] [Placed α]

def assign {β : Type} (f : κ → β) (k : κ) (b : β) : κ → β := fun j => if j = k then b else f j

def store (b : Bench κ α) (k : κ) : Store α := (b.stores k).store

def observers (b : Bench κ α) (k : κ) : List (Observer α) := (b.stores k).observers

def setObservers (b : Bench κ α) (k : κ) (observers : List (Observer α)) : Bench κ α :=
  { b with stores := assign b.stores k { b.stores k with observers } }

-- Lets an observer's hearing take effect; `record` is off while the history replays.
def hear (record : Bool) (k : κ) (b : Bench κ α) (heard : Observer α × Change α) : Bench κ α :=
  match heard.1 with
  | .history => if record then { b with history := b.history.stage b.now k heard.2 } else b
  | .children => { b with indexes := assign b.indexes k ((b.indexes k).map (·.note heard.2)) }
  | .instances => { b with instances := assign b.instances k ((b.instances k).map (·.note heard.2)) }
  | _ => b

def logged (heard : List (Observer α × Change α)) : List (Heard α) :=
  heard.filterMap fun (o, c) =>
    match o with
    | .log name _ => some ⟨name, c⟩
    | _ => none

def writeWith (record : Bool) (b : Bench κ α) (k : κ) (id : String) (value : Option α) : Bench κ α × List (Heard α) :=
  let o := b.stores k
  let (store, heard) := Observed.write o.observers (o.store.size + 3) o.store id value
  let b := { b with stores := assign b.stores k { o with store } }
  (heard.foldl (hear record k) b, logged heard)

def write (b : Bench κ α) (k : κ) (id : String) (value : Option α) : Bench κ α × List (Heard α) :=
  b.writeWith true k id value

def replay (b : Bench κ α) : List (Write κ α) → Bench κ α × List (Heard α)
  | [] => (b, [])
  | w :: ws =>
    let (b, heard) := b.writeWith false w.store w.id w.value
    let (b, more) := b.replay ws
    (b, heard ++ more)

def undo (b : Bench κ α) : Bool × Bench κ α × List (Heard α) :=
  match b.history.undo with
  | (some writes, history) => (true, { b with history }.replay writes)
  | (none, history) => (false, { b with history }, [])

def redo (b : Bench κ α) : Bool × Bench κ α × List (Heard α) :=
  match b.history.redo with
  | (some writes, history) => (true, { b with history }.replay writes)
  | (none, history) => (false, { b with history }, [])

def track (b : Bench κ α) (k : κ) : Bench κ α := b.setObservers k (b.observers k ++ [.history])

def isChildren : Observer α → Bool
  | .children => true
  | _ => false

def isInstances : Observer α → Bool
  | .instances => true
  | _ => false

def indexChildren (b : Bench κ α) (k : κ) : Bench κ α :=
  let b := b.setObservers k ((b.observers k).filter (!isChildren ·) ++ [.children])
  { b with indexes := assign b.indexes k (some (.ofStore (b.store k))) }

-- Reads the children of a parent in the index of a store; there are none without an index.
def readChildren (b : Bench κ α) (k : κ) (parent : String) : ChildList × Bench κ α :=
  match b.indexes k with
  | some index =>
    let (listing, index) := index.read (b.store k) parent
    (listing, { b with indexes := assign b.indexes k (some index) })
  | none => ({}, b)

def children (b : Bench κ α) (k : κ) (parent : String) : List String := (b.readChildren k parent).1.items

def keepInstances (b : Bench κ α) (k : κ) : Bench κ α :=
  let b := b.setObservers k ((b.observers k).filter (!isInstances ·) ++ [.instances])
  { b with instances := assign b.instances k (some (.ofStore (b.store k) 0)) }

def subscribe (b : Bench κ α) (k : κ) (name : String) (copy : Option (String × (α → α))) : Bench κ α :=
  b.setObservers k (b.observers k ++ [.log name copy])

def unsubscribe (b : Bench κ α) (k : κ) (name : String) : Bench κ α :=
  b.setObservers k ((b.observers k).filter (!·.isLog name))

def subscribed (b : Bench κ α) (k : κ) (name : String) : Bool := (b.observers k).any (·.isLog name)

end Bench

end MarkupEditor
