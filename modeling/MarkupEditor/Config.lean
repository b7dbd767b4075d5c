import MarkupEditor.Json.Skip
import MarkupEditor.Json.Write
import MarkupEditor.Markup.PreviewTag

namespace MarkupEditor

structure Config where
  saveDebounceMs : Nat := 100
  undoCoalesceMs : Nat := 1000
  undoMaxLevels : Nat := 100
  tagAttribute : String := PreviewTag.defaultAttribute
  classAttribute : String := "className"
  deriving DecidableEq, Repr

namespace Config

def fileName : String := "reshaper.config.json"

inductive Field where
  | saveDebounceMs
  | undoCoalesceMs
  | undoMaxLevels
  | tagAttribute
  | classAttribute
  deriving DecidableEq, Repr

namespace Field

def name : Field → String
  | saveDebounceMs => "saveDebounceMs"
  | undoCoalesceMs => "undoCoalesceMs"
  | undoMaxLevels => "undoMaxLevels"
  | tagAttribute => "tagAttribute"
  | classAttribute => "classAttribute"

def all : List Field := [saveDebounceMs, undoCoalesceMs, undoMaxLevels, tagAttribute, classAttribute]

def ofName? (name : String) : Option Field := all.find? (·.name == name)

end Field

-- Gives a field the value, if it is of the field's type.
def set? (c : Config) (f : Field) (j : Json) : Option Config :=
  match f with
  | .saveDebounceMs => (j.natUpTo? Text.largest64).map fun n => { c with saveDebounceMs := n }
  | .undoCoalesceMs => (j.natUpTo? Text.largest64).map fun n => { c with undoCoalesceMs := n }
  | .undoMaxLevels => (j.natUpTo? Text.largest64).map fun n => { c with undoMaxLevels := n }
  | .tagAttribute => j.string?.map fun s => { c with tagAttribute := s }
  | .classAttribute => j.string?.map fun s => { c with classAttribute := s }

def get (c : Config) : Field → Json
  | .saveDebounceMs => .nat c.saveDebounceMs
  | .undoCoalesceMs => .nat c.undoCoalesceMs
  | .undoMaxLevels => .nat c.undoMaxLevels
  | .tagAttribute => .string c.tagAttribute
  | .classAttribute => .string c.classAttribute

def json (c : Config) : Json := .object (Field.all.map fun f => (f.name, c.get f))

def setAll? (c : Config) : List (Field × Option Json) → Option Config
  | [] => some c
  | (_, none) :: rest => c.setAll? rest
  | (f, some j) :: rest => do (← c.set? f j).setAll? rest

def ofJson? (j : Json) : Option Config := do
  let found ← j.fields? (Field.all.map Field.name)
  setAll? {} (Field.all.zip found)

namespace Read

open Json (Fault)
open Json.Scan (space word number string)

-- The fault of a value of the wrong type: it has to be well formed as far as its type shows.
def wrongType : List Char → Fault
  | 'n' :: cs => fault (word "ull".toList cs)
  | 't' :: cs => fault (word "rue".toList cs)
  | 'f' :: cs => fault (word "alse".toList cs)
  | '"' :: cs => fault (string cs)
  | '[' :: _ => .mismatched
  | '{' :: _ => .mismatched
  | c :: cs => if c = '-' ∨ c.isDigit then fault (number (c :: cs)) else .malformed
  | [] => .malformed
where
  fault {α : Type} : Except Fault α → Fault
    | .error e => e
    | .ok _ => .mismatched

def field (c : Config) (f : Field) (cs : List Char) : Except Fault (Config × List Char) :=
  let cs := space cs
  let isText := f = .tagAttribute ∨ f = .classAttribute
  match cs with
  | [] => .error .ended
  | '"' :: inside =>
    if isText then do
      let (text, rest) ← string inside
      match c.set? f (.string (String.ofList text)) with
      | some c => return (c, rest)
      | none => throw .mismatched
    else .error (wrongType cs)
  | d :: _ =>
    if ¬isText ∧ (d = '-' ∨ d.isDigit) then do
      let (n, rest) ← number cs
      match c.set? f (.number n) with
      | some c => return (c, rest)
      | none => throw .mismatched
    else .error (wrongType cs)

-- The rest of an object; `seen` are the fields that were given, `first` holds before any member.
def members (c : Config) (seen : List Field) (first : Bool) : Nat → List Char → Except Fault (Config × List Char)
  | 0, _ => .error .ended
  | fuel + 1, cs => do
    let member (cs : List Char) : Except Fault (Config × List Char) := do
      let (name, cs) ← string cs
      let known := Field.ofName? (String.ofList name)
      if known.any (seen.contains ·) then throw .mismatched
      match space cs with
      | ':' :: cs =>
        match known with
        | some f =>
          let (c, cs) ← field c f cs
          members c (f :: seen) false fuel cs
        | none => members c seen false fuel (← Json.skip cs)
      | [] => throw .ended
      | _ => throw .malformed
    match space cs, first with
    | [], _ => throw .ended
    | '}' :: cs, _ => return (c, cs)
    | ',' :: cs, false =>
      match space cs with
      | '"' :: cs => member cs
      | [] => throw .ended
      | _ => throw .malformed
    | '"' :: cs, true => member cs
    | _, _ => throw .malformed

def items (c : Config) (first : Bool) : List Field → List Char → Except Fault (Config × List Char)
  | [], cs =>
    match space cs with
    | ']' :: cs => .ok (c, cs)
    | [] => .error .ended
    | _ => .error .malformed
  | f :: fs, cs =>
    match space cs, first with
    | [], _ => .error .ended
    | ']' :: cs, _ => .ok (c, cs)
    | ',' :: cs, false =>
      match space cs with
      | [] => .error .ended
      | ']' :: _ => .error .malformed
      | cs => do
        let (c, cs) ← field c f cs
        items c false fs cs
    | cs, true => do
      let (c, cs) ← field c f cs
      items c false fs cs
    | _, false => .error .malformed

end Read

-- The text is read in one pass, so of several faults the first one counts. A field that is not given keeps its default,
-- and other members are passed over.
def parse (text : String) : Except Json.Fault Config := do
  let cs := text.toList
  let (c, rest) ← match Json.Scan.space cs with
    | [] => throw .ended
    | '{' :: cs => Read.members {} [] true (cs.length + 1) cs
    | '[' :: cs => Read.items {} true Field.all cs
    | cs => throw (Read.wrongType cs)
  if (Json.Scan.space rest).isEmpty then return c else throw .malformed

end Config

end MarkupEditor
