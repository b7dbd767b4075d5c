import MarkupEditor.Config
import MarkupEditor.Text.Decimal

namespace MarkupEditor

inductive Request where
  | version
  -- Write a configuration; `force` overwrites one that is there.
  | init (saveDebounceMs : Nat) (classAttribute : String) (force : Bool)
  | outline (file : String) (json : Bool)
  | tag (file : String) (mark : Option String)
  deriving DecidableEq, Repr

namespace Arguments

structure Switch where
  long : String
  short : Option Char := none
  takesValue : Bool := false

structure Given where
  options : List (String × String) := []
  others : List String := []

def Given.add (g : Given) (name value : String) : Option Given :=
  if g.options.any (·.1 == name) then none else some { g with options := g.options ++ [(name, value)] }

def Given.option? (g : Given) (name : String) : Option String := (g.options.find? (·.1 == name)).map Prod.snd

def Given.has (g : Given) (name : String) : Bool := (g.option? name).isSome

-- An argument that reads as an option, or as the end of options.
def isDashed (arg : String) : Bool :=
  match arg.toList with
  | '-' :: _ :: _ => true
  | _ => false

def splitEquals (cs : List Char) : String × Option String :=
  match cs.dropWhile (· ≠ '=') with
  | _ :: value => (String.ofList (cs.takeWhile (· ≠ '=')), some (String.ofList value))
  | [] => (String.ofList cs, none)

-- A cluster of one-letter options; the one that takes a value takes the rest of the cluster. Returns the one
-- that still needs a value.
def cluster (switches : List Switch) (g : Given) : List Char → Option (Given × Option String)
  | [] => some (g, none)
  | c :: rest =>
    match switches.find? (·.short == some c) with
    | none => none
    | some s =>
      if s.takesValue then
        match rest with
        | [] => some (g, some s.long)
        | '=' :: value => (g.add s.long (String.ofList value)).map (·, none)
        | value => (g.add s.long (String.ofList value)).map (·, none)
      else
        match g.add s.long "" with
        | some g => cluster switches g rest
        | none => none

def long (switches : List Switch) (g : Given) (cs : List Char) : Option (Given × Option String) :=
  let (name, value) := splitEquals cs
  match switches.find? (·.long == name) with
  | none => none
  | some s =>
    match s.takesValue, value with
    | true, some v => (g.add name v).map (·, none)
    | true, none => some (g, some name)
    | false, none => (g.add name "").map (·, none)
    | false, some _ => none

-- Reads arguments; `waiting` is the option that the next one belongs to.
def read (switches : List Switch) (g : Given) (waiting : Option String) : List String → Option Given
  | [] => if waiting.isNone then some g else none
  | arg :: rest =>
    match waiting with
    | some name =>
      if isDashed arg then none
      else
        match g.add name arg with
        | some g => read switches g none rest
        | none => none
    | none =>
      if arg = "--" then some { g with others := g.others ++ rest }
      else
        let next := match arg.toList with
          | '-' :: '-' :: cs => long switches g cs
          | '-' :: c :: cs => cluster switches g (c :: cs)
          | _ => some ({ g with others := g.others ++ [arg] }, none)
        match next with
        | some (g, waiting) => read switches g waiting rest
        | none => none

def initSwitches : List Switch :=
  [{ long := "save-debounce-ms", takesValue := true }, { long := "class-attribute", takesValue := true },
    { long := "force", short := some 'f' }]

def outlineSwitches : List Switch := [{ long := "json" }]

def tagSwitches : List Switch := [{ long := "attribute", short := some 'a', takesValue := true }]

def file? (g : Given) : Option String :=
  match g.others with
  | [file] => if file.isEmpty then none else some file
  | _ => none

-- The version is asked for in front of a command. Nothing that follows counts, also not in the same cluster.
def asksVersion (arg : String) : Bool := arg == "--version" || "-V".toList.isPrefixOf arg.toList

end Arguments

open Arguments in
def Request.ofArguments? : List String → Option Request
  | "init" :: args => do
    let g ← read initSwitches {} none args
    let debounce ← match g.option? "save-debounce-ms" with
      | some text => Text.natUpTo? Text.largest64 text.toList
      | none => some ({} : Config).saveDebounceMs
    if g.others.isEmpty then
      return .init debounce ((g.option? "class-attribute").getD ({} : Config).classAttribute) (g.has "force")
    else none
  | "outline" :: args => do
    let g ← read outlineSwitches {} none args
    return .outline (← file? g) (g.has "json")
  | "tag" :: args => do
    let g ← read tagSwitches {} none args
    return .tag (← file? g) (g.option? "attribute")
  | arg :: _ => if asksVersion arg then some .version else none
  | [] => none

end MarkupEditor
