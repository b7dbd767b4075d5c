import MarkupEditor.Json.Scan

namespace MarkupEditor.Json

namespace Read

mutual

-- Every call spends one unit of fuel and at least one character, or hands on to a call that does, so twice the length
-- of the text and a little more is always enough.
def value : Nat → List Char → Except Fault (Json × List Char)
  | 0, _ => .error .ended
  | fuel + 1, cs =>
    match Scan.space cs with
    | [] => .error .ended
    | '{' :: cs => do
      let (members, cs) ← members fuel true cs
      return (.object members, cs)
    | '[' :: cs => do
      let (items, cs) ← items fuel true cs
      return (.array items, cs)
    | '"' :: cs => do
      let (text, cs) ← Scan.string cs
      return (.string (String.ofList text), cs)
    | 'n' :: cs => do
      let cs ← Scan.word "ull".toList cs
      return (.null, cs)
    | 't' :: cs => do
      let cs ← Scan.word "rue".toList cs
      return (.bool true, cs)
    | 'f' :: cs => do
      let cs ← Scan.word "alse".toList cs
      return (.bool false, cs)
    | c :: cs =>
      if c = '-' ∨ c.isDigit then do
        let (n, cs) ← Scan.number (c :: cs)
        return (.number n, cs)
      else .error .malformed

-- The items of an array up to its end; `first` before any item was read.
def items : Nat → Bool → List Char → Except Fault (List Json × List Char)
  | 0, _, _ => .error .ended
  | fuel + 1, first, cs =>
    match Scan.space cs, first with
    | [], _ => .error .ended
    | ']' :: cs, _ => .ok ([], cs)
    | ',' :: cs, false => do
      let (item, cs) ← value fuel cs
      let (more, cs) ← items fuel false cs
      return (item :: more, cs)
    | cs, true => do
      let (item, cs) ← value fuel cs
      let (more, cs) ← items fuel false cs
      return (item :: more, cs)
    | _, false => .error .malformed

def members : Nat → Bool → List Char → Except Fault (List (String × Json) × List Char)
  | 0, _, _ => .error .ended
  | fuel + 1, first, cs =>
    match Scan.space cs, first with
    | [], _ => .error .ended
    | '}' :: cs, _ => .ok ([], cs)
    | ',' :: cs, false => member fuel (Scan.space cs)
    | cs, true => member fuel cs
    | _, false => .error .malformed

def member : Nat → List Char → Except Fault (List (String × Json) × List Char)
  | fuel + 1, '"' :: cs => do
    let (name, cs) ← Scan.string cs
    match Scan.space cs with
    | ':' :: cs => do
      let (item, cs) ← value fuel cs
      let (more, cs) ← members fuel false cs
      return ((String.ofList name, item) :: more, cs)
    | [] => throw .ended
    | _ => throw .malformed
  | _, [] => .error .ended
  | _, _ => .error .malformed

end

end Read

def parse (text : String) : Except Fault Json := do
  let cs := text.toList
  let (value, rest) ← Read.value (2 * cs.length + 2) cs
  if (Scan.space rest).isEmpty then return value else throw .malformed

end MarkupEditor.Json
