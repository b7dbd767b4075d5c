import MarkupEditor.Json.Scan

namespace MarkupEditor.Json

namespace Skip

mutual

-- The value has to be well formed, but its numbers may have any size and its escapes need not name characters. Fuel is
-- spent as in reading.
def value : Nat → List Char → Except Fault (List Char)
  | 0, _ => .error .ended
  | fuel + 1, cs =>
    match Scan.space cs with
    | [] => .error .ended
    | '[' :: cs => items fuel true cs
    | '{' :: cs => members fuel true cs
    | '"' :: cs => Scan.skipString cs
    | 'n' :: cs => Scan.word "ull".toList cs
    | 't' :: cs => Scan.word "rue".toList cs
    | 'f' :: cs => Scan.word "alse".toList cs
    | c :: cs => if c = '-' ∨ c.isDigit then Scan.skipNumber (c :: cs) else .error .malformed

def items : Nat → Bool → List Char → Except Fault (List Char)
  | 0, _, _ => .error .ended
  | fuel + 1, first, cs =>
    match Scan.space cs, first with
    | [], _ => .error .ended
    | ']' :: cs, _ => .ok cs
    | ',' :: cs, false => do items fuel false (← value fuel cs)
    | cs, true => do items fuel false (← value fuel cs)
    | _, false => .error .malformed

def members : Nat → Bool → List Char → Except Fault (List Char)
  | 0, _, _ => .error .ended
  | fuel + 1, first, cs =>
    match Scan.space cs, first with
    | [], _ => .error .ended
    | '}' :: cs, _ => .ok cs
    | ',' :: cs, false => member fuel (Scan.space cs)
    | cs, true => member fuel cs
    | _, false => .error .malformed

def member : Nat → List Char → Except Fault (List Char)
  | fuel + 1, '"' :: cs => do
    match Scan.space (← Scan.skipString cs) with
    | ':' :: cs => members fuel false (← value fuel cs)
    | [] => throw .ended
    | _ => throw .malformed
  | _, [] => .error .ended
  | _, _ => .error .malformed

end

end Skip

def skip (cs : List Char) : Except Fault (List Char) := Skip.value (2 * cs.length + 2) cs

end MarkupEditor.Json
