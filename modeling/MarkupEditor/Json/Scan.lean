import MarkupEditor.Markup.Location
import MarkupEditor.Text.Decimal
import MarkupEditor.Json.Basic

namespace MarkupEditor.Json

inductive Fault where
  | malformed
  | mismatched
  | ended
  deriving DecidableEq, Repr

namespace Scan

def isSpace (c : Char) : Bool := c == ' ' || c == '\n' || c == '\t' || c == '\r'

def space (cs : List Char) : List Char := cs.dropWhile isSpace

def word : List Char → List Char → Except Fault (List Char)
  | [], cs => .ok cs
  | _ :: _, [] => .error .ended
  | w :: ws, c :: cs => if c = w then word ws cs else .error .malformed

def hexDigit? (c : Char) : Option Nat :=
  if c.isDigit then some (c.toNat - '0'.toNat)
  else if 'a' ≤ c ∧ c ≤ 'f' then some (c.toNat - 'a'.toNat + 10)
  else if 'A' ≤ c ∧ c ≤ 'F' then some (c.toNat - 'A'.toNat + 10)
  else none

-- Four hexadecimal digits. With fewer than four bytes left the text has ended.
def hexUnit : List Char → Except Fault (Nat × List Char)
  | a :: b :: c :: d :: cs =>
    match hexDigit? a, hexDigit? b, hexDigit? c, hexDigit? d with
    | some a, some b, some c, some d => .ok (((a * 16 + b) * 16 + c) * 16 + d, cs)
    | _, _, _, _ => .error .malformed
  | cs => .error (if byteSize cs < 4 then .ended else .malformed)

def lowSurrogate : List Char → Except Fault (Nat × List Char)
  | [] => .error .ended
  | '\\' :: [] => .error .ended
  | '\\' :: 'u' :: cs => do
    let (low, cs) ← hexUnit cs
    if 0xdc00 ≤ low ∧ low ≤ 0xdfff then return (low, cs) else throw .malformed
  | _ => .error .malformed

def joined (high low : Nat) : Char := Char.ofNat (0x10000 + (high - 0xd800) * 0x400 + (low - 0xdc00))

def escape : List Char → Except Fault (Char × List Char)
  | [] => .error .ended
  | 'u' :: cs => do
    let (unit, cs) ← hexUnit cs
    if 0xdc00 ≤ unit ∧ unit ≤ 0xdfff then throw .malformed
    else if 0xd800 ≤ unit ∧ unit ≤ 0xdbff then
      let (low, cs) ← lowSurrogate cs
      return (joined unit low, cs)
    else return (Char.ofNat unit, cs)
  | c :: cs =>
    match c with
    | '"' | '\\' | '/' => .ok (c, cs)
    | 'b' => .ok ('\x08', cs)
    | 'f' => .ok ('\x0c', cs)
    | 'n' => .ok ('\n', cs)
    | 'r' => .ok ('\r', cs)
    | 't' => .ok ('\t', cs)
    | _ => .error .malformed

theorem hexUnit_within {cs rest : List Char} {n : Nat} (h : hexUnit cs = .ok (n, rest)) : rest.length ≤ cs.length := by
  unfold hexUnit at h
  split at h
  · split at h
    · simp only [Except.ok.injEq, Prod.mk.injEq] at h
      obtain ⟨_, rfl⟩ := h
      simp only [List.length_cons]
      omega
    · cases h
  · cases h

theorem lowSurrogate_within {cs rest : List Char} {n : Nat} (h : lowSurrogate cs = .ok (n, rest)) :
    rest.length ≤ cs.length := by
  unfold lowSurrogate at h
  split at h
  · cases h
  · cases h
  · rename_i cs
    simp only [bind, Except.bind] at h
    cases unit : hexUnit cs with
    | error e => simp [unit] at h
    | ok r =>
      have := hexUnit_within unit
      simp only [unit] at h
      split at h
      · cases h
        simp only [List.length_cons]
        omega
      · cases h
  · cases h

theorem escape_within {cs rest : List Char} {c : Char} (h : escape cs = .ok (c, rest)) : rest.length ≤ cs.length := by
  unfold escape at h
  split at h
  · cases h
  · rename_i cs
    simp only [bind, Except.bind] at h
    cases unit : hexUnit cs with
    | error e => simp [unit] at h
    | ok r =>
      have := hexUnit_within unit
      simp only [unit] at h
      split at h
      · cases h
      · split at h
        · cases low : lowSurrogate r.2 with
          | error e => simp [low] at h
          | ok s =>
            have := lowSurrogate_within low
            simp only [low, pure, Except.pure, Except.ok.injEq, Prod.mk.injEq] at h
            obtain ⟨_, rfl⟩ := h
            simp only [List.length_cons]
            omega
        · simp only [pure, Except.pure, Except.ok.injEq, Prod.mk.injEq] at h
          obtain ⟨_, rfl⟩ := h
          simp only [List.length_cons]
          omega
  · split at h <;> cases h <;> simp

def string (cs : List Char) : Except Fault (List Char × List Char) :=
  match cs with
  | [] => .error .ended
  | c :: cs =>
    if c = '"' then .ok ([], cs)
    else if c = '\\' then
      match _found : escape cs with
      | .error e => .error e
      | .ok (d, rest) =>
        match string rest with
        | .error e => .error e
        | .ok (more, rest) => .ok (d :: more, rest)
    else if c.toNat < 0x20 then .error .malformed
    else
      match string cs with
      | .error e => .error e
      | .ok (more, rest) => .ok (c :: more, rest)
termination_by cs.length
decreasing_by
  · have := escape_within _found
    simp only [List.length_cons]
    omega
  · simp

-- The text after a string that is not looked at: its escapes need not name characters.
def skipString : List Char → Except Fault (List Char)
  | [] => .error .ended
  | '"' :: cs => .ok cs
  | '\\' :: [] => .error .ended
  | '\\' :: 'u' :: cs =>
    match cs with
    | a :: b :: c :: d :: rest =>
      if [a, b, c, d].all (hexDigit? · |>.isSome) then skipString rest else .error .malformed
    | _ => .error (if byteSize cs < 4 then .ended else .malformed)
  | '\\' :: c :: cs =>
    if ['"', '\\', '/', 'b', 'f', 'n', 'r', 't'].contains c then skipString cs else .error .malformed
  | c :: cs => if c.toNat < 0x20 then .error .malformed else skipString cs

structure Literal where
  negative : Bool
  whole : List Char
  fraction : Option (List Char)
  exponent : Option (Bool × List Char)

def digits (cs : List Char) : List Char × List Char := (cs.takeWhile Char.isDigit, cs.dropWhile Char.isDigit)

def someDigits (cs : List Char) : Except Fault (List Char × List Char) :=
  match digits cs with
  | ([], []) => .error .ended
  | ([], _) => .error .malformed
  | found => .ok found

def wholeDigits : List Char → Except Fault (List Char × List Char)
  | '0' :: c :: cs => if c.isDigit then .error .malformed else .ok (['0'], c :: cs)
  | cs => someDigits cs

def fraction : List Char → Except Fault (Option (List Char) × List Char)
  | '.' :: cs => do
    let (ds, cs) ← someDigits cs
    return (some ds, cs)
  | cs => .ok (none, cs)

def exponent : List Char → Except Fault (Option (Bool × List Char) × List Char)
  | c :: cs =>
    if c = 'e' ∨ c = 'E' then
      match cs with
      | '-' :: cs => do
        let (ds, cs) ← someDigits cs
        return (some (true, ds), cs)
      | '+' :: cs => do
        let (ds, cs) ← someDigits cs
        return (some (false, ds), cs)
      | cs => do
        let (ds, cs) ← someDigits cs
        return (some (false, ds), cs)
    else .ok (none, c :: cs)
  | [] => .ok (none, [])

def literal (cs : List Char) : Except Fault (Literal × List Char) := do
  let (negative, cs) := match cs with
    | '-' :: cs => (true, cs)
    | cs => (false, cs)
  let (whole, cs) ← wholeDigits cs
  let (fraction, cs) ← fraction cs
  let (exponent, cs) ← exponent cs
  return (⟨negative, whole, fraction, exponent⟩, cs)

def natOf (ds : List Char) : Nat := ds.foldl (fun n c => n * 10 + (c.toNat - '0'.toNat)) 0

-- The longest start of the digits whose value fits in 64 bits, as a value, and how many digits are left over.
def fitting (ds : List Char) : Nat × Nat :=
  let rec go (n : Nat) : List Char → Nat × Nat
    | [] => (n, 0)
    | c :: cs =>
      let m := n * 10 + (c.toNat - '0'.toNat)
      if m ≤ Text.largest64 then go m cs else (n, cs.length + 1)
  go 0 ds

-- The number is too large for a double: its leading digits times a power of ten overflow.
def Literal.overflows (l : Literal) : Bool :=
  let fractionDigits := l.fraction.getD []
  let (mantissa, dropped) := fitting (l.whole ++ fractionDigits)
  let shift : Int := match l.exponent with
    | some (true, ds) => -natOf ds
    | some (false, ds) => natOf ds
    | none => 0
  let scale : Int := dropped - fractionDigits.length + shift
  mantissa ≠ 0 && 0 < scale &&
    (308 < scale || (Float.ofNat mantissa * Float.ofScientific 1 false scale.toNat).isInf)

def Literal.number (l : Literal) : Number :=
  let fractionDigits := l.fraction.getD []
  let shift : Int := match l.exponent with
    | some (true, ds) => -natOf ds
    | some (false, ds) => natOf ds
    | none => 0
  let n := natOf l.whole
  let spelled := Number.real l.negative (natOf (l.whole ++ fractionDigits)) (shift - fractionDigits.length)
  if l.fraction.isSome ∨ l.exponent.isSome then spelled
  else if l.negative then (if 0 < n ∧ n ≤ 9223372036854775808 then .whole (-n) else spelled)
  else if n ≤ Text.largest64 then .whole n
  else spelled

def number (cs : List Char) : Except Fault (Number × List Char) := do
  let (l, cs) ← literal cs
  if l.overflows then throw .malformed else return (l.number, cs)

-- A number that is not looked at. One that breaks off counts as malformed.
def skipNumber (cs : List Char) : Except Fault (List Char) :=
  match literal cs with
  | .ok (_, cs) => .ok cs
  | .error _ => .error .malformed

end Scan

end MarkupEditor.Json
