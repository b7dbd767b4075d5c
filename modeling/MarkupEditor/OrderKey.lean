import MarkupEditor.Text.Utf8

namespace MarkupEditor.OrderKey

-- The key of an entry that has none: the middle of all keys.
def default : String := "V"

-- A key is a fraction in base 62 with the digits in the order of their bytes, so comparing keys as texts compares the
-- fractions. Keys that are made do not end in `0`, which leaves room for another one between any two of them.
def base : Nat := 62

def digitValue (b : UInt8) : Nat :=
  let n := b.toNat
  if 48 ≤ n ∧ n ≤ 57 then n - 48
  else if 65 ≤ n ∧ n ≤ 90 then n - 65 + 10
  else if 97 ≤ n ∧ n ≤ 122 then n - 97 + 36
  else 0

def digit (n : Nat) : UInt8 :=
  if n < 10 then (48 + n).toUInt8 else if n < 36 then (65 + (n - 10)).toUInt8 else (97 + (n - 36)).toUInt8

def above : List UInt8 → List UInt8
  | [] => [digit ((base + 1) / 2)]
  | b :: rest =>
    let low := digitValue b
    if low + 1 < base then [digit ((low + base + 1) / 2)] else digit low :: above rest

-- A key after `lower` and before `upper`. Missing digits of `lower` count as zeros. Where the digits are
-- neighbours the first digit of a longer `upper` is itself in between.
def inside (lower : List UInt8) : List UInt8 → List UInt8
  | [] => above lower
  | u :: us =>
    if lower.headD 48 = u then u :: inside lower.tail us
    else
      let low := (lower.head?.map digitValue).getD 0
      let high := digitValue u
      if low + 1 < high then [digit ((low + high + 1) / 2)]
      else if us.isEmpty then digit low :: above lower.tail
      else [u]

-- A key strictly between the bounds; an upper bound that is not above the lower one is ignored.
def between (lower upper : Option String) : String :=
  let lower := lower.getD ""
  let key := match upper with
    | some upper => if lower < upper then inside (Text.encode lower) (Text.encode upper) else above (Text.encode lower)
    | none => above (Text.encode lower)
  (Text.decode? key).getD default

def ascending (lower : Option String) : Nat → List String
  | 0 => []
  | n + 1 => let key := between lower none; key :: ascending (some key) n

-- Each key before the one after it, the last one first.
def descending (upper : Option String) : Nat → List String
  | 0 => []
  | n + 1 => let key := between none upper; key :: descending (some key) n

-- So many ascending keys between the bounds. Between two bounds they are split around a middle key, which
-- keeps them short.
def batch (lower upper : Option String) (n : Nat) : List String :=
  if n = 0 then []
  else if n = 1 then [between lower upper]
  else
    match lower, upper with
    | lower, none => ascending lower n
    | none, upper => (descending upper n).reverse
    | some lower, some upper =>
      let middle := between (some lower) (some upper)
      batch (some lower) (some middle) (n / 2) ++ middle :: batch (some middle) (some upper) (n - n / 2 - 1)
termination_by n
decreasing_by all_goals omega

end MarkupEditor.OrderKey
