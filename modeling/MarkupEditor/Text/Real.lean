import MarkupEditor.Text.Decimal

namespace MarkupEditor.Text

-- A finite positive double as a fraction, with the ends of the interval that rounds to it; all four share
-- the denominator.
structure Neighbourhood where
  value : Nat
  low : Nat
  high : Nat
  denominator : Nat
  closed : Bool

def neighbourhood (x : Float) : Neighbourhood :=
  let bits := x.toBits.toNat % 9223372036854775808
  let mantissa := bits % 4503599627370496
  let exponent := bits / 4503599627370496
  let m := if exponent = 0 then mantissa else mantissa + 4503599627370496
  -- The value is m · 2^(q - 1077), with q at least 2.
  let q := if exponent = 0 then 3 else exponent + 2
  let below := if mantissa = 0 ∧ 1 < exponent then 1 else 2
  let unit := Nat.pow 2 (q - 2)
  ⟨4 * m * unit, (4 * m - below) * unit, (4 * m + 2) * unit, Nat.pow 2 1077, m % 2 = 0⟩

def Neighbourhood.holds (n : Neighbourhood) (numerator denominator : Nat) : Bool :=
  let scaled := numerator * n.denominator
  let low := n.low * denominator
  let high := n.high * denominator
  if n.closed then low ≤ scaled && scaled ≤ high else low < scaled && scaled < high

-- The decimal place of the first digit: the largest e with 10^e at most the value.
def leadingPlace (value denominator : Nat) : Int :=
  if denominator ≤ value then ((digits (value / denominator)).length : Int) - 1
  else
    let inverse := (denominator + value - 1) / value
    let length := (digits inverse).length
    let places : Nat := if inverse = Nat.pow 10 (length - 1) then length - 1 else length
    Int.neg places

-- The shortest digits d and the place p with d · 10^p in the neighbourhood, from `count` digits on.
def shortestFrom (n : Neighbourhood) (lead : Int) (count : Nat) : Nat → Nat × Int
  | 0 => (0, 0)
  | fuel + 1 =>
    let place := lead - count + 1
    let up := Nat.pow 10 place.toNat
    let down := Nat.pow 10 (-place).toNat
    -- The value in units of 10^place.
    let scaled := n.value * down
    let unit := n.denominator * up
    let floor := scaled / unit
    let lowOk := n.holds (floor * up) down
    let highOk := n.holds ((floor + 1) * up) down
    let remainder := scaled % unit
    if lowOk && (!highOk || 2 * remainder < unit) then (floor, place)
    else if highOk then (floor + 1, place)
    else shortestFrom n lead (count + 1) fuel

-- d · 10^place without an exponent.
def positional (d : Nat) (place : Int) : String :=
  let ds := digits d
  if 0 ≤ place then String.ofList (ds ++ List.replicate place.toNat '0')
  else
    let n := (-place).toNat
    let padded := List.replicate (n + 1 - ds.length) '0' ++ ds
    let whole := padded.take (padded.length - n)
    let fraction := (padded.drop (padded.length - n)).reverse.dropWhile (· == '0') |>.reverse
    String.ofList (if fraction.isEmpty then whole else whole ++ '.' :: fraction)

-- The nearest of the shortest decimals that read back as the double, and the larger of two that are equally near. Only
-- the two decimals next to the double can lie in its neighbourhood.
def shortest (x : Float) : String :=
  if x.isNaN then "NaN"
  else
    let sign := if x.toBits.toNat < 9223372036854775808 then "" else "-"
    if x.isInf then sign ++ "inf"
    else
      let n := neighbourhood x
      if n.value = 0 then sign ++ "0"
      else
        let (d, place) := shortestFrom n (leadingPlace n.value n.denominator) 1 20
        sign ++ positional d place

def nearest (negative : Bool) (m : Nat) (e : Int) : Float :=
  let size : Int := (digits m).length + e
  let x : Float :=
    if m = 0 ∨ size < -400 then 0
    else if 400 < size then 1 / 0
    else if 0 ≤ e then Float.ofScientific m false e.toNat
    else Float.ofScientific m true (-e).toNat
  if negative then -x else x

-- Reads a decimal with optional sign, point and exponent, or the name of an infinity or of no number.
def real? (s : String) : Option Float :=
  let (negative, cs) := match s.toList with
    | '-' :: cs => (true, cs)
    | '+' :: cs => (false, cs)
    | cs => (false, cs)
  let lower := String.ofList (cs.map Char.toLower)
  if lower = "inf" ∨ lower = "infinity" then some (if negative then -(1 / 0) else 1 / 0)
  else if lower = "nan" then some (0 / 0)
  else
    let whole := cs.takeWhile Char.isDigit
    let rest := cs.dropWhile Char.isDigit
    let (fraction, rest) := match rest with
      | '.' :: rest => (rest.takeWhile Char.isDigit, rest.dropWhile Char.isDigit)
      | rest => ([], rest)
    let finish (e : Int) : Option Float := some (nearest negative (ofDigits (whole ++ fraction)) (e - fraction.length))
    if whole.isEmpty ∧ fraction.isEmpty then none
    else
      match rest with
      | [] => finish 0
      | c :: rest =>
        if c = 'e' ∨ c = 'E' then
          let (down, ds) := match rest with
            | '-' :: ds => (true, ds)
            | '+' :: ds => (false, ds)
            | ds => (false, ds)
          if ds.isEmpty ∨ ds.any (!·.isDigit) then none
          else finish (if down then -(ofDigits ds : Int) else ofDigits ds)
        else none

end MarkupEditor.Text
