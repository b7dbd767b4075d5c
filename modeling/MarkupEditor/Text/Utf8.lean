namespace MarkupEditor.Text

def encodeChar (c : Char) : List UInt8 :=
  let n := c.toNat
  let tail (unit : Nat) : UInt8 := (0x80 + n / unit % 0x40).toUInt8
  if n < 0x80 then [n.toUInt8]
  else if n < 0x800 then [(0xc0 + n / 0x40).toUInt8, tail 0x1]
  else if n < 0x10000 then [(0xe0 + n / 0x1000).toUInt8, tail 0x40, tail 0x1]
  else [(0xf0 + n / 0x40000).toUInt8, tail 0x1000, tail 0x40, tail 0x1]

def encode (s : String) : List UInt8 := s.toList.flatMap encodeChar

-- The bytes that complete a character: `count` more of them, the next one between `low` and `high`.
def continued (value : Nat) (low high : UInt8) : Nat → List UInt8 → Option Char × List UInt8
  | 0, rest => (some (Char.ofNat value), rest)
  | count + 1, b :: rest =>
    if low ≤ b ∧ b ≤ high then continued (value * 64 + (b.toNat - 0x80)) 0x80 0xbf count rest else (none, b :: rest)
  | _ + 1, [] => (none, [])

-- The character that starts with a byte, or `none` for a malformed piece, and the bytes after it.
def decodeNext (b : UInt8) (rest : List UInt8) : Option Char × List UInt8 :=
  let n := b.toNat
  if n < 0x80 then (some (Char.ofNat n), rest)
  else if 0xc2 ≤ n ∧ n ≤ 0xdf then continued (n - 0xc0) 0x80 0xbf 1 rest
  else if n = 0xe0 then continued 0 0xa0 0xbf 2 rest
  else if n = 0xed then continued 0xd 0x80 0x9f 2 rest
  else if 0xe1 ≤ n ∧ n ≤ 0xef then continued (n - 0xe0) 0x80 0xbf 2 rest
  else if n = 0xf0 then continued 0 0x90 0xbf 3 rest
  else if 0xf1 ≤ n ∧ n ≤ 0xf3 then continued (n - 0xf0) 0x80 0xbf 3 rest
  else if n = 0xf4 then continued 4 0x80 0x8f 3 rest
  else (none, rest)

theorem continued_within (value : Nat) (low high : UInt8) (count : Nat) (rest : List UInt8) :
    (continued value low high count rest).2.length ≤ rest.length := by
  fun_induction continued value low high count rest with
  | case1 => exact Nat.le_refl _
  | case2 _ _ _ _ b rest _ ih => exact Nat.le_trans ih (Nat.le_succ _)
  | case3 => exact Nat.le_refl _
  | case4 => exact Nat.le_refl _

theorem decodeNext_within (b : UInt8) (rest : List UInt8) : (decodeNext b rest).2.length ≤ rest.length := by
  simp only [decodeNext]
  repeat' split
  all_goals simp [continued_within]

def pieces (bytes : List UInt8) : List (Option Char) :=
  match bytes with
  | [] => []
  | b :: rest => (decodeNext b rest).1 :: pieces (decodeNext b rest).2
termination_by bytes.length
decreasing_by exact Nat.lt_succ_of_le (decodeNext_within b rest)

def decode? (bytes : List UInt8) : Option String := ((pieces bytes).mapM id).map String.ofList

-- The text with U+FFFD for each malformed piece.
def decodeLossy (bytes : List UInt8) : String := String.ofList ((pieces bytes).map (·.getD '\ufffd'))

end MarkupEditor.Text
