namespace MarkupEditor.Text

-- The Unicode property White_Space.
def isBlank (c : Char) : Bool :=
  let n := c.toNat
  (0x9 ≤ n && n ≤ 0xd) || n == 0x20 || n == 0x85 || n == 0xa0 || n == 0x1680 ||
    (0x2000 ≤ n && n ≤ 0x200a) || n == 0x2028 || n == 0x2029 || n == 0x202f || n == 0x205f || n == 0x3000

def trimStart (cs : List Char) : List Char := cs.dropWhile isBlank

def trimEnd (cs : List Char) : List Char := (cs.reverse.dropWhile isBlank).reverse

def trim (cs : List Char) : List Char := trimEnd (trimStart cs)

-- The maximal runs of characters that are not blank, in order. What has been read of the first run is in reverse.
def wordsFrom (read : List Char) : List Char → List (List Char)
  | [] => if read.isEmpty then [] else [read.reverse]
  | c :: cs =>
    if isBlank c then (if read.isEmpty then wordsFrom [] cs else read.reverse :: wordsFrom [] cs)
    else wordsFrom (c :: read) cs

def words (cs : List Char) : List (List Char) := wordsFrom [] cs

theorem trimEnd_prefix (cs : List Char) : trimEnd cs <+: cs := by
  have suffix := List.reverse_prefix.mpr (List.dropWhile_suffix isBlank (l := cs.reverse))
  rwa [List.reverse_reverse] at suffix

theorem trimEnd_append_of_blank {cs blank : List Char} (all : ∀ c ∈ blank, isBlank c = true) : trimEnd (cs ++ blank) = trimEnd cs := by
  rw [trimEnd, List.reverse_append, List.dropWhile_append_of_pos fun c member => all c (List.mem_reverse.mp member), trimEnd]

theorem trimStart_append_takeWhile (cs : List Char) : cs.takeWhile isBlank ++ trimStart cs = cs :=
  List.takeWhile_append_dropWhile

end MarkupEditor.Text
