namespace MarkupEditor.Text

def digitChar (n : Nat) : Char := Char.ofNat ('0'.toNat + n)

def digitValue (c : Char) : Nat := c.toNat - '0'.toNat

def digits (n : Nat) : List Char := if n < 10 then [digitChar n] else digits (n / 10) ++ [digitChar (n % 10)]
termination_by n
decreasing_by omega

def decimal (n : Nat) : String := String.ofList (digits n)

def ofDigits (ds : List Char) : Nat := ds.foldl (fun n c => n * 10 + digitValue c) 0

-- The largest numbers of 64 and of 32 bits.
def largest64 : Nat := 18446744073709551615

def largest32 : Nat := 4294967295

-- An optional `+` and any number of digits.
def natUpTo? (bound : Nat) (cs : List Char) : Option Nat :=
  let ds := match cs with
    | '+' :: ds => ds
    | ds => ds
  if ds.isEmpty ∨ ds.any (!·.isDigit) then none
  else if ofDigits ds ≤ bound then some (ofDigits ds)
  else none

theorem digitChar_isDigit {n : Nat} (h : n < 10) : (digitChar n).isDigit = true := by
  have : n = 0 ∨ n = 1 ∨ n = 2 ∨ n = 3 ∨ n = 4 ∨ n = 5 ∨ n = 6 ∨ n = 7 ∨ n = 8 ∨ n = 9 := by omega
  rcases this with rfl | rfl | rfl | rfl | rfl | rfl | rfl | rfl | rfl | rfl <;> decide

theorem digitValue_digitChar {n : Nat} (h : n < 10) : digitValue (digitChar n) = n := by
  have : n = 0 ∨ n = 1 ∨ n = 2 ∨ n = 3 ∨ n = 4 ∨ n = 5 ∨ n = 6 ∨ n = 7 ∨ n = 8 ∨ n = 9 := by omega
  rcases this with rfl | rfl | rfl | rfl | rfl | rfl | rfl | rfl | rfl | rfl <;> decide

theorem ofDigits_digits (n : Nat) : ofDigits (digits n) = n := by
  induction n using Nat.strongRecOn with
  | ind n ih =>
    rw [digits]
    split
    · simp [ofDigits, digitValue_digitChar ‹n < 10›]
    · have step := ih (n / 10) (by omega)
      simp only [ofDigits] at step
      simp only [ofDigits, List.foldl_append, step, List.foldl_cons, List.foldl_nil]
      rw [digitValue_digitChar (by omega)]
      omega

theorem digits_isDigit (n : Nat) : ∀ c ∈ digits n, c.isDigit = true := by
  induction n using Nat.strongRecOn with
  | ind n ih =>
    intro c member
    rw [digits] at member
    split at member
    · simp only [List.mem_singleton] at member
      rw [member]
      exact digitChar_isDigit ‹_›
    · rcases List.mem_append.mp member with early | last
      · exact ih (n / 10) (by omega) c early
      · simp only [List.mem_singleton] at last
        rw [last]
        exact digitChar_isDigit (by omega)

theorem digits_ne_nil (n : Nat) : digits n ≠ [] := by
  rw [digits]
  split <;> simp

end MarkupEditor.Text
