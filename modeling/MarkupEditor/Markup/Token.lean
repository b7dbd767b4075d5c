namespace MarkupEditor

-- A token at the start of a text: its kind (`none` if it fits none), its characters, and the rest.
structure Lexeme (κ : Type) where
  kind : Option κ
  text : List Char
  rest : List Char
  deriving Repr

-- What a scan found: skipped text, then a token.
structure Token (κ : Type) extends Lexeme κ where
  skipped : List Char
  deriving Repr

namespace Token

variable {κ : Type}

def ahead (t : Token κ) : List Char := t.text ++ t.rest

def through (t : Token κ) : List Char := t.skipped ++ t.text

def whole (t : Token κ) : List Char := t.skipped ++ t.ahead

theorem through_append_rest (t : Token κ) : t.through ++ t.rest = t.whole := by
  simp [through, whole, ahead]

end Token

def isLayout (c : Char) : Bool := c == ' ' || c == '\t' || c == '\n' || c == '\r' || c == '\x0c'

def isNameStart (c : Char) : Bool := c.isAlpha || c == '_' || c == '$'

def takeRun (p : Char → Bool) (cs : List Char) : List Char × List Char := (cs.takeWhile p, cs.dropWhile p)

theorem takeRun_append (p : Char → Bool) (cs : List Char) : (takeRun p cs).1 ++ (takeRun p cs).2 = cs :=
  List.takeWhile_append_dropWhile

theorem takeRun_all {p : Char → Bool} {cs run rest : List Char} (read : takeRun p cs = (run, rest)) : ∀ c ∈ run, p c = true := by
  obtain ⟨rfl, _⟩ := Prod.mk.inj read
  exact List.all_eq_true.mp List.all_takeWhile

theorem takeRun_over {p : Char → Bool} {cs run rest : List Char} (read : takeRun p cs = (run, rest)) : ∀ c ∈ rest.head?, p c = false := by
  obtain ⟨_, rfl⟩ := Prod.mk.inj read
  intro c head
  have stops := List.head?_dropWhile_not p cs
  rw [head] at stops
  exact stops

theorem takeRun_more {p : Char → Bool} {run : List Char} (all : ∀ c ∈ run, p c) (rest : List Char) :
    takeRun p (run ++ rest) = (run ++ (takeRun p rest).1, (takeRun p rest).2) := by
  simp only [takeRun, List.takeWhile_append_of_pos all, List.dropWhile_append_of_pos all]

theorem takeRun_exact {p : Char → Bool} {run rest : List Char} (all : ∀ c ∈ run, p c) (stops : ∀ c ∈ rest.head?, p c = false) :
    takeRun p (run ++ rest) = (run, rest) := by
  have nothing : takeRun p rest = ([], rest) := by
    cases rest with
    | nil => rfl
    | cons c rest => simp [takeRun, stops c rfl]
  rw [takeRun_more all, nothing, List.append_nil]

end MarkupEditor
