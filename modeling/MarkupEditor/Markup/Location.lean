namespace MarkupEditor

def byteSize (cs : List Char) : Nat := cs.foldr (fun c n => c.utf8Size + n) 0

@[simp] theorem byteSize_nil : byteSize [] = 0 := rfl

@[simp] theorem byteSize_cons (c : Char) (cs : List Char) : byteSize (c :: cs) = c.utf8Size + byteSize cs := rfl

@[simp] theorem byteSize_append (a b : List Char) : byteSize (a ++ b) = byteSize a + byteSize b := by
  induction a with
  | nil => simp
  | cons c cs ih => simp [ih, Nat.add_assoc]

theorem byteSize_pos {cs : List Char} (nonempty : cs ≠ []) : 0 < byteSize cs := by
  obtain ⟨c, rest, rfl⟩ := List.exists_cons_of_ne_nil nonempty
  exact Nat.lt_of_lt_of_le (Char.utf8Size_pos c) (Nat.le_add_right _ _)

-- The offset counts bytes of the UTF-8 form, lines count from one, and columns count characters from zero.
structure Position where
  offset : Nat
  line : Nat
  column : Nat
  deriving DecidableEq, Repr, Inhabited

namespace Position

def origin : Position := ⟨0, 1, 0⟩

def step (p : Position) (c : Char) : Position :=
  if c = '\n' then ⟨p.offset + c.utf8Size, p.line + 1, 0⟩ else ⟨p.offset + c.utf8Size, p.line, p.column + 1⟩

def after (p : Position) (cs : List Char) : Position := cs.foldl step p

@[simp] theorem after_nil (p : Position) : p.after [] = p := rfl

@[simp] theorem after_cons (p : Position) (c : Char) (cs : List Char) : p.after (c :: cs) = (p.step c).after cs := rfl

theorem after_append (p : Position) (a b : List Char) : p.after (a ++ b) = (p.after a).after b := by
  simp [after, List.foldl_append]

theorem step_offset (p : Position) (c : Char) : (p.step c).offset = p.offset + c.utf8Size := by
  unfold step; split <;> rfl

theorem after_offset (p : Position) (cs : List Char) : (p.after cs).offset = p.offset + byteSize cs := by
  induction cs generalizing p with
  | nil => simp
  | cons c cs ih => simp [ih, step_offset, Nat.add_assoc]

end Position

structure Location where
  start : Position
  stop : Position
  deriving DecidableEq, Repr, Inhabited

end MarkupEditor
