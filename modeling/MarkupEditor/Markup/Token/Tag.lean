import MarkupEditor.Markup.Token

namespace MarkupEditor

inductive TagKind where
  | name
  | eq
  | stringLit
  | lbrace
  | slash
  | gt
  deriving DecidableEq, Repr, Inhabited

namespace Tag

def isNameRest (c : Char) : Bool := isNameStart c || c.isDigit || c == '.' || c == ':' || c == '-'

-- A string opened by `mark`: up to the next `mark`, or to the end of the text and of no kind.
def quoted (mark : Char) (cs : List Char) : Lexeme TagKind :=
  match takeRun (· ≠ mark) cs with
  | (body, c :: rest) => ⟨some .stringLit, mark :: body ++ [c], rest⟩
  | (body, []) => ⟨none, mark :: body, []⟩

def ofChar? : Char → Option TagKind
  | '=' => some .eq
  | '{' => some .lbrace
  | '/' => some .slash
  | '>' => some .gt
  | _ => none

def lexeme (c : Char) (cs : List Char) : Lexeme TagKind :=
  if isNameStart c then let (more, rest) := takeRun isNameRest cs; ⟨some .name, c :: more, rest⟩
  else if c = '"' ∨ c = '\'' then quoted c cs
  else
    ⟨ofChar? c, [c], cs⟩

theorem lexeme_append (c : Char) (cs : List Char) : (lexeme c cs).text ++ (lexeme c cs).rest = c :: cs := by
  unfold lexeme
  split
  · simp [takeRun_append]
  split
  · have := takeRun_append (fun d => decide (d ≠ c)) cs
    unfold quoted
    split <;> simp_all
  · rfl

theorem lexeme_ne_nil (c : Char) (cs : List Char) : (lexeme c cs).text ≠ [] := by
  unfold lexeme
  split
  · simp
  split
  · unfold quoted
    split <;> simp
  · simp

def next (cs : List Char) : Option (Token TagKind) :=
  match takeRun isLayout cs with
  | (_, []) => none
  | (skipped, c :: cs) => some ⟨lexeme c cs, skipped⟩

theorem next_whole {cs : List Char} {t : Token TagKind} (h : next cs = some t) : t.whole = cs := by
  have skipped := takeRun_append isLayout cs
  unfold next at h
  split at h
  · simp at h
  · rename_i before c rest eq
    have := lexeme_append c rest
    simp only [Option.some.injEq] at h
    subst h
    simp_all [Token.whole, Token.ahead]

theorem next_text_ne_nil {cs : List Char} {t : Token TagKind} (h : next cs = some t) : t.text ≠ [] := by
  unfold next at h
  split at h
  · simp at h
  · simp only [Option.some.injEq] at h
    subst h
    exact lexeme_ne_nil _ _

theorem next_shorter {cs : List Char} {t : Token TagKind} (h : next cs = some t) : t.rest.length < cs.length := by
  have whole := congrArg List.length (next_whole h)
  have text_pos := List.length_pos_iff.mpr (next_text_ne_nil h)
  simp only [Token.whole, Token.ahead, List.length_append] at whole
  omega

def tokens (cs : List Char) : List (Token TagKind) :=
  match _found : next cs with
  | none => []
  | some t => t :: tokens t.rest
termination_by cs.length
decreasing_by exact next_shorter _found

end Tag

end MarkupEditor
