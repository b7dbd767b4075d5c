import MarkupEditor.Markup.Token

namespace MarkupEditor

inductive CodeKind where
  | ident
  | stringLit
  | template
  | number
  | lbrace
  | rbrace
  | lparen
  | rparen
  | lbracket
  | rbracket
  | semi
  | lt
  | gt
  | dot
  | punct
  deriving DecidableEq, Repr, Inhabited

namespace CodeKind

def opens : CodeKind → Bool
  | lbrace | lparen | lbracket => true
  | _ => false

def closes : CodeKind → Bool
  | rbrace | rparen | rbracket => true
  | _ => false

def ofChar? : Char → Option CodeKind
  | '{' => some lbrace
  | '}' => some rbrace
  | '(' => some lparen
  | ')' => some rparen
  | '[' => some lbracket
  | ']' => some rbracket
  | ';' => some semi
  | '<' => some lt
  | '>' => some gt
  | '.' => some dot
  | c => if "-+*/%=!&|^~?:,@#".toList.contains c then some punct else none

end CodeKind

namespace Code

-- The inside of a block comment, in units of one character other than `*`, or of `*` with the character after
-- it unless that is `/`.
def commentBody : List Char → List Char × List Char
  | [] => ([], [])
  | '*' :: [] => ([], ['*'])
  | '*' :: c :: cs =>
    if c = '/' then ([], '*' :: c :: cs)
    else let (body, rest) := commentBody cs; ('*' :: c :: body, rest)
  | c :: cs => let (body, rest) := commentBody cs; (c :: body, rest)

-- The inside of a quoted text, in units of one character other than the mark and `\`, or of `\` with the
-- character after it unless that is a line feed. Only a template may span lines.
def quotedBody (mark : Char) : List Char → List Char × List Char
  | [] => ([], [])
  | '\\' :: [] => ([], ['\\'])
  | '\\' :: c :: cs =>
    if c = '\n' then ([], '\\' :: c :: cs)
    else let (body, rest) := quotedBody mark cs; ('\\' :: c :: body, rest)
  | c :: cs =>
    if c = mark ∨ (c = '\n' ∧ mark ≠ '\x60') then ([], c :: cs)
    else let (body, rest) := quotedBody mark cs; (c :: body, rest)

theorem commentBody_append (cs : List Char) : (commentBody cs).1 ++ (commentBody cs).2 = cs := by
  fun_induction commentBody cs <;> simp_all

theorem quotedBody_append (mark : Char) (cs : List Char) : (quotedBody mark cs).1 ++ (quotedBody mark cs).2 = cs := by
  fun_induction quotedBody mark cs <;> simp_all

-- The layout character or the comment that the text starts with, and what follows it.
def trivia? : List Char → Option (List Char × List Char)
  | '/' :: '/' :: cs => let (line, rest) := takeRun (· ≠ '\n') cs; some ('/' :: '/' :: line, rest)
  | '/' :: '*' :: cs =>
    match commentBody cs with
    | (body, '*' :: '/' :: rest) => some ('/' :: '*' :: body ++ ['*', '/'], rest)
    | _ => none
  | c :: cs => if isLayout c then some ([c], cs) else none
  | [] => none

theorem trivia?_append {cs piece rest : List Char} (h : trivia? cs = some (piece, rest)) : piece ++ rest = cs := by
  unfold trivia? at h
  split at h
  · have := takeRun_append (fun c => decide (c ≠ '\n')) ‹List Char›
    grind
  · have := commentBody_append ‹List Char›
    split at h <;> grind
  · split at h <;> grind
  · simp at h

theorem trivia?_ne_nil {cs piece rest : List Char} (h : trivia? cs = some (piece, rest)) : piece ≠ [] := by
  unfold trivia? at h
  split at h <;> (try split at h) <;> grind

theorem trivia?_shorter {cs piece rest : List Char} (h : trivia? cs = some (piece, rest)) :
    rest.length < cs.length := by
  have whole := congrArg List.length (trivia?_append h)
  have piece_pos := List.length_pos_iff.mpr (trivia?_ne_nil h)
  simp only [List.length_append] at whole
  omega

def skip (cs : List Char) : List Char × List Char :=
  match _found : trivia? cs with
  | some (piece, rest) => let (more, rest) := skip rest; (piece ++ more, rest)
  | none => ([], cs)
termination_by cs.length
decreasing_by exact trivia?_shorter _found

theorem skip_append (cs : List Char) : (skip cs).1 ++ (skip cs).2 = cs := by
  fun_induction skip cs with
  | case1 cs piece rest h more rest' eq ih =>
    have := trivia?_append h
    simp_all
  | case2 => rfl

theorem skip_none {cs : List Char} (nothing : trivia? cs = none) : skip cs = ([], cs) := by
  rw [skip]
  split
  · simp_all
  · rfl

theorem skip_some {cs piece rest : List Char} (found : trivia? cs = some (piece, rest)) :
    skip cs = (piece ++ (skip rest).1, (skip rest).2) := by
  rw [skip]
  split
  · rename_i piece' rest' again
    cases found.symm.trans again
    rfl
  · simp_all

def quoted (kind : CodeKind) (mark : Char) (cs : List Char) : Lexeme CodeKind :=
  match quotedBody mark cs with
  | (body, c :: rest) => if c = mark then ⟨some kind, mark :: body ++ [c], rest⟩ else ⟨none, mark :: body, c :: rest⟩
  | (body, []) => ⟨none, mark :: body, []⟩

-- The token that starts with `c`, where no trivia starts.
def lexeme (c : Char) (cs : List Char) : Lexeme CodeKind :=
  if isNameStart c then
    let (more, rest) := takeRun (fun c => isNameStart c || c.isDigit) cs
    ⟨some .ident, c :: more, rest⟩
  else if c.isDigit then
    let (more, rest) := takeRun (fun c => c.isAlphanum || c == '_' || c == '.') cs
    ⟨some .number, c :: more, rest⟩
  else if c = '"' ∨ c = '\'' then quoted .stringLit c cs
  else if c = '\x60' then quoted .template c cs
  else
    match c, cs with
    | '/', '*' :: inside => let (body, rest) := commentBody inside; ⟨none, '/' :: '*' :: body, rest⟩
    | c, cs => ⟨CodeKind.ofChar? c, [c], cs⟩

theorem quoted_append (kind : CodeKind) (mark : Char) (cs : List Char) :
    (quoted kind mark cs).text ++ (quoted kind mark cs).rest = mark :: cs := by
  have := quotedBody_append mark cs
  unfold quoted
  split <;> (try split) <;> simp_all

theorem quoted_ne_nil (kind : CodeKind) (mark : Char) (cs : List Char) : (quoted kind mark cs).text ≠ [] := by
  unfold quoted
  split <;> (try split) <;> simp

theorem lexeme_append (c : Char) (cs : List Char) : (lexeme c cs).text ++ (lexeme c cs).rest = c :: cs := by
  unfold lexeme
  split
  · simp [takeRun_append]
  split
  · simp [takeRun_append]
  split
  · exact quoted_append ..
  split
  · exact quoted_append ..
  split
  · simp [commentBody_append]
  · rfl

theorem lexeme_ne_nil (c : Char) (cs : List Char) : (lexeme c cs).text ≠ [] := by
  unfold lexeme
  split
  · simp
  split
  · simp
  split
  · exact quoted_ne_nil _ _ _
  split
  · exact quoted_ne_nil _ _ _
  split <;> simp

def next (cs : List Char) : Option (Token CodeKind) :=
  match skip cs with
  | (_, []) => none
  | (skipped, c :: cs) => some ⟨lexeme c cs, skipped⟩

theorem skip_trivia (cs : List Char) : trivia? (skip cs).2 = none := by
  fun_induction skip cs with
  | case1 cs piece rest h more rest' eq ih => simp_all
  | case2 cs h => exact h

theorem next_ahead {cs : List Char} {t : Token CodeKind} (h : next cs = some t) :
    next t.ahead = some { t with skipped := [] } := by
  have done := skip_trivia cs
  unfold next at h
  split at h
  · simp at h
  · rename_i before c rest eq
    simp only [Option.some.injEq] at h
    subst h
    have again : skip (c :: rest) = ([], c :: rest) := by
      rw [eq] at done
      rw [skip]
      split
      · simp_all
      · rfl
    simp only [Token.ahead, lexeme_append]
    simp [next, again]

theorem next_whole {cs : List Char} {t : Token CodeKind} (h : next cs = some t) : t.whole = cs := by
  have skipped := skip_append cs
  unfold next at h
  split at h
  · simp at h
  · rename_i before c rest eq
    have := lexeme_append c rest
    simp only [Option.some.injEq] at h
    subst h
    simp_all [Token.whole, Token.ahead]

theorem next_text_ne_nil {cs : List Char} {t : Token CodeKind} (h : next cs = some t) : t.text ≠ [] := by
  unfold next at h
  split at h
  · simp at h
  · simp only [Option.some.injEq] at h
    subst h
    exact lexeme_ne_nil _ _

theorem next_shorter {cs : List Char} {t : Token CodeKind} (h : next cs = some t) : t.rest.length < cs.length := by
  have whole := congrArg List.length (next_whole h)
  have text_pos := List.length_pos_iff.mpr (next_text_ne_nil h)
  simp only [Token.whole, Token.ahead, List.length_append] at whole
  omega

def tokens (cs : List Char) : List (Token CodeKind) :=
  match _found : next cs with
  | none => []
  | some t => t :: tokens t.rest
termination_by cs.length
decreasing_by exact next_shorter _found

end Code

end MarkupEditor
