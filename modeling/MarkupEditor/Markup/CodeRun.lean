import MarkupEditor.Text.Blank
import MarkupEditor.Markup.Token.Code

namespace MarkupEditor

-- What ends a stretch of code: a statement ends after a `;` outside brackets, or after a `}` that closes
-- its last bracket at the end of a line; a brace expression ends before the `}` that matches its brace.
inductive CodeEnd where
  | statement
  | brace
  deriving DecidableEq, Repr

inductive RunStop where
  | markup
  | finished
  | exhausted
  | stray
  deriving DecidableEq, Repr

-- The code that was run over, the bracket depth reached, why the run stopped, the token that stopped it
-- (empty when it belongs to the code, or when none is left), and the text after that.
structure CodeRun where
  text : List Char
  depth : Nat
  stop : RunStop
  mark : List Char
  rest : List Char

namespace CodeRun

def before (text : List Char) (r : CodeRun) : CodeRun := { r with text := text ++ r.text }

end CodeRun

namespace Code

def operandWords : List String :=
  ["return", "yield", "default", "await", "case", "in", "of", "typeof", "void", "else", "do", "throw"]

def allowsMarkup (t : Token CodeKind) : Bool :=
  match t.kind with
  | some .ident => operandWords.contains (String.ofList t.text)
  | some .semi | some .punct | some .gt | some .lt => true
  | some k => k.opens
  | none => false

-- A `<` opens markup only before a name or `>`, and only where an operand may stand.
def startsMarkup : List Char → Bool
  | c :: _ => isNameStart c || c == '>'
  | [] => false

-- Only blanks or a line comment follow on the line.
def endsLine (cs : List Char) : Bool :=
  match Text.trim (cs.takeWhile (· ≠ '\n')) with
  | [] => true
  | '/' :: '/' :: _ => true
  | _ => false

-- What a token means to a run: go on with some depth, or stop before or after the token.
inductive Verdict where
  | goOn (depth : Nat) (allowed : Bool)
  | stopBefore (stop : RunStop)
  | stopAfter

-- Brackets are counted and not told apart.
def judge (ending : CodeEnd) (depth : Nat) (allowed : Bool) (t : Token CodeKind) : Verdict :=
  match t.kind with
  | none => .goOn depth false
  | some k =>
    if k = .lt ∧ allowed ∧ startsMarkup t.rest then .stopBefore .markup
    else if k.opens then .goOn (depth + 1) true
    else if k.closes then
      match depth with
      | 0 => .stopBefore (if ending = .brace ∧ k = .rbrace then .finished else .stray)
      | d + 1 =>
        if d = 0 ∧ ending = .statement ∧ k = .rbrace ∧ endsLine t.rest then .stopAfter else .goOn d false
    else if k = .semi ∧ depth = 0 ∧ ending = .statement then .stopAfter
    else .goOn depth (allowsMarkup t)

def run (ending : CodeEnd) (depth : Nat) (allowed : Bool) (cs : List Char) : CodeRun :=
  match _found : next cs with
  | none => ⟨[], depth, .exhausted, [], cs⟩
  | some t =>
    match judge ending depth allowed t with
    | .goOn d a => (run ending d a t.rest).before t.through
    | .stopBefore stop => ⟨t.skipped, depth, stop, t.text, t.rest⟩
    | .stopAfter => ⟨t.through, 0, .finished, [], t.rest⟩
termination_by cs.length
decreasing_by exact next_shorter _found

theorem run_append (ending : CodeEnd) (depth : Nat) (allowed : Bool) (cs : List Char) :
    (run ending depth allowed cs).text ++ ((run ending depth allowed cs).mark ++ (run ending depth allowed cs).rest) = cs := by
  fun_induction run ending depth allowed cs with
  | case1 => rfl
  | case2 depth allowed cs t found d a verdict ih =>
    simp [CodeRun.before, ih, Token.through_append_rest, next_whole found]
  | case3 depth allowed cs t found stop verdict => exact next_whole found
  | case4 depth allowed cs t found verdict => simp [Token.through_append_rest, next_whole found]

theorem run_within (ending : CodeEnd) (depth : Nat) (allowed : Bool) (cs : List Char) :
    (run ending depth allowed cs).rest.length ≤ cs.length := by
  have := congrArg List.length (run_append ending depth allowed cs)
  simp only [List.length_append] at this
  omega

theorem run_shorter (ending : CodeEnd) (depth : Nat) (allowed : Bool) {cs : List Char} {t : Token CodeKind}
    (h : next cs = some t) : (run ending depth allowed cs).rest.length < cs.length := by
  have shorter := next_shorter h
  rw [run]
  split
  · simp_all
  · rename_i u found
    obtain rfl : u = t := by simp_all
    split
    · exact Nat.lt_of_le_of_lt (run_within ..) shorter
    · exact shorter
    · exact shorter

theorem next_of_run_stop {ending : CodeEnd} {depth : Nat} {allowed : Bool} {cs : List Char}
    (h : (run ending depth allowed cs).stop ≠ .exhausted) : ∃ t, next cs = some t := by
  rw [run] at h
  split at h
  · exact absurd rfl h
  · exact ⟨_, ‹next cs = some _›⟩

end Code

end MarkupEditor
