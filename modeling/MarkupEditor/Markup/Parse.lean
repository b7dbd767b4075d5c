import MarkupEditor.Markup.Node
import MarkupEditor.Markup.ParseError
import MarkupEditor.Markup.Cursor
import MarkupEditor.Markup.CodeRun
import MarkupEditor.Markup.Token.Tag

namespace MarkupEditor

namespace Parse

abbrev Result (α : Type) (size : Nat) := Except ParseError (Reading α size)

def past (c : Cursor) (t : Token TagKind) : Cursor := c.moved t.through t.rest

def unexpected (c : Cursor) (expected : String) : Option (Token TagKind) → ParseError
  | some t => .unexpectedToken (c.pos.after t.skipped).offset expected (String.ofList t.text)
  | none => .unexpectedEnd c.endOffset expected

theorem past_shorter {c : Cursor} {t : Token TagKind} (h : Tag.next c.rest = some t) :
    (past c t).rest.length < c.rest.length := Tag.next_shorter h

def angle (c : Cursor) : Result Unit c.rest.length :=
  match found : Tag.next c.rest with
  | some t =>
    if t.kind = some .gt then .ok ⟨(), past c t, Nat.le_of_lt (past_shorter found)⟩
    else .error (unexpected c ">" (some t))
  | none => .error (unexpected c ">" none)

-- The rest of a closing tag after `</`; a fragment has no name.
def closing (name : Option String) (c : Cursor) : Result Unit c.rest.length :=
  match name with
  | none => angle c
  | some name =>
    match found : Tag.next c.rest with
    | some t =>
      if t.kind = some .name ∧ String.ofList t.text = name then
        match angle (past c t) with
        | .ok r => .ok ⟨(), r.stop, Nat.le_trans r.within (Nat.le_of_lt (past_shorter found))⟩
        | .error e => .error e
      else .error (.invalid (c.pos.after t.skipped).offset s!"expected </{name}>")
    | none => .error (.unexpectedEnd c.endOffset s!"</{name}>")

-- How the value of an attribute starts: there is none, it is a quoted string, or it is a brace expression
-- whose inside comes next.
inductive ValueForm where
  | absent
  | string (value : String) (quote : Quote)
  | brace

def unquote (text : List Char) : String := String.ofList (text.drop 1).dropLast

def quoteOf (text : List Char) : Quote := if text.head? = some '\'' then .single else .double

def valueForm (c : Cursor) : Result ValueForm c.rest.length :=
  match foundEq : Tag.next c.rest with
  | none => .ok ⟨.absent, c, Nat.le_refl _⟩
  | some e =>
    if e.kind = some .eq then
      match found : Tag.next (past c e).rest with
      | some t =>
        have within := Nat.le_of_lt (Nat.lt_trans (past_shorter found) (past_shorter foundEq))
        match t.kind with
        | some .stringLit => .ok ⟨.string (unquote t.text) (quoteOf t.text), past (past c e) t, within⟩
        | some .lbrace => .ok ⟨.brace, past (past c e) t, within⟩
        | _ => .error (unexpected (past c e) "attribute value" (some t))
      | none => .error (unexpected (past c e) "attribute value" none)
    else .ok ⟨.absent, c, Nat.le_refl _⟩

-- The three dots of a spread at the start of a brace, with the blanks before them.
def spreadDots? (cs : List Char) : Option (List Char × List Char) :=
  match takeRun Text.isBlank cs with
  | (blank, '.' :: '.' :: '.' :: rest) => some (blank ++ ['.', '.', '.'], rest)
  | _ => none

theorem spreadDots?_append {cs dots rest : List Char} (h : spreadDots? cs = some (dots, rest)) : dots ++ rest = cs := by
  have := takeRun_append Text.isBlank cs
  unfold spreadDots? at h
  split at h <;> simp_all
  grind

-- Whether a brace holds a spread, and where its code starts.
def braceStart (c : Cursor) : Reading Bool c.rest.length :=
  match h : spreadDots? c.rest with
  | some (dots, rest) =>
    ⟨true, c.moved dots rest, by
      have := congrArg List.length (spreadDots?_append h)
      simp only [List.length_append] at this
      simp only [Cursor.moved]
      omega⟩
  | none => ⟨false, c, Nat.le_refl _⟩

def plainText (cs : List Char) : List Char × List Char := takeRun (fun c => c ≠ '<' && c ≠ '{') cs

theorem plainText_append (cs : List Char) : (plainText cs).1 ++ (plainText cs).2 = cs := takeRun_append ..

theorem plainText_within {cs text rest : List Char} (h : plainText cs = (text, rest)) : rest.length ≤ cs.length := by
  have := congrArg List.length (plainText_append cs)
  rw [h] at this
  simp only [List.length_append] at this
  omega

theorem tail_shorter {cs : List Char} {c : Char} (h : cs.head? = some c) : cs.tail.length < cs.length := by
  cases cs with
  | nil => cases h
  | cons => exact Nat.lt_succ_self _

-- Text between tags as nodes: empty text is none.
def textNode (start : Position) (cs : List Char) : List Node :=
  if cs.isEmpty then [] else [.text ⟨start, start.after cs⟩ (String.ofList cs)]

mutual

-- Code up to its end, with the markup in it. The closing brace of a brace expression is read too.
def parts (ending : CodeEnd) (depth : Nat) (allowed : Bool) (c : Cursor) :
    Result (List Part) (Code.run ending depth allowed c.rest).rest.length :=
  let run := Code.run ending depth allowed c.rest
  let here := c.pos.after run.text
  match _stopped : run.stop with
  | .finished => .ok ⟨Part.ofCode run.text, ⟨here.after run.mark, run.rest⟩, Nat.le_refl _⟩
  | .exhausted =>
    if ending = .statement ∧ run.depth = 0 then .ok ⟨Part.ofCode run.text, ⟨here, run.rest⟩, Nat.le_refl _⟩
    else .error (.unexpectedEnd c.endOffset (if ending = .brace ∧ run.depth = 0 then "\x7d" else "closing bracket"))
  | .stray => .error (.unexpectedToken here.offset "expression" (String.ofList run.mark))
  | .markup =>
    match markup here ⟨here.after run.mark, run.rest⟩ with
    | .error e => .error e
    | .ok m =>
      match parts ending run.depth false m.stop with
      | .error e => .error e
      | .ok r =>
        .ok ⟨Part.ofCode run.text ++ .node m.value :: r.value, r.stop,
          Nat.le_trans r.within (Nat.le_trans (Code.run_within ..) m.within)⟩
termination_by c.rest.length
decreasing_by
  · obtain ⟨t, found⟩ := Code.next_of_run_stop (by rw [_stopped]; decide)
    exact Code.run_shorter _ _ _ found
  · obtain ⟨t, found⟩ := Code.next_of_run_stop (by rw [_stopped]; decide)
    exact Nat.lt_of_le_of_lt m.within (Code.run_shorter _ _ _ found)

-- An element or fragment whose `<` stands at `start`, from after it.
def markup (start : Position) (c : Cursor) : Result Node c.rest.length :=
  if opened : c.rest.head? = some '>' then
    have shorter : c.rest.tail.length < c.rest.length := tail_shorter opened
    match children start none ⟨c.pos.after ['>'], c.rest.tail⟩ with
    | .error e => .error e
    | .ok r => .ok ⟨.fragment ⟨start, r.stop.pos⟩ r.value, r.stop, Nat.le_trans r.within (Nat.le_of_lt shorter)⟩
  else
    match found : Tag.next c.rest with
    | none => .error (unexpected c "tag name" none)
    | some t =>
      if t.kind = some .name then
        let name := String.ofList t.text
        match attributes start name (past c t) with
        | .error e => .error e
        | .ok a =>
          have within := Nat.le_trans a.within (Nat.le_of_lt (past_shorter found))
          if a.value.2 then .ok ⟨.element ⟨start, a.stop.pos⟩ name a.value.1 [] true, a.stop, within⟩
          else
            match children start (some name) a.stop with
            | .error e => .error e
            | .ok r => .ok ⟨.element ⟨start, r.stop.pos⟩ name a.value.1 r.value false, r.stop, Nat.le_trans r.within within⟩
      else .error (unexpected c "tag name" (some t))
termination_by c.rest.length
decreasing_by
  · exact shorter
  · exact past_shorter found
  · exact Nat.lt_of_le_of_lt a.within (past_shorter found)

-- The attributes of a tag up to its end, and whether it closes itself.
def attributes (start : Position) (name : String) (c : Cursor) : Result (List Attribute × Bool) c.rest.length :=
  match found : Tag.next c.rest with
  | none => .error (.unclosed start.offset name)
  | some t =>
    match t.kind with
    | some .name =>
      match valueForm (past c t) with
      | .error e => .error e
      | .ok v =>
        let key := String.ofList t.text
        match v.value with
        | .absent =>
          match attributes start name v.stop with
          | .error e => .error e
          | .ok r => .ok ⟨(.flag key :: r.value.1, r.value.2), r.stop,
              Nat.le_trans r.within (Nat.le_of_lt (Nat.lt_of_le_of_lt v.within (past_shorter found)))⟩
        | .string value quote =>
          match attributes start name v.stop with
          | .error e => .error e
          | .ok r => .ok ⟨(.string key value quote :: r.value.1, r.value.2), r.stop,
              Nat.le_trans r.within (Nat.le_of_lt (Nat.lt_of_le_of_lt v.within (past_shorter found)))⟩
        | .brace =>
          match parts .brace 0 true v.stop with
          | .error e => .error e
          | .ok p =>
            have within := Nat.lt_of_le_of_lt (Nat.le_trans (Nat.le_trans p.within (Code.run_within ..)) v.within)
              (past_shorter found)
            match attributes start name p.stop with
            | .error e => .error e
            | .ok r => .ok ⟨(.expression key p.value :: r.value.1, r.value.2), r.stop,
                Nat.le_trans r.within (Nat.le_of_lt within)⟩
    | some .lbrace =>
      let b := braceStart (past c t)
      if b.value then
        match parts .brace 0 true b.stop with
        | .error e => .error e
        | .ok p =>
          have within := Nat.lt_of_le_of_lt (Nat.le_trans (Nat.le_trans p.within (Code.run_within ..)) b.within)
            (past_shorter found)
          match attributes start name p.stop with
          | .error e => .error e
          | .ok r => .ok ⟨(.spread p.value :: r.value.1, r.value.2), r.stop,
              Nat.le_trans r.within (Nat.le_of_lt within)⟩
      else .error (.invalid (c.pos.after t.skipped).offset "expected `\x7b...expression\x7d` in tag")
    | some .slash =>
      match angle (past c t) with
      | .error e => .error e
      | .ok r => .ok ⟨([], true), r.stop, Nat.le_trans r.within (Nat.le_of_lt (past_shorter found))⟩
    | some .gt => .ok ⟨([], false), past c t, Nat.le_of_lt (past_shorter found)⟩
    | _ => .error (unexpected c "attribute" (some t))
termination_by c.rest.length
decreasing_by
  · exact Nat.lt_of_le_of_lt v.within (past_shorter found)
  · exact Nat.lt_of_le_of_lt v.within (past_shorter found)
  · exact Nat.lt_of_le_of_lt v.within (past_shorter found)
  · exact within
  · exact Nat.lt_of_le_of_lt b.within (past_shorter found)
  · exact within

-- What stands between the tags of an element or fragment that was opened at `start`, and its closing tag.
def children (start : Position) (name : Option String) (c : Cursor) : Result (List Node) c.rest.length :=
  match found : plainText c.rest with
  | (_, []) => .error (.unclosed start.offset (name.getD ""))
  | (text, '{' :: inside) =>
    let here := c.pos.after text
    let b := braceStart ⟨here.after ['{'], inside⟩
    match parts .brace 0 true b.stop with
    | .error e => .error e
    | .ok p =>
      have within : p.stop.rest.length < c.rest.length := by
        have := Nat.le_trans (Nat.le_trans p.within (Code.run_within ..)) b.within
        have := plainText_within found
        simp only [List.length_cons] at *
        omega
      match children start name p.stop with
      | .error e => .error e
      | .ok r => .ok ⟨textNode c.pos text ++ .wrapper ⟨here, p.stop.pos⟩ b.value p.value :: r.value, r.stop,
          Nat.le_trans r.within (Nat.le_of_lt within)⟩
  | (text, lt :: '/' :: after) =>
    match closing name ⟨c.pos.after (text ++ [lt, '/']), after⟩ with
    | .error e => .error e
    | .ok r => .ok ⟨textNode c.pos text, r.stop, by
        have := r.within
        have := plainText_within found
        simp only [List.length_cons] at *
        omega⟩
  | (text, lt :: after) =>
    let here := c.pos.after text
    if Code.startsMarkup after then
      match markup here ⟨here.after [lt], after⟩ with
      | .error e => .error e
      | .ok m =>
        have within : m.stop.rest.length < c.rest.length := by
          have := m.within
          have := plainText_within found
          simp only [List.length_cons] at *
          omega
        match children start name m.stop with
        | .error e => .error e
        | .ok r => .ok ⟨textNode c.pos text ++ m.value :: r.value, r.stop, Nat.le_trans r.within (Nat.le_of_lt within)⟩
    else .error (.invalid here.offset "unexpected `<` in markup text")
termination_by c.rest.length
decreasing_by
  · refine Nat.lt_of_le_of_lt b.within ?_
    have := plainText_within found
    simp only [List.length_cons] at *
    omega
  · exact within
  · have := plainText_within found
    simp only [List.length_cons] at *
    omega
  · exact within

end

def body (c : Cursor) : Except ParseError (List Part) :=
  match _found : Code.next c.rest with
  | none => .ok (Part.ofCode c.rest)
  | some t =>
    let start := c.moved t.skipped t.ahead
    match parts .statement 0 true start with
    | .error e => .error e
    | .ok r =>
      match body r.stop with
      | .error e => .error e
      | .ok more => .ok (Part.ofCode t.skipped ++ .node (.other ⟨start.pos, r.stop.pos⟩ r.value) :: more)
termination_by c.rest.length
decreasing_by
  have := Nat.lt_of_le_of_lt r.within (Code.run_shorter .statement 0 true (Code.next_ahead _found))
  have := congrArg List.length (Code.next_whole _found)
  simp only [Token.whole, List.length_append, start, Cursor.moved] at *
  omega

end Parse

def parse (source : String) : Except ParseError SourceTree :=
  match Parse.body (.ofText source.toList) with
  | .ok parts => .ok ⟨parts⟩
  | .error e => .error e

end MarkupEditor
