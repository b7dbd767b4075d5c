import Mathlib.Data.List.Induction
import MarkupEditor.Proofs.Markup.Places

namespace MarkupEditor

theorem length_le_byteSize (cs : List Char) : cs.length ≤ byteSize cs := by
  induction cs with
  | nil => exact Nat.le_refl _
  | cons c cs ih =>
    have wide := Char.utf8Size_pos c
    rw [List.length_cons, byteSize_cons]
    omega

theorem byteSize_eq_length {cs : List Char} : byteSize cs = cs.length ↔ ∀ c ∈ cs, c.utf8Size = 1 := by
  induction cs with
  | nil => simp
  | cons c cs ih =>
    have wide := Char.utf8Size_pos c
    have least := length_le_byteSize cs
    rw [List.forall_mem_cons, ← ih, List.length_cons, byteSize_cons]
    omega

theorem charsBefore?_append (cs rest : List Char) : charsBefore? (byteSize cs) (cs ++ rest) = some cs := by
  induction cs with
  | nil => cases rest <;> rfl
  | cons c cs ih =>
    have wide := Char.utf8Size_pos c
    rw [List.cons_append, charsBefore?, byteSize_cons, if_neg (by omega), if_pos (by omega), Nat.add_sub_cancel_left, ih]
    rfl

theorem Position.origin_offset (cs : List Char) : (Position.origin.after cs).offset = byteSize cs := by
  rw [after_offset]
  exact Nat.zero_add _

def textBetween? (start stop : Nat) (source : List Char) : Option (List Char) :=
  match charsBefore? start source, charsBefore? stop source with
  | some before, some upTo => if start ≤ stop then some (upTo.drop before.length) else none
  | _, _ => none

theorem textBetween?_append (before text after : List Char) :
    textBetween? (byteSize before) (byteSize (before ++ text)) (before ++ (text ++ after)) = some text := by
  have upTo := charsBefore?_append (before ++ text) after
  rw [List.append_assoc] at upTo
  rw [textBetween?, charsBefore?_append, upTo]
  simp

def Location.slice (source : List Char) (l : Location) : List Char := (textBetween? l.start.offset l.stop.offset source).getD []

def lineStartsAfter (offset : Nat) : List Char → List Nat
  | [] => []
  | c :: cs =>
    if c = '\n' then (offset + c.utf8Size) :: lineStartsAfter (offset + c.utf8Size) cs else lineStartsAfter (offset + c.utf8Size) cs

def lineStarts (source : List Char) : List Nat := 0 :: lineStartsAfter 0 source

-- The position at an offset: the last line that starts there or before, and the number of characters from its start.
def Position.lookup (source : List Char) (offset : Nat) : Position :=
  let line := max ((lineStarts source).takeWhile (· ≤ offset)).length 1
  let start := ((lineStarts source)[line - 1]?).getD 0
  ⟨offset, line, ((textBetween? start offset source).map List.length).getD 0⟩

section

variable (offset : Nat) (cs rest : List Char)

theorem lineStartsAfter_append :
    lineStartsAfter offset (cs ++ rest) = lineStartsAfter offset cs ++ lineStartsAfter (offset + byteSize cs) rest := by
  induction cs generalizing offset with
  | nil => simp [lineStartsAfter]
  | cons c cs ih =>
    rw [List.cons_append, lineStartsAfter, lineStartsAfter, ih, byteSize_cons, Nat.add_assoc]
    split <;> rfl

theorem lineStartsAfter_within : ∀ start ∈ lineStartsAfter offset cs, offset < start ∧ start ≤ offset + byteSize cs := by
  induction cs generalizing offset with
  | nil => simp [lineStartsAfter]
  | cons c cs ih =>
    have wide := Char.utf8Size_pos c
    have later : ∀ start ∈ lineStartsAfter (offset + c.utf8Size) cs, offset < start ∧ start ≤ offset + byteSize (c :: cs) := by
      intro start member
      have := ih _ start member
      rw [byteSize_cons]
      omega
    rw [lineStartsAfter]
    split
    · refine List.forall_mem_cons.mpr ⟨⟨by omega, ?_⟩, later⟩
      rw [byteSize_cons]
      omega
    · exact later

end

theorem takeWhile_lineStarts (before after : List Char) :
    (lineStarts (before ++ after)).takeWhile (· ≤ byteSize before) = lineStarts before := by
  have early : ∀ start ∈ lineStarts before, decide (start ≤ byteSize before) = true := by
    intro start member
    rcases List.mem_cons.mp member with rfl | member
    · exact decide_eq_true (Nat.zero_le _)
    · have := lineStartsAfter_within 0 before start member
      exact decide_eq_true (by omega)
  have late : (lineStartsAfter (0 + byteSize before) after).takeWhile (· ≤ byteSize before) = [] := by
    cases starts : lineStartsAfter (0 + byteSize before) after with
    | nil => rfl
    | cons start starts' =>
      have := lineStartsAfter_within (0 + byteSize before) after start (starts ▸ List.mem_cons_self)
      exact List.takeWhile_cons_of_neg (by simp; omega)
  rw [lineStarts, lineStartsAfter_append, ← List.cons_append, ← lineStarts, List.takeWhile_append_of_pos early, late, List.append_nil]

theorem lineStarts_append (cs rest : List Char) : lineStarts (cs ++ rest) = lineStarts cs ++ lineStartsAfter (byteSize cs) rest := by
  rw [lineStarts, lineStartsAfter_append, Nat.zero_add]
  rfl

theorem counted_lines (cs : List Char) :
    (lineStarts cs).length = (Position.origin.after cs).line ∧
      ∃ before rest, cs = before ++ rest ∧ (lineStarts cs).getLast? = some (byteSize before) ∧
        rest.length = (Position.origin.after cs).column := by
  induction cs using List.reverseRecOn with
  | nil => exact ⟨rfl, [], [], rfl, rfl, rfl⟩
  | append_singleton cs c ih =>
    obtain ⟨lines, before, rest, rfl, start, column⟩ := ih
    rw [Position.after_append, lineStarts_append]
    by_cases feed : c = '\n'
    · subst feed
      refine ⟨?_, before ++ rest ++ ['\n'], [], (List.append_nil _).symm, ?_, rfl⟩
      · simp [lineStartsAfter, lines, Position.step]
      · simp [lineStartsAfter, Nat.add_assoc]
    · refine ⟨?_, before, rest ++ [c], (List.append_assoc ..), ?_, ?_⟩
      · simp [lineStartsAfter, lines, Position.step, feed]
      · simpa [lineStartsAfter, feed] using start
      · simp [column, Position.step, feed]

theorem Position.lookup_append (before after : List Char) :
    Position.lookup (before ++ after) (byteSize before) = Position.origin.after before := by
  obtain ⟨lines, head, rest, rfl, start, column⟩ := counted_lines before
  have positive : 0 < (lineStarts (head ++ rest)).length := Nat.succ_pos _
  have found : (lineStarts (head ++ rest ++ after))[(lineStarts (head ++ rest)).length - 1]? = some (byteSize head) := by
    rw [lineStarts_append, List.getElem?_append_left (by omega), ← List.getLast?_eq_getElem?, start]
  have text := textBetween?_append head rest after
  rw [← List.append_assoc] at text
  have counted : Position.origin.after (head ++ rest) = ⟨byteSize (head ++ rest), (lineStarts (head ++ rest)).length, rest.length⟩ := by
    rw [← Position.origin_offset, lines, column]
  rw [counted]
  simp only [Position.lookup, takeWhile_lineStarts, Nat.max_eq_left positive, found, Option.getD_some, text, Option.map_some]

theorem Position.after_counts (cs : List Char) :
    (Position.origin.after cs).line = cs.count '\n' + 1 ∧
      (Position.origin.after cs).column = (cs.reverse.takeWhile (· ≠ '\n')).length := by
  induction cs using List.reverseRecOn with
  | nil => exact ⟨rfl, rfl⟩
  | append_singleton cs c ih =>
    obtain ⟨line, column⟩ := ih
    rw [Position.after_append, List.count_append, List.reverse_append]
    by_cases feed : c = '\n'
    · subst feed
      simp [Position.step, line]
    · simp [Position.step, feed, line, column]

-- The cursor stands in a source: what lies before its place has been read.
def Cursor.StandsIn (source : List Char) (c : Cursor) : Prop := (Cursor.ofText source).Moves c

namespace Cursor.StandsIn

variable {source : List Char} {c c' : Cursor}

theorem start (source : List Char) : (Cursor.ofText source).StandsIn source := ⟨[], rfl, rfl⟩

theorem moves (stands : c.StandsIn source) (moves : c.Moves c') : c'.StandsIn source := stands.trans moves

theorem split (stands : c.StandsIn source) : ∃ before, source = before ++ c.rest ∧ c.pos = Position.origin.after before := stands

theorem position (stands : c.StandsIn source) : c.pos = .lookup source c.pos.offset := by
  obtain ⟨before, rest, pos⟩ := stands.split
  rw [pos, Position.origin_offset, rest]
  exact (Position.lookup_append before c.rest).symm

theorem slice (stands : c.StandsIn source) {text : List Char} (read : c.rest = text ++ c'.rest) (there : c'.pos = c.pos.after text) :
    Location.slice source ⟨c.pos, c'.pos⟩ = text := by
  obtain ⟨before, rest, pos⟩ := stands.split
  rw [Location.slice, there, pos, ← Position.after_append, Position.origin_offset, Position.origin_offset, rest, read, textBetween?_append]
  rfl

theorem endOffset (stands : c.StandsIn source) : c.endOffset = byteSize source := by
  obtain ⟨before, rest, pos⟩ := stands.split
  rw [Cursor.endOffset, pos, Position.origin_offset, rest, byteSize_append]

end Cursor.StandsIn

end MarkupEditor
