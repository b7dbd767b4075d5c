import Mathlib.Data.List.Basic
import MarkupEditor.Markup.Report
import MarkupEditor.Proofs.Markup.Lines

namespace MarkupEditor

namespace Report

variable {line column : Nat} {cs next : List Char}

-- A line of a report ends after the character: a line end, but not the return of a return and feed.
def BreaksAt (c : Char) (next : List Char) : Prop := isLineEnd c ∧ ¬(c = '\r' ∧ next.head? = some '\n')

instance (c : Char) (next : List Char) : Decidable (BreaksAt c next) := inferInstanceAs (Decidable (_ ∧ _))

-- The line and the column after a text by the lines of a report. What comes next tells whether a return ends a line.
def placeAfter (line column : Nat) : List Char → List Char → Nat × Nat
  | [], _ => (line, column)
  | c :: cs, next => if BreaksAt c (cs ++ next) then placeAfter (line + 1) 0 cs next else placeAfter line (column + 1) cs next

def FeedsOnly : List Char → List Char → Prop
  | [], _ => True
  | c :: cs, next => (BreaksAt c (cs ++ next) → c = '\n') ∧ FeedsOnly cs next

theorem breaksAt_feed (next : List Char) : BreaksAt '\n' next := ⟨by decide, fun feed => absurd feed.1 (by decide)⟩

theorem placeAfter_append (line column : Nat) (a b next : List Char) :
    placeAfter line column (a ++ b) next =
      placeAfter (placeAfter line column a (b ++ next)).1 (placeAfter line column a (b ++ next)).2 b next := by
  induction a generalizing line column with
  | nil => rfl
  | cons c a ih =>
    rw [List.cons_append, placeAfter, placeAfter, List.append_assoc, ih, ih]
    split <;> rfl

theorem line_le_placeAfter (line column : Nat) (cs next : List Char) : line ≤ (placeAfter line column cs next).1 := by
  induction cs generalizing line column with
  | nil => exact Nat.le_refl _
  | cons c cs ih =>
    rw [placeAfter]
    split
    · exact Nat.le_of_succ_le (ih ..)
    · exact ih ..

theorem placeAfter_inline (same : (placeAfter line column cs next).1 = line) :
    (placeAfter line column cs next).2 = column + cs.length := by
  induction cs generalizing column with
  | nil => rfl
  | cons c cs ih =>
    rw [placeAfter] at same ⊢
    split at same
    · have later := line_le_placeAfter (line + 1) 0 cs next
      omega
    · rename_i stays
      rw [if_neg stays, ih same, List.length_cons]
      omega

theorem lines_le_placeAfter (p : Position) (line column : Nat) (cs next : List Char) :
    (p.after cs).line + line ≤ (placeAfter line column cs next).1 + p.line := by
  induction cs generalizing p line column with
  | nil => exact Nat.le_of_eq (Nat.add_comm ..)
  | cons c cs ih =>
    rw [placeAfter, Position.after_cons]
    split
    · have rest := ih (p.step c) (line + 1) 0
      have step : (p.step c).line ≤ p.line + 1 := by unfold Position.step; split <;> simp
      omega
    · rename_i stays
      have rest := ih (p.step c) line (column + 1)
      have feed : c ≠ '\n' := fun feed => stays (feed ▸ breaksAt_feed _)
      have step : (p.step c).line = p.line := by rw [Position.step, if_neg feed]
      omega

theorem feedsOnly_of_lines {p : Position} (lines : (p.after cs).line + line = (placeAfter line column cs next).1 + p.line) :
    FeedsOnly cs next := by
  induction cs generalizing p line column with
  | nil => trivial
  | cons c cs ih =>
    rw [placeAfter, Position.after_cons] at lines
    split at lines
    · by_cases feed : c = '\n'
      · have step : (p.step c).line = p.line + 1 := by rw [Position.step, if_pos feed]
        have rest : ((p.step c).after cs).line + (line + 1) = (placeAfter (line + 1) 0 cs next).1 + (p.step c).line := by omega
        exact ⟨fun _ => feed, ih rest⟩
      · -- another line end: the report is a line ahead from here on
        exfalso
        have step : (p.step c).line = p.line := by rw [Position.step, if_neg feed]
        have least := lines_le_placeAfter (p.step c) (line + 1) 0 cs next
        omega
    · rename_i stays
      have feed : c ≠ '\n' := fun feed => stays (feed ▸ breaksAt_feed _)
      have step : (p.step c).line = p.line := by rw [Position.step, if_neg feed]
      have rest : ((p.step c).after cs).line + line = (placeAfter line (column + 1) cs next).1 + (p.step c).line := by omega
      exact ⟨fun ends => absurd ends stays, ih rest⟩

theorem placeAfter_feeds (feeds : FeedsOnly cs next) (p : Position) :
    placeAfter p.line p.column cs next = ((p.after cs).line, (p.after cs).column) := by
  induction cs generalizing p with
  | nil => rfl
  | cons c cs ih =>
    obtain ⟨first, feeds⟩ := feeds
    have step := ih feeds (p.step c)
    rw [placeAfter, Position.after_cons, ← step]
    by_cases feed : c = '\n'
    · subst feed
      rw [if_pos (breaksAt_feed _)]
      rfl
    · rw [if_neg fun ends => feed (first ends), Position.step, if_neg feed]

theorem placeAfter_same_line {before mid : List Char}
    (same : (placeAfter 1 0 (before ++ mid) next).1 = (Position.origin.after before).line) :
    FeedsOnly before (mid ++ next) ∧ (placeAfter 1 0 (before ++ mid) next).2 = (Position.origin.after before).column + mid.length := by
  have least := lines_le_placeAfter .origin 1 0 before (mid ++ next)
  rw [placeAfter_append] at same ⊢
  have on := line_le_placeAfter (placeAfter 1 0 before (mid ++ next)).1 (placeAfter 1 0 before (mid ++ next)).2 mid next
  have line : (Position.origin.after before).line = (placeAfter 1 0 before (mid ++ next)).1 := by
    have first : Position.origin.line = 1 := rfl
    omega
  have feeds : FeedsOnly before (mid ++ next) := feedsOnly_of_lines (p := .origin) (congrArg (· + 1) line)
  have counted : placeAfter 1 0 before (mid ++ next) = _ := placeAfter_feeds feeds .origin
  rw [counted] at same ⊢
  exact ⟨feeds, placeAfter_inline same⟩

def restOfLine (cs : List Char) : List Char := cs.takeWhile (!isLineEnd ·)

theorem isBlank_of_isLineEnd {c : Char} (ends : isLineEnd c = true) : Text.isBlank c = true := by
  simp only [isLineEnd, Bool.or_eq_true, beq_iff_eq] at ends
  rcases ends with (((((rfl | rfl) | rfl) | rfl) | rfl) | rfl) | rfl <;> decide

theorem linesFrom_breaks {c : Char} (read : List Char) (breaks : BreaksAt c cs) :
    linesFrom read (c :: cs) = (c :: read).reverse :: linesFrom [] cs := if_pos breaks

theorem linesFrom_stays {c : Char} (read : List Char) (stays : ¬BreaksAt c cs) : linesFrom read (c :: cs) = linesFrom (c :: read) cs :=
  if_neg stays

theorem linesFrom_cons (read : List Char) (b : Char) (back : List Char) :
    ∃ post stop later, linesFrom read (b :: back) = (read.reverse ++ b :: post) :: linesFrom [] later ∧ back = post ++ later ∧
      b :: post = restOfLine (b :: back) ++ stop ∧ ∀ c ∈ stop, Text.isBlank c = true := by
  induction back generalizing read b with
  | nil =>
    have one : linesFrom read [b] = (read.reverse ++ [b]) :: linesFrom [] [] := by
      simp [linesFrom]
    refine ⟨[], (if isLineEnd b then [b] else []), [], one, rfl, ?_, ?_⟩
    · by_cases ends : isLineEnd b = true <;> simp [restOfLine, ends]
    · split
      · rename_i ends
        simpa using isBlank_of_isLineEnd ends
      · simp
  | cons d back ih =>
    by_cases breaks : BreaksAt b (d :: back)
    · refine ⟨[], [b], d :: back, ?_, rfl, ?_, by simpa using isBlank_of_isLineEnd breaks.1⟩
      · rw [linesFrom_breaks read breaks, List.reverse_cons]
      · simp [restOfLine, breaks.1]
    · obtain ⟨post, stop, later, lines, whole, line, blank⟩ := ih (b :: read) d
      have same : linesFrom read (b :: d :: back) = (read.reverse ++ b :: d :: post) :: linesFrom [] later := by
        rw [linesFrom_stays read breaks, lines]
        simp
      by_cases ends : isLineEnd b = true
      · -- a return before a feed: both end the line
        obtain ⟨rfl, feed⟩ : b = '\r' ∧ (d :: back).head? = some '\n' := by
          by_contra other
          exact breaks ⟨ends, other⟩
        obtain rfl : d = '\n' := Option.some.inj feed
        rw [show restOfLine ('\n' :: back) = [] from rfl, List.nil_append] at line
        refine ⟨'\n' :: post, '\r' :: stop, later, same, by rw [whole]; rfl, ?_, ?_⟩
        · rw [line]
          rfl
        · exact List.forall_mem_cons.mpr ⟨by decide, blank⟩
      · refine ⟨d :: post, stop, later, same, by rw [whole]; rfl, ?_, blank⟩
        have runs : restOfLine (b :: d :: back) = b :: restOfLine (d :: back) := List.takeWhile_cons_of_pos (by simpa using ends)
        rw [line, runs]
        rfl

theorem linesFrom_ne_nil (read front : List Char) (b : Char) (back : List Char) : linesFrom read (front ++ b :: back) ≠ [] := by
  cases front with
  | nil =>
    obtain ⟨_, _, _, lines, _⟩ := linesFrom_cons read b back
    rw [List.nil_append, lines]
    simp
  | cons d front =>
    obtain ⟨_, _, _, lines, _⟩ := linesFrom_cons read d (front ++ b :: back)
    rw [List.cons_append, lines]
    simp

-- The line around the character `b`, in a text of which `read` is behind already. In the last line an index may be past the
-- character, and past the end of the text.
theorem locate_place (n extra : Nat) (read front : List Char) (b : Char) (back : List Char) (within : extra = 0 ∨ back = []) :
    ∃ pre post stop,
      locate n (read.length + front.length + extra) (linesFrom read (front ++ b :: back)) =
        some ((placeAfter n read.length front (b :: back)).1, pre ++ b :: post, pre.length + extra) ∧
      pre.length = (placeAfter n read.length front (b :: back)).2 ∧ pre <:+ read.reverse ++ front ∧ post <+: back ∧
      b :: post = restOfLine (b :: back) ++ stop ∧ ∀ c ∈ stop, Text.isBlank c = true := by
  induction front generalizing n read with
  | nil =>
    obtain ⟨post, stop, later, lines, whole, line, blank⟩ := linesFrom_cons read b back
    refine ⟨read.reverse, post, stop, ?_, by rw [List.length_reverse]; rfl, ⟨[], by simp⟩, ⟨later, whole.symm⟩, line, blank⟩
    rw [List.nil_append, lines, List.length_reverse]
    cases more : linesFrom [] later with
    | nil => rfl
    | cons next rest =>
      rcases within with rfl | rfl
      · rw [locate, if_pos (by simp)]
        · rfl
        · simp
      · obtain ⟨rfl, rfl⟩ := List.nil_eq_append_iff.mp whole
        cases more
  | cons d front ih =>
    by_cases breaks : BreaksAt d (front ++ b :: back)
    · obtain ⟨pre, post, stop, found, column, inside, after, line, blank⟩ := ih (n + 1) []
      have earlier : front <:+ read.reverse ++ d :: front := ⟨read.reverse ++ [d], by simp⟩
      rw [placeAfter, if_pos breaks]
      refine ⟨pre, post, stop, ?_, column, inside.trans earlier, after, line, blank⟩
      rw [List.cons_append, linesFrom_breaks read breaks]
      obtain ⟨next, rest, more⟩ := List.exists_cons_of_ne_nil (linesFrom_ne_nil [] front b back)
      rw [more] at found ⊢
      have here : read.length + (d :: front).length + extra - (d :: read).reverse.length = 0 + front.length + extra := by
        simp only [List.length_reverse, List.length_cons]
        omega
      rw [locate, if_neg (by simp; omega), here]
      · exact found
      · simp
    · obtain ⟨pre, post, stop, found, column, inside, after, line, blank⟩ := ih n (d :: read)
      rw [List.reverse_cons, ← List.append_cons] at inside
      rw [placeAfter, if_neg breaks]
      refine ⟨pre, post, stop, ?_, column, inside, after, line, blank⟩
      have here : read.length + (d :: front).length + extra = (d :: read).length + front.length + extra := by
        simp only [List.length_cons]
        omega
      rw [List.cons_append, linesFrom_stays read breaks, here]
      exact found

end Report

end MarkupEditor
