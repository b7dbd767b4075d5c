import MarkupEditor.Proofs.Markup.Faults
import MarkupEditor.Proofs.Markup.ReportLines

namespace MarkupEditor

namespace Report

variable {line column : Nat}

def header (fileName : String) (line column : Nat) : String :=
  let margin := spaces (Text.decimal line).length
  margin ++ "  " ++ frame "╭" ++ frame "─" ++ frame "[" ++ fileName ++ ":" ++ Text.decimal line ++ ":" ++ Text.decimal column ++
    frame "]" ++ "\n" ++ margin ++ "  " ++ frame "│" ++ "\n"

theorem cut_unique {p : Char → Bool} {a b rest more : List Char} {c d : Char} (first : ∀ x ∈ a, p x = true) (second : ∀ x ∈ b, p x = true)
    (after : p c = false) (behind : p d = false) (same : a ++ c :: rest = b ++ d :: more) : a = b ∧ rest = more := by
  have heads := congrArg (List.takeWhile p) same
  rw [List.takeWhile_append_of_pos first, List.takeWhile_append_of_pos second, List.takeWhile_cons_of_neg (by simp [after]),
    List.takeWhile_cons_of_neg (by simp [behind]), List.append_nil, List.append_nil] at heads
  subst heads
  exact ⟨rfl, (List.cons.inj (List.append_cancel_left same)).2⟩

theorem digits_cut {n m : Nat} {c d : Char} {rest more : List Char} (after : c.isDigit = false) (behind : d.isDigit = false)
    (same : Text.digits n ++ c :: rest = Text.digits m ++ d :: more) : n = m ∧ rest = more := by
  obtain ⟨digits, rests⟩ := cut_unique (Text.digits_isDigit n) (Text.digits_isDigit m) after behind same
  exact ⟨by rw [← Text.ofDigits_digits n, digits, Text.ofDigits_digits], rests⟩

def strokes (fileName : String) : String := frame "╭" ++ frame "─" ++ frame "[" ++ fileName ++ ":"

theorem frame_toList (text : String) : ∃ more, (frame text).toList = '\x1b' :: more :=
  ⟨("[38;5;246m" ++ text ++ "\x1b[0m").toList, by simp [frame, paint]⟩

theorem strokes_toList (fileName : String) : ∃ more, (strokes fileName).toList = '\x1b' :: more := by
  obtain ⟨more, first⟩ := frame_toList "╭"
  refine ⟨more ++ (frame "─" ++ frame "[" ++ fileName ++ ":").toList, ?_⟩
  simp only [strokes, String.toList_append, first, List.cons_append, List.append_assoc]

theorem header_toList (fileName : String) (line column : Nat) (rest : String) : ∃ more,
    (header fileName line column ++ rest).toList = List.replicate ((Text.digits line).length + 2) ' ' ++
      ((strokes fileName).toList ++ (Text.digits line ++ ':' :: (Text.digits column ++ ((frame "]").toList ++ more)))) := by
  have margin : (spaces (Text.decimal line).length ++ "  ").toList = List.replicate ((Text.digits line).length + 2) ' ' := by
    simp [spaces, Text.decimal, List.replicate_succ']
  have regroup (m a b c d f k l n s : String) : m ++ "  " ++ a ++ b ++ c ++ f ++ ":" ++ k ++ ":" ++ l ++ d ++ n ++ m ++ "  " ++ s ++ n ++ rest =
      m ++ "  " ++ (a ++ b ++ c ++ f ++ ":" ++ (k ++ (":" ++ (l ++ (d ++ (n ++ m ++ "  " ++ s ++ n ++ rest)))))) := by
    simp only [String.append_assoc]
  have whole : header fileName line column ++ rest = _ := regroup (spaces (Text.decimal line).length) (frame "╭") (frame "─") (frame "[")
    (frame "]") fileName (Text.decimal line) (Text.decimal column) "\n" (frame "│")
  rw [whole, String.toList_append, margin, ← strokes]
  simp only [String.toList_append, Text.decimal, String.toList_ofList]
  exact ⟨_, rfl⟩

theorem header_inj {fileName rest more : String} {n m : Nat}
    (same : header fileName line column ++ rest = header fileName n m ++ more) : line = n ∧ column = m := by
  obtain ⟨tail, spelled⟩ := header_toList fileName line column rest
  obtain ⟨tail', spelled'⟩ := header_toList fileName n m more
  have chars := congrArg String.toList same
  obtain ⟨stroke, opens⟩ := strokes_toList fileName
  obtain ⟨closing, closes⟩ := frame_toList "]"
  rw [spelled, spelled', opens, closes] at chars
  obtain ⟨-, numbers⟩ := cut_unique (p := (· == ' ')) (by simp) (by simp) (by decide) (by decide) chars
  obtain ⟨lines, columns⟩ := digits_cut (by decide) (by decide) (List.append_cancel_left numbers)
  exact ⟨lines, (digits_cut (by decide) (by decide) columns).1⟩

def numbered (line : Nat) (text : String) : String := " " ++ frame (Text.decimal line ++ " │") ++ " " ++ text ++ "\n"

def cells (first : Nat) (cs : List Char) : List Char := (cs.zipIdx first).flatMap fun (c, i) => shownChar i c

def painted (colour : String → String) (cs : List Char) : String := "".intercalate (cs.map fun c => colour c.toString)

theorem toList_join (l : List String) : ("".intercalate l).toList = l.flatMap String.toList := by
  have nothing (l : List (List Char)) : (l.intersperse []).flatten = l.flatten := by
    induction l with
    | nil => rfl
    | cons a l ih => cases l with
      | nil => rfl
      | cons b l => rw [List.intersperse_cons_cons, List.flatten_cons, List.flatten_cons, ih, List.nil_append]; rfl
  rw [String.toList_intercalate, List.flatMap_def]
  exact nothing _

theorem join_append (l m : List String) : "".intercalate (l ++ m) = "".intercalate l ++ "".intercalate m := by
  apply String.toList_inj.mp
  rw [String.toList_append, toList_join, toList_join, toList_join, List.flatMap_append]

theorem shown_stretch {colour : String → String} {column first : Nat} {cs : List Char}
    (one : ∀ i, first ≤ i → i < first + cs.length → (if i = column then bright else plain) = colour) :
    "".intercalate ((cs.zipIdx first).map fun (c, i) =>
      "".intercalate ((shownChar i c).map fun cell => if i = column then bright cell.toString else plain cell.toString)) =
      painted colour (cells first cs) := by
  apply String.toList_inj.mp
  rw [toList_join, List.flatMap_map, painted, toList_join, List.flatMap_map, cells, List.flatMap_assoc]
  refine List.flatMap_congr fun p member => ?_
  obtain ⟨start, upTo, _⟩ := List.mem_zipIdx member
  rw [toList_join, List.flatMap_map, ← one p.2 start upTo]
  split <;> rfl

theorem shownLine_marked (before after : List Char) (c : Char) :
    shownLine before.length (before ++ c :: after) =
      painted plain (cells 0 before) ++ painted bright (shownChar before.length c) ++ painted plain (cells (before.length + 1) after) := by
  have left : ∀ i, 0 ≤ i → i < 0 + before.length → (if i = before.length then bright else plain) = plain :=
    fun i _ upTo => if_neg (by omega)
  have here : ∀ i, before.length ≤ i → i < before.length + [c].length → (if i = before.length then bright else plain) = bright :=
    fun i start upTo => if_pos (Nat.le_antisymm (Nat.le_of_lt_succ upTo) start)
  have right : ∀ i, before.length + 1 ≤ i → i < before.length + 1 + after.length → (if i = before.length then bright else plain) = plain :=
    fun i start _ => if_neg (by omega)
  have one : cells before.length [c] = shownChar before.length c := by simp [cells]
  have whole : (before ++ c :: after).zipIdx = before.zipIdx ++ [c].zipIdx before.length ++ after.zipIdx (before.length + 1) := by
    rw [List.append_cons, List.zipIdx_append, List.zipIdx_append, Nat.zero_add, List.length_append, List.length_singleton, Nat.zero_add]
  rw [shownLine, whole, List.map_append, List.map_append, join_append, join_append, shown_stretch left, shown_stretch here,
    shown_stretch right, one]

theorem shownLine_plain {column : Nat} {line : List Char} (short : line.length ≤ column) : shownLine column line = painted plain (cells 0 line) :=
  shown_stretch fun _ _ upTo => if_neg (by omega)

theorem painted_cons (colour : String → String) (c : Char) (cs : List Char) :
    painted colour (c :: cs) = colour c.toString ++ painted colour cs := by
  apply String.toList_inj.mp
  rw [String.toList_append, painted, painted, toList_join, toList_join]
  rfl

theorem painted_nil (colour : String → String) : painted colour [] = "" := rfl

theorem plain_inj {x y : Char} {rest more : String} (same : plain x.toString ++ rest = plain y.toString ++ more) : rest = more := by
  replace same := congrArg String.toList same
  simp only [plain, paint, String.toList_append] at same
  apply String.toList_inj.mp
  simp at same
  exact same.2

theorem plain_ne_marked (xs ys zs : List Char) (z : Char) (rest more : String) :
    painted plain xs ++ ("\n" ++ rest) ≠ painted plain ys ++ (painted bright (z :: zs) ++ more) := by
  induction xs generalizing ys with
  | nil =>
    intro same
    replace same := congrArg String.toList same
    cases ys with
    | nil => simp [painted_nil, painted_cons, bright, paint] at same
    | cons y ys => simp [painted_nil, painted_cons, plain, paint] at same
  | cons x xs ih =>
    intro same
    cases ys with
    | nil =>
      replace same := congrArg String.toList same
      simp [painted_nil, painted_cons, plain, bright, paint] at same
    | cons y ys =>
      rw [painted_cons plain, painted_cons plain, String.append_assoc, String.append_assoc] at same
      exact ih ys (plain_inj same)

theorem shownChar_ne_nil (column : Nat) (c : Char) : shownChar column c ≠ [] := by
  unfold shownChar room
  split
  · split
    · have := Nat.mod_lt column (by decide : 0 < 4)
      simp
      omega
    · simp
  · simp

theorem trimEnd_visible {b : Char} {post : List Char} (pre : List Char) (visible : ∃ d ∈ b :: post, Text.isBlank d = false) :
    ∃ more, more <+: post ∧ Text.trimEnd (pre ++ b :: post) = pre ++ b :: more := by
  obtain ⟨d, member, seen⟩ := visible
  rcases List.mem_cons.mp member with rfl | later
  · exact ⟨_, Text.trimEnd_prefix post, Code.trimEnd_upTo seen pre post⟩
  · obtain ⟨u, v, rfl⟩ := List.append_of_mem later
    have whole := Code.trimEnd_upTo seen (pre ++ b :: u) v
    refine ⟨u ++ d :: Text.trimEnd v, ?_, by simpa using whole⟩
    exact List.prefix_append_right_inj _ |>.mpr (List.cons_prefix_cons.mpr ⟨rfl, Text.trimEnd_prefix v⟩)

end Report

namespace ParseError

open Report

def title (e : ParseError) : String := paint "31" "Error:" ++ " " ++ e.message ++ "\n"

-- The header of the report names the line and the column, both counted from one.
def ReportedAt (e : ParseError) (source : List Char) (fileName : String) (line column : Nat) : Prop :=
  ∃ rest, e.report source fileName = e.title ++ (header fileName line column ++ rest)

-- Right below that header stands the line around `c`, with `c` marked and everything else plain.
def MarkedAt (e : ParseError) (before : List Char) (c : Char) (after : List Char) (fileName : String) (line column : Nat) : Prop :=
  ∃ pre post rest, pre <:+ before ∧ post <+: after ∧ pre.length + 1 = column ∧
    e.report (before ++ c :: after) fileName = e.title ++ (header fileName line column ++
      (numbered line (painted plain (cells 0 pre) ++ painted bright (shownChar pre.length c) ++
        painted plain (cells (pre.length + 1) post)) ++ rest))

variable {e : ParseError} {source before after : List Char} {c : Char} {line column n m : Nat} (fileName : String)

theorem MarkedAt.reported {fileName : String} (marked : e.MarkedAt before c after fileName line column) :
    e.ReportedAt (before ++ c :: after) fileName line column := by
  obtain ⟨_, _, _, _, _, _, report⟩ := marked
  exact ⟨_, report⟩

theorem ReportedAt.unique {fileName : String} (first : e.ReportedAt source fileName line column)
    (second : e.ReportedAt source fileName n m) : line = n ∧ column = m := by
  obtain ⟨rest, report⟩ := first
  obtain ⟨more, report'⟩ := second
  exact header_inj ((String.append_right_inj _).mp (report.symm.trans report'))

theorem report_outside (inside : e.pos < byteSize source) (beyond : source.length < e.pos) (line column : Nat) :
    ¬e.ReportedAt source fileName line column := by
  rintro ⟨rest, report⟩
  have start : min e.pos (byteSize source - 1) = e.pos := by omega
  have alone : e.report source fileName = e.title ++ "" := by
    rw [ParseError.report, start, if_pos beyond, String.append_empty]
    rfl
  have nothing := (String.append_right_inj _).mp (alone.symm.trans report)
  obtain ⟨more, spelled⟩ := header_toList fileName line column rest
  rw [← nothing] at spelled
  simp at spelled

theorem report_located {text : List Char} (inside : e.pos < byteSize source) (within : e.pos ≤ source.length)
    (found : locate 1 e.pos (linesFrom [] source) = some (n, text, column)) :
    ∃ rest, e.report source fileName = e.title ++ (header fileName n (column + 1) ++ rest) ∧
      (e.pos < source.length → ∃ below, rest = numbered n (shownLine column (Text.trimEnd text)) ++ below) := by
  have start : min e.pos (byteSize source - 1) = e.pos := by omega
  have parts (a b c d : String) : a ++ b ++ c ++ d = a ++ (b ++ (c ++ d)) := by simp only [String.append_assoc]
  simp only [report, start, if_neg (Nat.not_lt.mpr within), found]
  refine ⟨_, parts e.title (header fileName n (column + 1)) _ _, fun earlier => ?_⟩
  rw [if_neg (Nat.ne_of_lt earlier)]
  let gutter := " " ++ paint "38;5;240" (spaces (Text.decimal n).length ++ " │") ++ " "
  refine ⟨gutter ++ pointer (Text.trimEnd text) column ++ "\n" ++ gutter ++ arrow (Text.trimEnd text) column ++ " " ++ e.label ++ "\n" ++
    (frame (String.ofList (List.replicate ((Text.decimal n).length + 2) '─') ++ "╯") ++ "\n"), ?_⟩
  simp only [numbered, gutter, String.append_assoc]

theorem report_at {extra : Nat} (place : e.pos = before.length + extra) (within : extra = 0 ∨ after = [] ∧ extra = 1)
    (inside : e.pos < byteSize (before ++ c :: after)) :
    ∃ pre post stop rest, pre.length = (placeAfter 1 0 before (c :: after)).2 ∧ pre <:+ before ∧ post <+: after ∧
      c :: post = restOfLine (c :: after) ++ stop ∧ (∀ d ∈ stop, Text.isBlank d = true) ∧
      e.report (before ++ c :: after) fileName = e.title ++
        (header fileName (placeAfter 1 0 before (c :: after)).1 ((placeAfter 1 0 before (c :: after)).2 + extra + 1) ++ rest) ∧
      (extra = 0 → ∃ below, rest =
        numbered (placeAfter 1 0 before (c :: after)).1 (shownLine pre.length (Text.trimEnd (pre ++ c :: post))) ++ below) := by
  obtain ⟨pre, post, stop, found, column, earlier, later, line, blank⟩ := locate_place 1 extra [] before c after (within.imp_right And.left)
  rw [List.length_nil, Nat.zero_add, ← place] at found
  have length : (before ++ c :: after).length = before.length + (after.length + 1) := by simp
  have upTo : e.pos ≤ (before ++ c :: after).length := by
    rcases within with rfl | ⟨rfl, rfl⟩ <;> simp [place]
  obtain ⟨rest, report, excerpt⟩ := report_located fileName inside upTo found
  refine ⟨pre, post, stop, rest, column, earlier, later, line, blank, column ▸ report, fun none => ?_⟩
  subst none
  exact excerpt (by omega)

theorem reportedAt_place {extra : Nat} (place : e.pos = before.length + extra) (within : extra = 0 ∨ after = [] ∧ extra = 1)
    (inside : e.pos < byteSize (before ++ c :: after)) :
    e.ReportedAt (before ++ c :: after) fileName (placeAfter 1 0 before (c :: after)).1
      ((placeAfter 1 0 before (c :: after)).2 + extra + 1) := by
  obtain ⟨_, _, _, rest, _, _, _, _, _, report, _⟩ := report_at fileName place within inside
  exact ⟨rest, report⟩

theorem markedAt_place (place : e.pos = before.length) (inside : e.pos < byteSize (before ++ c :: after)) :
    e.MarkedAt before c after fileName (placeAfter 1 0 before (c :: after)).1 ((placeAfter 1 0 before (c :: after)).2 + 1) ↔
      ∃ d ∈ restOfLine (c :: after), Text.isBlank d = false := by
  obtain ⟨pre, post, stop, rest, column, earlier, later, line, blank, report, excerpt⟩ := report_at fileName place (.inl rfl) inside
  obtain ⟨below, rfl⟩ := excerpt rfl
  by_cases seen : ∃ d ∈ restOfLine (c :: after), Text.isBlank d = false
  · have visible : ∃ d ∈ c :: post, Text.isBlank d = false := by
      obtain ⟨d, member, visible⟩ := seen
      exact ⟨d, line ▸ List.mem_append_left _ member, visible⟩
    obtain ⟨more, shorter, trimmed⟩ := trimEnd_visible pre visible
    refine iff_of_true ⟨pre, more, below, earlier, shorter.trans later, by rw [column], ?_⟩ seen
    rw [report, trimmed, shownLine_marked]
  · -- what is left of the line ends before the column, all of it plain
    have blanks : ∀ d ∈ c :: post, Text.isBlank d = true := by
      rw [line]
      intro d member
      rcases List.mem_append.mp member with inLine | ending
      · by_contra visible
        exact seen ⟨d, inLine, by simpa using visible⟩
      · exact blank d ending
    rw [Text.trimEnd_append_of_blank blanks, shownLine_plain (Text.trimEnd_prefix pre).length_le] at report
    refine iff_of_false ?_ seen
    rintro ⟨left, right, rest, _, _, _, marked⟩
    obtain ⟨z, zs, cell⟩ := List.exists_cons_of_ne_nil (shownChar_ne_nil left.length c)
    have excerpts := (String.append_right_inj _).mp ((String.append_right_inj _).mp (report.symm.trans marked))
    rw [cell] at excerpts
    simp only [numbered, String.append_assoc, String.append_right_inj] at excerpts
    exact plain_ne_marked _ _ _ _ _ _ excerpts

theorem pos_inside (place : e.pos = byteSize before) : e.pos < byteSize (before ++ c :: after) := by
  have wide := Char.utf8Size_pos c
  rw [place, byteSize_append, byteSize_cons]
  omega

theorem pointed (within : e.pos ≤ source.length) (some : source ≠ []) :
    ∃ front b back extra, source = front ++ b :: back ∧ e.pos = front.length + extra ∧ (extra = 0 ∨ back = [] ∧ extra = 1) := by
  rcases Nat.lt_or_eq_of_le within with earlier | last
  · refine ⟨source.take e.pos, source[e.pos], source.drop (e.pos + 1), 0, ?_, ?_, .inl rfl⟩
    · rw [← List.drop_eq_getElem_cons earlier, List.take_append_drop]
    · rw [List.length_take, Nat.min_eq_left within, Nat.add_zero]
  · refine ⟨source.dropLast, source.getLast some, [], 1, (List.dropLast_concat_getLast some).symm, ?_, .inr ⟨rfl, rfl⟩⟩
    have := List.length_pos_of_ne_nil some
    rw [List.length_dropLast, last]
    omega

theorem placeAfter_lineColumn (place : e.pos = byteSize before) (feeds : FeedsOnly before (c :: after)) :
    placeAfter 1 0 before (c :: after) = e.lineColumn (before ++ c :: after) :=
  (placeAfter_feeds feeds .origin).trans (lineColumn_append _ place).symm

theorem reportedAt_lineColumn (c : Char) (after : List Char) (place : e.pos = byteSize before) :
    e.ReportedAt (before ++ c :: after) fileName (e.lineColumn (before ++ c :: after)).1 ((e.lineColumn (before ++ c :: after)).2 + 1) ↔
      (∀ d ∈ before, d.utf8Size = 1) ∧ FeedsOnly before (c :: after) := by
  have inside : e.pos < byteSize (before ++ c :: after) := pos_inside place
  rw [← byteSize_eq_length]
  constructor
  · intro reported
    have within : e.pos ≤ (before ++ c :: after).length := by
      by_contra beyond
      exact report_outside fileName inside (Nat.lt_of_not_le beyond) _ _ reported
    obtain ⟨front, b, back, extra, whole, pos, ends⟩ := pointed within (by simp)
    rw [lineColumn_append _ place, whole] at reported
    rw [whole] at inside
    obtain ⟨line, column⟩ := reported.unique (reportedAt_place fileName pos ends inside)
    have least := length_le_byteSize before
    have later : before.length ≤ front.length := by
      have lengths := congrArg List.length whole
      simp only [List.length_append, List.length_cons] at lengths
      rcases ends with rfl | ⟨rfl, rfl⟩
      · omega
      · simp only [List.length_nil] at lengths
        omega
    obtain ⟨mid, rfl⟩ : before <+: front :=
      List.prefix_of_prefix_length_le (whole ▸ List.prefix_append before (c :: after)) (List.prefix_append front (b :: back)) later
    rw [List.append_assoc] at whole
    obtain ⟨feeds, on⟩ := placeAfter_same_line line.symm
    rw [List.length_append] at pos
    rw [← List.append_cancel_left whole] at feeds
    exact ⟨by omega, feeds⟩
  · rintro ⟨narrow, feeds⟩
    have index : e.pos = before.length + 0 := place.trans narrow
    have shown := reportedAt_place fileName index (.inl rfl) inside
    rwa [Nat.add_zero, placeAfter_lineColumn place feeds] at shown

theorem markedAt_lineColumn (c : Char) (after : List Char) (place : e.pos = byteSize before) :
    e.MarkedAt before c after fileName (e.lineColumn (before ++ c :: after)).1 ((e.lineColumn (before ++ c :: after)).2 + 1) ↔
      (∀ d ∈ before, d.utf8Size = 1) ∧ FeedsOnly before (c :: after) ∧ ∃ d ∈ restOfLine (c :: after), Text.isBlank d = false := by
  have inside : e.pos < byteSize (before ++ c :: after) := pos_inside place
  have marked (narrow : ∀ d ∈ before, d.utf8Size = 1) (feeds : FeedsOnly before (c :: after)) := by
    have shown := markedAt_place fileName (place.trans (byteSize_eq_length.mpr narrow)) inside
    rwa [placeAfter_lineColumn place feeds] at shown
  constructor
  · intro shown
    obtain ⟨narrow, feeds⟩ := (reportedAt_lineColumn fileName c after place).mp shown.reported
    exact ⟨narrow, feeds, (marked narrow feeds).mp shown⟩
  · rintro ⟨narrow, feeds, seen⟩
    exact (marked narrow feeds).mpr seen

end ParseError

theorem parse_error_of_eq {source : String} {e : ParseError}
    (failed : (match parse source with | .ok _ => none | .error e => some e) = some e) : parse source = .error e := by
  split at failed
  · cases failed
  · rename_i read
    rw [read, Option.some.inj failed]

open Report

-- Every error inside the source stands at a character of it. The header of its report names the line and column of the error exactly
-- if all characters before take one byte each and only line feeds end lines there. The report marks the character in that place
-- exactly if, besides, something is to be seen from it to the end of its line.
theorem report_points_at_error (source fileName : String) {e : ParseError} (refused : parse source = .error e)
    (inside : e.pos < byteSize source.toList) :
    ∃ before c after, source.toList = before ++ c :: after ∧ e.pos = byteSize before ∧
      (e.ReportedAt source.toList fileName (e.lineColumn source.toList).1 ((e.lineColumn source.toList).2 + 1) ↔
        (∀ d ∈ before, d.utf8Size = 1) ∧ FeedsOnly before (c :: after)) ∧
      (e.MarkedAt before c after fileName (e.lineColumn source.toList).1 ((e.lineColumn source.toList).2 + 1) ↔
        (∀ d ∈ before, d.utf8Size = 1) ∧ FeedsOnly before (c :: after) ∧ ∃ d ∈ restOfLine (c :: after), Text.isBlank d = false) := by
  have faithful : e.Faithful source.toList := by
    unfold parse at refused
    split at refused
    · cases refused
    · rename_i failed
      cases refused
      exact Parse.body_error (.start source.toList) failed
  obtain ⟨before, rest, split, place, _⟩ := faithful
  cases rest with
  | nil =>
    rw [split, List.append_nil, ← place] at inside
    exact absurd inside (Nat.lt_irrefl _)
  | cons c after =>
    refine ⟨before, c, after, split, place, ?_, ?_⟩
    · rw [split]
      exact ParseError.reportedAt_lineColumn fileName c after place
    · rw [split]
      exact ParseError.markedAt_lineColumn fileName c after place

theorem report_points_at_error_behind_return : ∃ e, parse "f();\r\n  g) é" = .error e ∧ e.pos < byteSize "f();\r\n  g) é".toList ∧
    e.lineColumn "f();\r\n  g) é".toList = (2, 3) ∧ e.ReportedAt "f();\r\n  g) é".toList "a.jsx" 2 4 ∧
    e.MarkedAt "f();\r\n  g".toList ')' [' ', 'é'] "a.jsx" 2 4 := by
  let e : ParseError := .unexpectedToken 9 "expression" ")"
  have failed : parse "f();\r\n  g) é" = .error e := parse_error_of_eq (by decide +kernel)
  have inside : e.pos < byteSize "f();\r\n  g) é".toList := by decide
  have column : e.lineColumn "f();\r\n  g) é".toList = (2, 3) := by decide +kernel
  obtain ⟨before, c, after, split, place, reported, marked⟩ := report_points_at_error "f();\r\n  g) é" "a.jsx" failed inside
  have cut := charsBefore?_append before (c :: after)
  rw [← split, ← place, show charsBefore? e.pos "f();\r\n  g) é".toList = some "f();\r\n  g".toList by decide +kernel] at cut
  obtain rfl := Option.some.inj cut
  have rest : ')' :: [' ', 'é'] = c :: after := List.append_cancel_left (show "f();\r\n  g".toList ++ _ = _ from split)
  obtain ⟨rfl, rfl⟩ := List.cons.inj rest
  rw [column] at reported marked
  have narrow : ∀ d ∈ "f();\r\n  g".toList, d.utf8Size = 1 := byteSize_eq_length.mp (by decide +kernel)
  have feeds : FeedsOnly "f();\r\n  g".toList [')', ' ', 'é'] := by simp [FeedsOnly, BreaksAt, isLineEnd]
  exact ⟨e, failed, inside, column, reported.mpr ⟨narrow, feeds⟩, marked.mpr ⟨narrow, feeds, ')', by decide, by decide⟩⟩

-- Behind a character of two bytes the report points one character too far.
theorem report_misses_error : ∃ e, parse "é) x" = .error e ∧ e.pos = byteSize ['é'] ∧ e.lineColumn "é) x".toList = (1, 1) ∧
    ¬e.ReportedAt "é) x".toList "f" 1 2 ∧ ¬e.MarkedAt ['é'] ')' [' ', 'x'] "f" 1 2 ∧
    e.ReportedAt "é) x".toList "f" 1 3 ∧ e.MarkedAt ['é', ')'] ' ' ['x'] "f" 1 3 := by
  let e : ParseError := .unexpectedToken 2 "expression" ")"
  have failed : parse "é) x" = .error e := parse_error_of_eq (by decide +kernel)
  have place : e.pos = byteSize ['é'] := rfl
  have column : e.lineColumn "é) x".toList = (1, 1) := by decide
  have wide : ¬∀ d ∈ ['é'], d.utf8Size = 1 := mt byteSize_eq_length.mpr (by decide)
  have absent : ¬e.ReportedAt (['é'] ++ ')' :: [' ', 'x']) "f" 1 2 := fun reported => by
    have narrow := ParseError.reportedAt_lineColumn "f" ')' [' ', 'x'] place
    rw [show e.lineColumn (['é'] ++ ')' :: [' ', 'x']) = (1, 1) from column] at narrow
    exact wide (narrow.mp reported).1
  have index : e.pos = ['é', ')'].length := rfl
  have blank : e.MarkedAt ['é', ')'] ' ' ['x'] "f" 1 3 :=
    (ParseError.markedAt_place "f" index (by decide)).mpr ⟨'x', by decide, by decide⟩
  exact ⟨e, failed, place, column, absent, fun marked => absent marked.reported, blank.reported, blank⟩

end MarkupEditor
