import Mathlib.Data.List.Forall2
import Mathlib.Data.List.TakeWhile
import MarkupEditor.Proofs.Markup.Sound

namespace MarkupEditor

namespace Code

theorem cut_at (p : Char → Bool) (cs : List Char) :
    ∃ more, cs = cs.takeWhile p ++ more ∧ (∀ c ∈ cs.takeWhile p, p c = true) ∧ ∀ c ∈ more.head?, p c = false := by
  exact ⟨cs.dropWhile p, List.takeWhile_append_dropWhile.symm, takeRun_all rfl, takeRun_over rfl⟩

theorem trimEnd_cons {m : Char} (blank : Text.isBlank m = false) (y : List Char) : Text.trimEnd (m :: y) = m :: Text.trimEnd y :=
  trimEnd_upTo blank [] y

theorem head_of_trimEnd {cs rest : List Char} {c : Char} (trimmed : Text.trimEnd cs = c :: rest) : cs.head? = some c := by
  have whole := Text.trimEnd_prefix cs
  rw [trimmed] at whole
  obtain ⟨later, rfl⟩ := whole
  rfl

def LineOver (cs : List Char) : Prop :=
  ∃ blank more, cs = blank ++ more ∧ (∀ c ∈ blank, Text.isBlank c = true ∧ c ≠ '\n') ∧
    (more = [] ∨ more.head? = some '\n' ∨ ['/', '/'] <+: more)

theorem lineOver_of_endsLine {cs : List Char} (ended : endsLine cs = true) : LineOver cs := by
  obtain ⟨after, whole, inLine, feeds⟩ := cut_at (fun c => decide (c ≠ '\n')) cs
  rw [endsLine] at ended
  generalize cs.takeWhile (fun c => decide (c ≠ '\n')) = line at whole inLine ended
  obtain ⟨body, cut, blanks, starts⟩ := cut_at Text.isBlank line
  have trimmed : Text.trimStart line = body := List.append_cancel_left ((Text.trimStart_append_takeWhile line).trans cut)
  refine ⟨line.takeWhile Text.isBlank, body ++ after, by rw [← List.append_assoc, ← cut, whole], fun c member => ?_, ?_⟩
  · exact ⟨blanks c member, of_decide_eq_true (inLine c ((List.takeWhile_prefix _).subset member))⟩
  · rw [Text.trim, trimmed] at ended
    cases body with
    | nil =>
      cases after with
      | nil => exact .inl rfl
      | cons c rest => exact .inr (.inl (by simpa using feeds))
    | cons m y =>
      rw [trimEnd_cons (starts m rfl)] at ended
      split at ended
      · rename_i nothing
        cases nothing
      · rename_i rest comment
        obtain ⟨rfl, second⟩ := List.cons.inj comment
        obtain ⟨z, rfl⟩ := List.head?_eq_some_iff.mp (head_of_trimEnd second)
        exact .inr (.inr ⟨z ++ after, rfl⟩)
      · cases ended

theorem endsLine_of_lineOver {cs : List Char} (ended : LineOver cs) : endsLine cs = true := by
  obtain ⟨blank, more, rfl, blanks, after⟩ := ended
  have inLine : ∀ c ∈ blank, decide (c ≠ '\n') = true := fun c member => decide_eq_true (blanks c member).2
  have allBlank : ∀ c ∈ blank, Text.isBlank c = true := fun c member => (blanks c member).1
  have nothing : Text.trim blank = [] := by
    rw [Text.trim, Text.trimStart, List.dropWhile_eq_nil_iff.mpr allBlank]
    rfl
  rw [endsLine, List.takeWhile_append_of_pos inLine]
  obtain rfl | feed | ⟨z, rfl⟩ := after
  · rw [List.takeWhile_nil, List.append_nil, nothing]
  · obtain ⟨rest, rfl⟩ := List.head?_eq_some_iff.mp feed
    rw [List.takeWhile_cons_of_neg (by decide), List.append_nil, nothing]
  · have slash : ∀ y, Text.trim (blank ++ '/' :: y) = '/' :: Text.trimEnd y := fun y => by
      rw [trim_upTo (by decide), List.dropWhile_eq_nil_iff.mpr allBlank, List.nil_append]
    simp only [List.cons_append, List.nil_append]
    rw [List.takeWhile_cons_of_pos (by decide), List.takeWhile_cons_of_pos (by decide), slash, trimEnd_cons (by decide)]
    rfl

theorem endsLine_iff {cs : List Char} : endsLine cs = true ↔ LineOver cs := ⟨lineOver_of_endsLine, endsLine_of_lineOver⟩

theorem tokens_of_next {cs : List Char} {t : Token CodeKind} (found : next cs = some t) : tokens cs = t :: tokens t.rest := by
  rw [tokens]
  split
  · simp_all
  · rename_i u again
    obtain rfl : u = t := Option.some.inj (again.symm.trans found)
    rfl

theorem tokens_of_none {cs : List Char} (ended : next cs = none) : tokens cs = [] := by
  rw [tokens]
  split
  · rfl
  · simp_all

-- What a token adds to the depth of brackets. Brackets are not told apart, and what fits no kind is none.
def weight (t : Token CodeKind) : Int :=
  if t.kind.any CodeKind.opens then 1 else if t.kind.any CodeKind.closes then -1 else 0

def depth : List (Token CodeKind) → Int
  | [] => 0
  | t :: ts => weight t + depth ts

@[simp] theorem depth_append (ts us : List (Token CodeKind)) : depth (ts ++ us) = depth ts + depth us := by
  induction ts with
  | nil => simp [depth]
  | cons t ts ih => simp only [List.cons_append, depth, ih, Int.add_assoc]

-- No bracket closes before it opens, and none is left open.
structure Balanced (ts : List (Token CodeKind)) : Prop where
  within : ∀ before, before <+: ts → 0 ≤ depth before
  level : depth ts = 0

-- A token behind others ends a statement: a semicolon outside brackets, or a brace that closes the last bracket where the
-- line is over.
def EndsStatement (before : List (Token CodeKind)) (t : Token CodeKind) : Prop :=
  depth (before ++ [t]) = 0 ∧ (t.kind = some .semi ∨ t.kind = some .rbrace ∧ LineOver t.rest)

theorem judge_plain {past : List (Token CodeKind)} {d : Nat} {a : Bool} {t : Token CodeKind} (level : depth past = d)
    (plain : t.kind ≠ some .lt) :
    match judge .statement d a t with
    | .goOn d' _ => depth (past ++ [t]) = d' ∧ ¬ EndsStatement past t
    | .stopBefore stop => stop = .stray ∧ depth (past ++ [t]) < 0
    | .stopAfter => EndsStatement past t := by
  have after : depth (past ++ [t]) = d + weight t := by rw [depth_append, level, depth, depth, Int.add_zero]
  simp only [EndsStatement, after, ← endsLine_iff, weight, judge]
  cases kind : t.kind with
  | none => simp
  | some k =>
    have notLt : k ≠ .lt := fun lt => plain (kind.trans (congrArg some lt))
    simp only [notLt, false_and, if_false, Option.any_some]
    by_cases opens : k.opens = true
    · have others : k ≠ .semi ∧ k ≠ .rbrace := by
        constructor <;> (rintro rfl; cases opens)
      simp [opens, others]
    · by_cases closes : k.closes = true
      · have semi : k ≠ .semi := by rintro rfl; cases closes
        cases d with
        | zero => simp [opens, closes]
        | succ d =>
          by_cases last : d = 0 ∧ k = .rbrace ∧ endsLine t.rest = true
          · obtain ⟨rfl, rfl, line⟩ := last
            simp [CodeKind.opens, CodeKind.closes, line]
          · simp only [opens, closes, semi, last, if_true, if_false, true_and, false_or, Option.some.injEq, Bool.false_eq_true]
            exact ⟨by omega, fun ends => last ⟨by omega, ends.2⟩⟩
      · have brace : k ≠ .rbrace := by rintro rfl; exact closes rfl
        by_cases last : k = .semi ∧ d = 0
        · obtain ⟨rfl, rfl⟩ := last
          simp [CodeKind.opens, CodeKind.closes]
        · simp only [opens, closes, brace, last, if_false, and_true, or_false, false_and, Option.some.injEq, Bool.false_eq_true]
          exact ⟨by omega, fun ends => last ⟨ends.2, by omega⟩⟩

-- Behind `past` the tokens go on with one statement: no bracket closes before it opens, and none of them ends the statement.
structure Unbroken (past ts : List (Token CodeKind)) : Prop where
  within : ∀ before, before <+: ts → 0 ≤ depth (past ++ before)
  goesOn : ∀ before t after, ts = before ++ t :: after → ¬ EndsStatement (past ++ before) t

theorem Unbroken.nil {past : List (Token CodeKind)} (within : 0 ≤ depth past) : Unbroken past [] := by
  refine ⟨fun before start => ?_, fun before t after whole => ?_⟩
  · rwa [List.prefix_nil.mp start, List.append_nil]
  · cases before <;> cases whole

theorem Unbroken.cons {past ts : List (Token CodeKind)} {t : Token CodeKind} (within : 0 ≤ depth past) (goesOn : ¬ EndsStatement past t)
    (later : Unbroken (past ++ [t]) ts) : Unbroken past (t :: ts) := by
  refine ⟨fun before start => ?_, fun before u after whole => ?_⟩
  · cases before with
    | nil => rwa [List.append_nil]
    | cons u before =>
      obtain ⟨rfl, further⟩ := List.cons_prefix_cons.mp start
      simpa using later.within before further
  · cases before with
    | nil =>
      obtain ⟨rfl, _⟩ := List.cons.inj whole
      rwa [List.append_nil]
    | cons v before =>
      obtain ⟨rfl, further⟩ := List.cons.inj whole
      simpa using later.goesOn before u after further

theorem Unbroken.left {past ts us : List (Token CodeKind)} (unbroken : Unbroken past (ts ++ us)) : Unbroken past ts := by
  refine ⟨fun before start => unbroken.within before (start.trans (List.prefix_append ..)), fun before t after whole => ?_⟩
  exact unbroken.goesOn before t (after ++ us) (by rw [whole, List.append_assoc, List.cons_append])

-- What a run over code without markup comes to behind `past`: the statement goes on to the end of the text, or up to a token
-- that ends it, or to a bracket that closes none.
inductive RunsOver (past : List (Token CodeKind)) (cs : List Char) : CodeRun → Prop where
  | exhausted {text rest : List Char} {d : Nat} (unbroken : Unbroken past (tokens cs)) (level : depth (past ++ tokens cs) = d)
      (covers : text = (tokens cs).flatMap Token.through) : RunsOver past cs ⟨text, d, .exhausted, [], rest⟩
  | finished {text rest : List Char} (init : List (Token CodeKind)) (last : Token CodeKind) (whole : tokens cs = init ++ [last] ++ tokens rest)
      (unbroken : Unbroken past init) (ends : EndsStatement (past ++ init) last) (covers : text = (init ++ [last]).flatMap Token.through) :
      RunsOver past cs ⟨text, 0, .finished, [], rest⟩
  | stray {text mark rest : List Char} {d : Nat} (init later : List (Token CodeKind)) (last : Token CodeKind)
      (whole : tokens cs = init ++ [last] ++ later) (below : depth (past ++ init ++ [last]) < 0) : RunsOver past cs ⟨text, d, .stray, mark, rest⟩

theorem RunsOver.before {past : List (Token CodeKind)} {cs : List Char} {t : Token CodeKind} {r : CodeRun} (found : next cs = some t)
    (within : 0 ≤ depth past) (goesOn : ¬ EndsStatement past t) (outcome : RunsOver (past ++ [t]) t.rest r) :
    RunsOver past cs (r.before t.through) := by
  have first := tokens_of_next found
  cases outcome with
  | exhausted unbroken level covers =>
    refine .exhausted ?_ ?_ ?_ <;> rw [first]
    · exact .cons within goesOn unbroken
    · simpa using level
    · rw [covers, List.flatMap_cons]
  | finished init last whole unbroken ends covers =>
    refine .finished (t :: init) last (by rw [first, whole]; rfl) (.cons within goesOn unbroken) (by simpa using ends) ?_
    rw [covers]
    rfl
  | stray init later last whole below => exact .stray (t :: init) later last (by rw [first, whole]; rfl) (by simpa using below)

theorem kind_plain {cs : List Char} {t : Token CodeKind} (found : next cs = some t) (plain : '<' ∉ cs) : t.kind ≠ some .lt := by
  intro kind
  obtain ⟨m, text, _, lt, _⟩ := stopper_char found kind (.inl rfl)
  refine plain ?_
  rw [← next_whole found, Token.whole, Token.ahead, text, lt rfl]
  simp

theorem rest_plain {cs : List Char} {t : Token CodeKind} (found : next cs = some t) (plain : '<' ∉ cs) : '<' ∉ t.rest := fun member =>
  plain (by rw [← next_whole found, ← Token.through_append_rest]; exact List.mem_append_right _ member)

theorem run_plain {past : List (Token CodeKind)} {d : Nat} {a : Bool} {cs : List Char} (level : depth past = d) (plain : '<' ∉ cs) :
    RunsOver past cs (run .statement d a cs) := by
  have within : ∀ {past : List (Token CodeKind)} {d : Nat}, depth past = d → 0 ≤ depth past := fun level => level ▸ Int.natCast_nonneg _
  fun_induction run .statement d a cs generalizing past with
  | case1 d a cs ended =>
    refine .exhausted ?_ ?_ ?_ <;> rw [tokens_of_none ended]
    · exact .nil (within level)
    · rwa [List.append_nil]
    · rfl
  | case2 d a cs t found d₁ a₁ verdict ih =>
    have judged := judge_plain (a := a) level (kind_plain found plain)
    rw [verdict] at judged
    exact (ih judged.1 (rest_plain found plain)).before found (within level) judged.2
  | case3 d a cs t found stop verdict =>
    have judged := judge_plain (a := a) level (kind_plain found plain)
    rw [verdict] at judged
    obtain ⟨rfl, below⟩ := judged
    exact .stray [] _ t (tokens_of_next found) (by rwa [List.append_nil])
  | case4 d a cs t found verdict =>
    have judged := judge_plain (a := a) level (kind_plain found plain)
    rw [verdict] at judged
    exact .finished [] t (tokens_of_next found) (.nil (within level)) (by rwa [List.append_nil]) (by simp)

theorem run_ahead {e : CodeEnd} {d : Nat} {a : Bool} {cs : List Char} {t : Token CodeKind} (found : next cs = some t) :
    run e d a cs = (run e d a t.ahead).before t.skipped := by
  have again := next_ahead found
  cases verdict : judge e d a t with
  | goOn d₁ a₁ =>
    rw [run_goOn found verdict, run_goOn again verdict]
    simp [CodeRun.before, Token.through]
  | stopBefore stop =>
    rw [run_stopBefore found verdict, run_stopBefore again verdict]
    simp [CodeRun.before]
  | stopAfter =>
    rw [run_stopAfter found verdict, run_stopAfter again verdict]
    simp [CodeRun.before, Token.through]

def spelled : List (Token CodeKind) → List Char
  | [] => []
  | t :: ts => t.text ++ ts.flatMap Token.through

theorem head_of_whole {cs : List Char} {t last : Token CodeKind} {init later : List (Token CodeKind)} (found : next cs = some t)
    (whole : tokens cs = init ++ [last] ++ later) : (init ++ [last]).head? = some t := by
  have heads := congrArg List.head? (whole.symm.trans (tokens_of_next found))
  cases init <;> exact heads

theorem eq_spelled {t : Token CodeKind} {ts : List (Token CodeKind)} {text : List Char} (first : ts.head? = some t)
    (covers : t.skipped ++ text = ts.flatMap Token.through) : text = spelled ts := by
  obtain ⟨later, rfl⟩ := List.head?_eq_some_iff.mp first
  rw [List.flatMap_cons, Token.through, List.append_assoc] at covers
  exact List.append_cancel_left covers

theorem spelled_ne_nil {cs : List Char} {t : Token CodeKind} {ts : List (Token CodeKind)} (found : next cs = some t)
    (first : ts.head? = some t) : spelled ts ≠ [] := by
  obtain ⟨later, rfl⟩ := List.head?_eq_some_iff.mp first
  exact List.append_ne_nil_of_left_ne_nil (next_text_ne_nil found) _

-- The groups are statements behind `past`: each but the last ends at its last token, and no token before that ends one.
def Divided (past : List (Token CodeKind)) (groups : List (List (Token CodeKind))) : Prop :=
  ∀ done g later, groups = done ++ g :: later → ∃ init last, g = init ++ [last] ∧
    (∀ before t after, init = before ++ t :: after → ¬ EndsStatement (past ++ done.flatten ++ before) t) ∧
    (later ≠ [] → EndsStatement (past ++ done.flatten ++ init) last)

theorem Divided.nil (past : List (Token CodeKind)) : Divided past [] := by
  intro done g later whole
  cases done <;> cases whole

theorem Divided.cons {past init : List (Token CodeKind)} {last : Token CodeKind} {groups : List (List (Token CodeKind))}
    (goesOn : ∀ before t after, init = before ++ t :: after → ¬ EndsStatement (past ++ before) t)
    (ends : groups ≠ [] → EndsStatement (past ++ init) last) (later : Divided (past ++ (init ++ [last])) groups) :
    Divided past ((init ++ [last]) :: groups) := by
  intro done g after whole
  cases done with
  | nil =>
    obtain ⟨rfl, rfl⟩ := List.cons.inj whole
    refine ⟨init, last, rfl, ?_, ?_⟩
    · simpa using goesOn
    · simpa using ends
  | cons first done =>
    obtain ⟨rfl, rfl⟩ := List.cons.inj whole
    simpa using later done g after rfl

-- Code parts that are the statements of some groups of tokens behind `past`, with the layout between them.
structure Stated (past : List (Token CodeKind)) (cs : List Char) (groups : List (List (Token CodeKind))) (ps : List Part) : Prop where
  whole : groups.flatten = tokens cs
  within : ∀ before, before <+: tokens cs → 0 ≤ depth (past ++ before)
  level : depth (past ++ tokens cs) = 0
  divided : Divided past groups
  statements : List.Forall₂ (fun n g => n = .other n.loc [.code (String.ofList (spelled g))]) (ps.filterMap Part.node?) groups
  printed : Print.parts ps = cs

namespace Stated

variable {past init : List (Token CodeKind)} {cs rest : List Char} {t last : Token CodeKind} {groups : List (List (Token CodeKind))}
  {ps : List Part}

theorem nothing (level : depth past = 0) (ended : next cs = none) : Stated past cs [] (Part.ofCode cs) := by
  have empty := tokens_of_none ended
  refine ⟨empty.symm, fun before start => ?_, ?_, .nil past, ?_, Print.parts_ofCode cs⟩
  · rw [empty] at start
    exact Int.le_of_eq (by rw [List.prefix_nil.mp start, List.append_nil, level])
  · rw [empty, List.append_nil, level]
  · rw [filterMap_ofCode]
    exact .nil

theorem cons (found : next cs = some t) (whole : tokens cs = init ++ [last] ++ tokens rest) (unbroken : Unbroken past init)
    (ends : groups ≠ [] → EndsStatement (past ++ init) last) (ahead : t.ahead = spelled (init ++ [last]) ++ rest) (loc : Location)
    (later : Stated (past ++ (init ++ [last])) rest groups ps) :
    Stated past cs ((init ++ [last]) :: groups)
      (Part.ofCode t.skipped ++ .node (.other loc (Part.ofCode (spelled (init ++ [last])))) :: ps) := by
  refine ⟨?_, fun before start => ?_, ?_, .cons unbroken.goesOn ends later.divided, ?_, ?_⟩
  · rw [List.flatten_cons, later.whole, whole]
  · rw [whole] at start
    rcases List.prefix_or_prefix_of_prefix start (List.prefix_append ..) with inside | ⟨further, rfl⟩
    · rcases List.prefix_concat_iff.mp inside with rfl | inside
      · simpa using later.within [] List.nil_prefix
      · exact unbroken.within before inside
    · rw [← List.append_assoc]
      exact later.within further ((List.prefix_append_right_inj _).mp start)
  · rw [whole, ← List.append_assoc]
    exact later.level
  · have one : Part.ofCode (spelled (init ++ [last])) = [.code (String.ofList (spelled (init ++ [last])))] := by
      rw [Part.ofCode, if_neg (mt List.isEmpty_iff.mp (spelled_ne_nil found (head_of_whole found whole)))]
    rw [List.filterMap_append, filterMap_ofCode, one]
    exact .cons rfl later.statements
  · rw [Print.parts_append, Print.parts_ofCode, Print.parts, Print.part, Print.node, Print.parts_ofCode, later.printed, ← ahead]
    exact next_whole found

end Stated

theorem tail_plain {cs text mark rest : List Char} {t : Token CodeKind} (found : next cs = some t) (covered : text ++ (mark ++ rest) = t.ahead)
    (plain : '<' ∉ cs) : '<' ∉ rest := fun member =>
  plain (by rw [← next_whole found, Token.whole, ← covered]; simp [member])

theorem stated_of_reads {c : Cursor} {ps : List Part} (read : ReadsBody c ps) (plain : '<' ∉ c.rest) (past : List (Token CodeKind))
    (level : depth past = 0) : ∃ groups, Stated past c.rest groups ps := by
  induction read generalizing past with
  | done ended => exact ⟨[], .nothing level ended⟩
  | @statement c t ps c₁ more found code later ih =>
    have outcome := run_plain (d := 0) (a := true) level plain
    have covered := run_append .statement 0 true t.ahead
    rw [run_ahead found] at outcome
    cases code with
    | @finished _ _ _ _ text d' mark rest ran =>
      simp only [Cursor.moved] at ran
      rw [ran] at outcome covered
      cases outcome with
      | finished init last whole unbroken ends covers =>
        obtain rfl : text = spelled (init ++ [last]) := eq_spelled (head_of_whole found whole) covers
        obtain ⟨groups, stated⟩ := ih (tail_plain found covered plain) (past ++ (init ++ [last])) (by simpa using ends.1)
        exact ⟨_, .cons found whole unbroken (fun _ => ends) covered.symm _ stated⟩
    | @exhausted _ _ _ text mark rest ran =>
      simp only [Cursor.moved] at ran
      obtain ⟨_, ended⟩ := run_exhausted ran
      rw [ran] at outcome covered
      cases later with
      | statement again => cases ended.symm.trans again
      | done =>
        cases outcome with
        | exhausted unbroken closed covers =>
          obtain empty | ⟨init, last, whole⟩ := List.eq_nil_or_concat' (tokens c.rest)
          · cases (tokens_of_next found).symm.trans empty
          · rw [whole] at unbroken closed covers
            have whole : tokens c.rest = init ++ [last] ++ tokens rest := by rw [whole, tokens_of_none ended, List.append_nil]
            obtain rfl : text = spelled (init ++ [last]) := eq_spelled (head_of_whole found whole) covers
            exact ⟨_, .cons found whole unbroken.left (fun more => absurd rfl more) covered.symm _ (.nothing closed ended)⟩
    | embedded ran =>
      simp only [Cursor.moved] at ran
      rw [ran] at outcome
      cases outcome

theorem reads_of_balanced {c : Cursor} (plain : '<' ∉ c.rest) (past : List (Token CodeKind)) (level : depth past = 0)
    (within : ∀ before, before <+: tokens c.rest → 0 ≤ depth (past ++ before)) (closed : depth (past ++ tokens c.rest) = 0) :
    ∃ ps, ReadsBody c ps := by
  induction size : c.rest.length using Nat.strong_induction_on generalizing past c with
  | _ n ih =>
    cases found : next c.rest with
    | none => exact ⟨_, .done found⟩
    | some t =>
      have outcome := run_plain (d := 0) (a := true) level plain
      rw [run_ahead found] at outcome
      have covered := run_append .statement 0 true t.ahead
      have shorter := run_shorter .statement 0 true (next_ahead found)
      generalize ran : run .statement 0 true t.ahead = r at outcome covered shorter
      obtain ⟨text, d, stop, mark, rest⟩ := r
      cases outcome with
      | exhausted unbroken level covers =>
        obtain rfl : d = 0 := Int.natCast_eq_zero.mp (level.symm.trans closed)
        exact ⟨_, .statement found (.exhausted ran) (.done (run_exhausted ran).2)⟩
      | finished init last whole unbroken ends covers =>
        rw [whole] at within closed
        have less : rest.length < n := by
          have sizes := congrArg List.length (next_whole found)
          simp only [Token.whole, List.length_append] at sizes
          simp only at shorter
          omega
        have later : ∀ before, before <+: tokens rest → 0 ≤ depth (past ++ (init ++ [last]) ++ before) := fun before start => by
          rw [List.append_assoc]
          exact within _ ((List.prefix_append_right_inj _).mpr start)
        obtain ⟨more, read⟩ := ih rest.length less (c := (c.moved t.skipped t.ahead).moved (text ++ []) rest)
          (tail_plain found covered plain) (past ++ (init ++ [last])) (by simpa using ends.1) later (by rwa [List.append_assoc]) rfl
        exact ⟨_, .statement found (.finished ran) read⟩
      | stray init later last whole below =>
        have stands := within (init ++ [last]) ⟨later, whole.symm⟩
        rw [← List.append_assoc] at stands
        exact absurd below (Int.not_lt.mpr stands)

end Code

-- Code without markup is read exactly when its brackets balance. It is printed as it stood then, every statement is one piece
-- of code, and a statement goes on to the first token that ends one.
theorem plain_code_read_iff_balanced {source : String} (plain : '<' ∉ source.toList) :
    ((∃ t, parse source = .ok t) ↔ Code.Balanced (Code.tokens source.toList)) ∧
      ∀ t, parse source = .ok t → t.print = source ∧
        ∃ groups : List (List (Token CodeKind)), groups.flatten = Code.tokens source.toList ∧ Code.Divided [] groups ∧
          List.Forall₂ (fun n g => n = .other n.loc [.code (String.ofList (Code.spelled g))]) t.statements groups := by
  constructor
  · constructor
    · rintro ⟨t, read⟩
      obtain ⟨groups, stated⟩ := Code.stated_of_reads (parse_eq_ok_iff.mp read) plain [] rfl
      exact ⟨stated.within, stated.level⟩
    -- The reader is not asked: balanced tokens are a derivation by the rules, and what the rules allow is accepted.
    · rintro ⟨within, level⟩
      obtain ⟨ps, read⟩ := Code.reads_of_balanced (c := .ofText source.toList) plain [] rfl within level
      exact ⟨⟨ps⟩, parse_eq_ok_iff.mpr read⟩
  · intro t read
    obtain ⟨groups, stated⟩ := Code.stated_of_reads (parse_eq_ok_iff.mp read) plain [] rfl
    refine ⟨?_, groups, stated.whole, stated.divided, stated.statements⟩
    rw [SourceTree.print, stated.printed]
    exact String.ofList_toList

-- Brackets in a string, a comment and a template, and two braces that close the last bracket: behind the first the line goes
-- on, behind the second there is a line comment.
def bracketed : String := "if (a) \x7b f(')') \x7d else \x7b [1 /* ( */] \x7d // b\ng();\nlet é = `\x7b;`"

theorem plain_code_read_bracketed :
    '<' ∉ bracketed.toList ∧ Code.Balanced (Code.tokens bracketed.toList) ∧
      ∃ t, parse bracketed = .ok t ∧ t.print = bracketed ∧
        t.statements.map Node.print = ["if (a) \x7b f(')') \x7d else \x7b [1 /* ( */] \x7d", "g();", "let é = `\x7b;`"] := by
  have plain : '<' ∉ bracketed.toList := by decide +kernel
  have cut : (parse bracketed).toOption.map (fun t => t.statements.map Node.print) =
      some ["if (a) \x7b f(')') \x7d else \x7b [1 /* ( */] \x7d", "g();", "let é = `\x7b;`"] := by
    decide +kernel
  obtain ⟨accepted, shape⟩ := plain_code_read_iff_balanced plain
  cases read : parse bracketed with
  | error e => rw [read] at cut; cases cut
  | ok t =>
    rw [read] at cut
    exact ⟨plain, accepted.mp ⟨t, read⟩, t, rfl, (shape t read).1, Option.some.inj cut⟩

end MarkupEditor
