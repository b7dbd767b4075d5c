import MarkupEditor.Markup.CodeRun
import MarkupEditor.Proofs.Markup.TokenRules

namespace MarkupEditor

namespace Code

-- Two texts that a scan cannot tell apart by looking ahead.
structure SameStart (r r' : List Char) : Prop where
  head : r.head? = r'.head?
  second : r.head? = some '\\' ∨ r.head? = some '*' → r.tail.head? = r'.tail.head?

theorem takeRun_again {p : Char → Bool} {cs r' : List Char} (head : (takeRun p cs).2.head? = r'.head?) :
    takeRun p ((takeRun p cs).1 ++ r') = ((takeRun p cs).1, r') :=
  takeRun_exact (takeRun_all rfl) fun c first => takeRun_over rfl c (head.trans first)

theorem quotedBody_again {mark : Char} {cs body r r' : List Char} (read : quotedBody mark cs = (body, r))
    (same : SameStart r r') : quotedBody mark (body ++ r') = (body, r') := by
  obtain ⟨head, second⟩ := same
  fun_induction quotedBody mark cs generalizing body r with
  | case1 =>
    cases read
    obtain rfl : r' = [] := by simpa using head.symm
    rfl
  | case2 =>
    cases read
    obtain ⟨s, rfl⟩ := List.head?_eq_some_iff.mp head.symm
    obtain rfl : s = [] := by simpa using (second (.inl rfl)).symm
    rfl
  | case3 cs =>
    cases read
    obtain ⟨s, rfl⟩ := List.head?_eq_some_iff.mp head.symm
    obtain ⟨s', rfl⟩ := List.head?_eq_some_iff.mp (second (.inl rfl)).symm
    simp [quotedBody]
  | case4 c cs inside body' rest eq ih =>
    cases read
    simp [quotedBody, inside, ih eq head second]
  | case5 c cs alone followed stops =>
    cases read
    have plain := ne_of_unmatched alone followed
    obtain ⟨s, rfl⟩ := List.head?_eq_some_iff.mp head.symm
    rw [List.nil_append, quotedBody, if_pos stops]
    all_goals simp [plain]
  | case6 c cs alone followed inside body' rest eq ih =>
    cases read
    have plain := ne_of_unmatched alone followed
    rw [List.cons_append, quotedBody, if_neg inside, ih eq head second]
    all_goals simp [plain]

theorem commentBody_again {cs body r r' : List Char} (read : commentBody cs = (body, r))
    (same : SameStart r r') : commentBody (body ++ r') = (body, r') := by
  obtain ⟨head, second⟩ := same
  fun_induction commentBody cs generalizing body r with
  | case1 =>
    cases read
    obtain rfl : r' = [] := by simpa using head.symm
    rfl
  | case2 =>
    cases read
    obtain ⟨s, rfl⟩ := List.head?_eq_some_iff.mp head.symm
    obtain rfl : s = [] := by simpa using (second (.inr rfl)).symm
    rfl
  | case3 cs =>
    cases read
    obtain ⟨s, rfl⟩ := List.head?_eq_some_iff.mp head.symm
    obtain ⟨s', rfl⟩ := List.head?_eq_some_iff.mp (second (.inr rfl)).symm
    simp [commentBody]
  | case4 c cs inside body' rest eq ih =>
    cases read
    simp [commentBody, inside, ih eq head second]
  | case5 c cs alone followed body' rest eq ih =>
    cases read
    have plain := ne_of_unmatched alone followed
    rw [List.cons_append, commentBody, ih eq head second]
    all_goals simp [plain]

theorem commentBody_open {cs body r : List Char} (read : commentBody cs = (body, r)) :
    r = [] ∨ r = ['*'] ∨ ∃ s, r = '*' :: '/' :: s := by
  fun_induction commentBody cs generalizing body r with
  | case1 =>
    cases read
    exact .inl rfl
  | case2 =>
    cases read
    exact .inr (.inl rfl)
  | case3 cs =>
    cases read
    exact .inr (.inr ⟨cs, rfl⟩)
  | case4 c cs inside body' rest eq ih =>
    cases read
    exact ih eq
  | case5 c cs alone followed body' rest eq ih =>
    cases read
    exact ih eq

theorem trivia?_again {cs piece r r' : List Char} (found : trivia? cs = some (piece, r)) (head : r.head? = r'.head?) :
    trivia? (piece ++ r') = some (piece, r') := by
  unfold trivia? at found
  split at found
  · rename_i line
    obtain ⟨rfl, rfl⟩ := Prod.mk.inj (Option.some.inj found)
    have again : takeRun _ (line.takeWhile _ ++ r') = _ := takeRun_again head
    simp only [List.cons_append, trivia?, again]
    rfl
  · rename_i inside
    split at found
    · rename_i body rest closed
      cases Option.some.inj found
      have again : commentBody (body ++ '*' :: '/' :: r') = _ := commentBody_again closed ⟨rfl, fun _ => rfl⟩
      simp only [List.cons_append, List.append_assoc, List.nil_append, trivia?]
      rw [again]
      rfl
    · cases found
  · rename_i c cs notLine notComment
    split at found
    · rename_i layout
      cases Option.some.inj found
      have ne : c ≠ '/' := by
        rintro rfl
        exact absurd layout (by decide)
      simp [trivia?, ne, layout]
    · cases found
  · cases found

theorem quoted_again {kind : CodeKind} {mark : Char} {cs r' : List Char} (escape : mark ≠ '\\') (star : mark ≠ '*')
    (same : SameStart (quoted kind mark cs).rest r') :
    ∃ rest, (quoted kind mark cs).text ++ r' = mark :: rest ∧
      quoted kind mark rest = { quoted kind mark cs with rest := r' } := by
  unfold quoted at same ⊢
  cases read : quotedBody mark cs with
  | mk body r =>
    simp only [read] at same ⊢
    cases r with
    | nil =>
      have again := quotedBody_again read same
      refine ⟨body ++ r', rfl, ?_⟩
      obtain rfl : r' = [] := by simpa using same.head.symm
      simp only [again]
    | cons c rest =>
      dsimp only at same ⊢
      split at same
      · rename_i closed
        subst closed
        have again : quotedBody c (body ++ c :: r') = _ := quotedBody_again read ⟨rfl, by simp [escape, star]⟩
        refine ⟨body ++ c :: r', by simp, ?_⟩
        simp [again]
      · rename_i unclosed
        have again := quotedBody_again read same
        obtain ⟨s, rfl⟩ := List.head?_eq_some_iff.mp same.head.symm
        refine ⟨body ++ c :: s, by simp [unclosed], ?_⟩
        simp [again, unclosed]

theorem lexeme_slash {cs : List Char} (plain : cs.head? ≠ some '*') : lexeme '/' cs = ⟨some .punct, ['/'], cs⟩ := by
  cases cs with
  | nil => rfl
  | cons c cs =>
    have star : c ≠ '*' := fun same => plain (by rw [same]; rfl)
    have name : isNameStart '/' = false := by decide
    have digit : '/'.isDigit = false := by decide
    simp [lexeme, name, digit, star, CodeKind.ofChar?]

theorem lexeme_again {c : Char} {cs r' : List Char} (same : SameStart (lexeme c cs).rest r') :
    ∃ rest, (lexeme c cs).text ++ r' = c :: rest ∧ lexeme c rest = { lexeme c cs with rest := r' } := by
  unfold lexeme at same ⊢
  by_cases name : isNameStart c
  · simp only [name, if_true] at same ⊢
    exact ⟨_, rfl, by simp only [List.append_eq, takeRun_again same.head]⟩
  by_cases digit : c.isDigit
  · simp only [name, digit, if_true, if_false, Bool.false_eq_true] at same ⊢
    exact ⟨_, rfl, by simp only [List.append_eq, takeRun_again same.head]⟩
  by_cases string : c = '"' ∨ c = '\''
  · simp only [name, digit, string, if_true, if_false, Bool.false_eq_true] at same ⊢
    exact quoted_again (by rcases string with rfl | rfl <;> decide) (by rcases string with rfl | rfl <;> decide) same
  by_cases template : c = '\x60'
  · simp only [name, digit, string, if_pos template, if_false, Bool.false_eq_true] at same ⊢
    exact quoted_again (by rw [template]; decide) (by rw [template]; decide) same
  simp only [name, digit, string, template, if_false, Bool.false_eq_true] at same ⊢
  split at same
  · rename_i inside
    have again := commentBody_again (show commentBody inside = ((commentBody inside).1, (commentBody inside).2) from rfl) same
    refine ⟨'*' :: ((commentBody inside).1 ++ r'), rfl, ?_⟩
    simp only [again]
  · rename_i c cs plain
    refine ⟨r', rfl, ?_⟩
    split
    · rename_i inside
      obtain ⟨s, rfl⟩ := List.head?_eq_some_iff.mp same.head
      exact absurd rfl (plain s rfl)
    · rfl

theorem SameStart.eq_of_open {r r' : List Char} (same : SameStart r r') (left : r = [] ∨ r = ['*']) : r' = r := by
  rcases left with rfl | rfl
  · simpa using same.head.symm
  · obtain ⟨s, rfl⟩ := List.head?_eq_some_iff.mp same.head.symm
    obtain rfl : s = [] := by simpa using (same.second (.inr rfl)).symm
    rfl

theorem trivia?_lexeme {c : Char} {cs r' : List Char} (nothing : trivia? (c :: cs) = none)
    (same : SameStart (lexeme c cs).rest r') : trivia? ((lexeme c cs).text ++ r') = none := by
  by_cases slash : c = '/'
  · subst slash
    by_cases comment : ∃ inside, cs = '*' :: inside
    · obtain ⟨inside, rfl⟩ := comment
      have left : (commentBody inside).2 = [] ∨ (commentBody inside).2 = ['*'] := by
        rcases commentBody_open (show commentBody inside = ((commentBody inside).1, (commentBody inside).2) from rfl) with
          h | h | ⟨s, h⟩
        · exact .inl h
        · exact .inr h
        · have closed : commentBody inside = ((commentBody inside).1, '*' :: '/' :: s) := by rw [← h]
          simp only [trivia?] at nothing
          rw [closed] at nothing
          cases nothing
      rw [same.eq_of_open left, lexeme_append]
      exact nothing
    · have plain : cs.head? ≠ some '*' := fun h => comment (List.head?_eq_some_iff.mp h)
      rw [lexeme_slash plain] at same ⊢
      have line : cs.head? ≠ some '/' := by
        intro h
        obtain ⟨rest, rfl⟩ := List.head?_eq_some_iff.mp h
        cases nothing
      rw [same.head] at plain line
      cases r' with
      | nil => rfl
      | cons d ds =>
        simp only [List.head?_cons, ne_eq, Option.some.injEq] at plain line
        simp [trivia?, plain, line, isLayout]
  · obtain ⟨rest, whole, _⟩ := lexeme_again same
    have layout : isLayout c = false := by
      simpa [trivia?, slash] using nothing
    rw [whole]
    simp [trivia?, slash, layout]

theorem next_direct {c : Char} {cs : List Char} (nothing : trivia? (c :: cs) = none) : next (c :: cs) = some ⟨lexeme c cs, []⟩ := by
  rw [next, skip_none nothing]

theorem next_spaced {c : Char} {cs : List Char} (nothing : trivia? (c :: cs) = none) :
    next (' ' :: c :: cs) = some ⟨lexeme c cs, [' ']⟩ := by
  have space : trivia? (' ' :: c :: cs) = some ([' '], c :: cs) := rfl
  rw [next, skip_some space, skip_none nothing]
  rfl

theorem next_nil : next [] = none := by
  rw [next, skip_none rfl]

theorem skip_again {cs skipped r r' : List Char} (read : skip cs = (skipped, r)) (head : r.head? = r'.head?)
    (nothing : trivia? r' = none) : skip (skipped ++ r') = (skipped, r') := by
  fun_induction skip cs generalizing skipped r with
  | case1 cs piece rest found more rest' eq ih =>
    cases read
    have whole := skip_append rest
    rw [eq] at whole
    have heads : rest.head? = (more ++ r').head? := by
      rw [← whole]
      cases more with
      | nil => exact head
      | cons => rfl
    rw [List.append_assoc, skip_some (trivia?_again found heads), ih eq head]
  | case2 cs found =>
    cases read
    exact skip_none nothing

theorem next_again {cs r' : List Char} {t : Token CodeKind} (found : next cs = some t) (same : SameStart t.rest r') :
    next (t.through ++ r') = some { t with rest := r' } := by
  have nothing := skip_trivia cs
  unfold next at found
  split at found
  · cases found
  · rename_i skipped c rest read
    cases Option.some.inj found
    rw [read] at nothing
    obtain ⟨rest', whole, again⟩ := lexeme_again same
    have clean := trivia?_lexeme nothing same
    rw [whole] at clean
    have skips : skip (skipped ++ c :: rest') = _ := skip_again read rfl clean
    simp only [Token.through, List.append_assoc, whole]
    simp [next, skips, again]

theorem lexeme_single {c : Char} {cs : List Char} {k : CodeKind} (kind : (lexeme c cs).kind = some k)
    (stops : k = .lt ∨ k.closes ∨ k = .semi) : CodeKind.ofChar? c = some k ∧ (lexeme c cs).text = [c] := by
  have spelled := lexeme_spelled kind
  have whole := lexeme_append c cs
  generalize (lexeme c cs).text = text, (lexeme c cs).rest = rest at spelled whole
  cases spelled with
  | ident | number | string | template => simp [CodeKind.closes] at stops
  | single single =>
    obtain ⟨rfl, _⟩ := List.cons.inj whole
    exact ⟨single, rfl⟩

def isStopper (c : Char) : Bool := c == '<' || c == '}' || c == ')' || c == ']' || c == ';'

theorem ofChar?_stopper {c : Char} {k : CodeKind} (kind : CodeKind.ofChar? c = some k) (stops : k = .lt ∨ k.closes ∨ k = .semi) :
    isStopper c ∧ (k = .lt → c = '<') ∧ (k = .rbrace → c = '}') := by
  unfold CodeKind.ofChar? at kind
  split at kind <;> (try cases kind) <;> (try simp_all [CodeKind.closes, isStopper])
  obtain ⟨_, rfl⟩ := kind
  simp at stops

theorem stopper_char {cs : List Char} {t : Token CodeKind} {k : CodeKind} (found : next cs = some t) (kind : t.kind = some k)
    (stops : k = .lt ∨ k.closes ∨ k = .semi) :
    ∃ m, t.text = [m] ∧ isStopper m ∧ (k = .lt → m = '<') ∧ (k = .rbrace → m = '}') := by
  unfold next at found
  split at found
  · cases found
  · rename_i skipped c rest read
    cases Option.some.inj found
    obtain ⟨char, text⟩ := lexeme_single kind stops
    obtain ⟨stopper, lt, brace⟩ := ofChar?_stopper char stops
    exact ⟨c, text, stopper, lt, brace⟩

theorem isStopper_iff (c : Char) : isStopper c ↔ c = '<' ∨ c = '}' ∨ c = ')' ∨ c = ']' ∨ c = ';' := by
  simp [isStopper, or_assoc]

theorem sameStart_upTo {m : Char} (stopper : isStopper m) (c y y' : List Char) : SameStart (c ++ m :: y) (c ++ m :: y') := by
  have plain : m ≠ '\\' ∧ m ≠ '*' := by
    constructor <;> (rintro rfl; exact absurd stopper (by decide))
  match c with
  | [] => exact ⟨rfl, by simp [plain.1, plain.2]⟩
  | [_] => exact ⟨rfl, fun _ => rfl⟩
  | _ :: _ :: _ => exact ⟨rfl, fun _ => rfl⟩

theorem dropWhile_upTo {p : Char → Bool} {m : Char} (fails : p m = false) (c y : List Char) :
    (c ++ m :: y).dropWhile p = c.dropWhile p ++ m :: y := by
  induction c with
  | nil => simp [fails]
  | cons a c ih =>
    by_cases h : p a
    · simp [h, ih]
    · simp [h]

theorem trimEnd_upTo {m : Char} (blank : Text.isBlank m = false) (c y : List Char) :
    Text.trimEnd (c ++ m :: y) = c ++ m :: Text.trimEnd y := by
  simp only [Text.trimEnd, dropWhile_upTo blank, List.reverse_append, List.reverse_cons, List.append_assoc, List.singleton_append,
    List.reverse_reverse]

theorem trim_upTo {m : Char} (blank : Text.isBlank m = false) (c y : List Char) :
    Text.trim (c ++ m :: y) = c.dropWhile Text.isBlank ++ m :: Text.trimEnd y := by
  rw [Text.trim, Text.trimStart, dropWhile_upTo blank, trimEnd_upTo blank]

theorem endsLine_upTo {m : Char} (stopper : isStopper m) (c y y' : List Char) :
    endsLine (c ++ m :: y) = endsLine (c ++ m :: y') := by
  have blank : Text.isBlank m = false := by
    rcases (isStopper_iff m).mp stopper with rfl | rfl | rfl | rfl | rfl <;> decide
  have slash : m ≠ '/' := by rintro rfl; exact absurd stopper (by decide)
  have feed : m ≠ '\n' := by rintro rfl; exact absurd stopper (by decide)
  unfold endsLine
  rw [List.takeWhile_append, List.takeWhile_append]
  by_cases open_ : (c.takeWhile (fun x => decide (x ≠ '\n'))).length = c.length
  · have kept : ∀ z, (m :: z).takeWhile (fun x => decide (x ≠ '\n')) = m :: z.takeWhile (fun x => decide (x ≠ '\n')) := by
      intro z
      simp [feed]
    rw [if_pos open_, if_pos open_, kept, kept, trim_upTo blank, trim_upTo blank]
    match c.dropWhile Text.isBlank with
    | [] => simp [slash]
    | [a] => simp [slash]
    | a :: b :: d =>
      by_cases comment : a = '/' ∧ b = '/'
      · obtain ⟨rfl, rfl⟩ := comment
        rfl
      · simp only [List.cons_append]
        split <;> simp_all
  · rw [if_neg open_, if_neg open_]

theorem startsMarkup_eq {y y' : List Char} (head : y.head? = y'.head?) : startsMarkup y = startsMarkup y' := by
  cases y <;> cases y' <;> simp_all [startsMarkup]

-- What a token means to a run depends on the text after it only where a tag may open or a line may end.
theorem judge_again {e : CodeEnd} {d : Nat} {a : Bool} {t : Token CodeKind} {rest : List Char}
    (starts : t.kind = some .lt → startsMarkup t.rest = startsMarkup rest)
    (ends : e = .statement → t.kind = some .rbrace → endsLine t.rest = endsLine rest) :
    judge e d a { t with rest } = judge e d a t := by
  have allows : allowsMarkup { t with rest } = allowsMarkup t := rfl
  simp only [judge, allows]
  cases kind : t.kind with
  | none => rfl
  | some k =>
    by_cases lt : k = .lt
    · subst lt
      simp only [starts kind, CodeKind.opens, CodeKind.closes]
      rfl
    · by_cases brace : k = .rbrace
      · subst brace
        cases e with
        | statement => simp only [ends rfl kind, lt, false_and, if_false]
        | brace => simp
      · simp [lt, brace]

theorem judge_stopBefore {e : CodeEnd} {d : Nat} {a : Bool} {t : Token CodeKind} {stop : RunStop}
    (verdict : judge e d a t = .stopBefore stop) :
    (stop = .markup ∧ t.kind = some .lt ∧ a = true ∧ startsMarkup t.rest) ∨
      ∃ k, t.kind = some k ∧ k.closes ∧ d = 0 ∧ stop = if e = .brace ∧ k = .rbrace then .finished else .stray := by
  unfold judge at verdict
  split at verdict
  · cases verdict
  · rename_i k kind
    split at verdict
    · rename_i opens
      cases verdict
      obtain ⟨rfl, allowed, starts⟩ := opens
      exact .inl ⟨rfl, kind, allowed, starts⟩
    · split at verdict
      · cases verdict
      · split at verdict
        · rename_i closes
          split at verdict
          · cases verdict
            exact .inr ⟨k, kind, closes, rfl, rfl⟩
          · split at verdict <;> cases verdict
        · split at verdict <;> cases verdict

theorem judge_stopAfter {e : CodeEnd} {d : Nat} {a : Bool} {t : Token CodeKind} (verdict : judge e d a t = .stopAfter) :
    e = .statement ∧ ∃ k, t.kind = some k ∧ (k = .semi ∨ k = .rbrace ∧ endsLine t.rest) := by
  unfold judge at verdict
  split at verdict
  · cases verdict
  · rename_i k kind
    split at verdict
    · cases verdict
    · split at verdict
      · cases verdict
      · split at verdict
        · split at verdict
          · cases verdict
          · split at verdict
            · rename_i ends
              exact ⟨ends.2.1, k, kind, .inr ⟨ends.2.2.1, ends.2.2.2⟩⟩
            · cases verdict
        · split at verdict
          · rename_i ends
            exact ⟨ends.2.2, k, kind, .inl ends.1⟩
          · cases verdict

theorem stopBefore_char {e : CodeEnd} {d : Nat} {a : Bool} {cs : List Char} {t : Token CodeKind} {stop : RunStop}
    (found : next cs = some t) (verdict : judge e d a t = .stopBefore stop) : ∃ m, t.text = [m] ∧ isStopper m := by
  rcases judge_stopBefore verdict with ⟨_, kind, _⟩ | ⟨k, kind, closes, _⟩
  · obtain ⟨m, text, stopper, _⟩ := stopper_char found kind (.inl rfl)
    exact ⟨m, text, stopper⟩
  · obtain ⟨m, text, stopper, _⟩ := stopper_char found kind (.inr (.inl closes))
    exact ⟨m, text, stopper⟩

theorem stopAfter_char {e : CodeEnd} {d : Nat} {a : Bool} {cs : List Char} {t : Token CodeKind} (found : next cs = some t)
    (verdict : judge e d a t = .stopAfter) : ∃ m, t.text = [m] ∧ isStopper m := by
  obtain ⟨_, k, kind, ends⟩ := judge_stopAfter verdict
  obtain ⟨m, text, stopper, _⟩ := stopper_char found kind (by rcases ends with rfl | ⟨rfl, _⟩ <;> simp [CodeKind.closes])
  exact ⟨m, text, stopper⟩

structure Stopped (e : CodeEnd) (r : CodeRun) (c : List Char) (m : Char) : Prop where
  last : r.text ++ r.mark = c ++ [m]
  stopper : isStopper m
  markup : r.stop = .markup → r.mark = ['<'] ∧ startsMarkup r.rest
  finished : r.stop = .finished → (e = .brace ∧ r.mark = ['}']) ∨ (e = .statement ∧ r.mark = [] ∧ r.depth = 0)

theorem run_stopped {e : CodeEnd} {d : Nat} {a : Bool} {cs : List Char} (stops : (run e d a cs).stop ≠ .exhausted) :
    ∃ c m, Stopped e (run e d a cs) c m := by
  fun_induction run e d a cs with
  | case1 => exact absurd rfl stops
  | case2 d a cs t found d₁ a₁ verdict ih =>
    obtain ⟨c, m, last, stopper, markup, finished⟩ := ih stops
    exact ⟨t.through ++ c, m, by simp [CodeRun.before, last], stopper, markup, finished⟩
  | case3 d a cs t found stop verdict =>
    rcases judge_stopBefore verdict with ⟨rfl, kind, _, starts⟩ | ⟨k, kind, closes, _, rfl⟩
    · obtain ⟨m, text, stopper, lt, _⟩ := stopper_char found kind (.inl rfl)
      obtain rfl := lt rfl
      exact ⟨t.skipped, '<', by simp [text], stopper, fun _ => ⟨text, starts⟩, (fun h => by cases h)⟩
    · obtain ⟨m, text, stopper, _, brace⟩ := stopper_char found kind (.inr (.inl closes))
      refine ⟨t.skipped, m, by simp [text], stopper, fun h => ?_, fun h => ?_⟩
      · dsimp only at h
        split at h <;> cases h
      · dsimp only at h
        split at h
        · rename_i ends
          exact .inl ⟨ends.1, by rw [text, brace ends.2]⟩
        · cases h
  | case4 d a cs t found verdict =>
    obtain ⟨statement, _⟩ := judge_stopAfter verdict
    obtain ⟨m, text, stopper⟩ := stopAfter_char found verdict
    exact ⟨t.skipped, m, by simp [Token.through, text], stopper, (fun h => by cases h), fun _ => .inr ⟨statement, rfl, rfl⟩⟩

section

variable {e : CodeEnd} {d : Nat} {a : Bool} {cs : List Char} {t : Token CodeKind}

theorem run_goOn {d₁ : Nat} {a₁ : Bool} (found : next cs = some t) (verdict : judge e d a t = .goOn d₁ a₁) :
    run e d a cs = (run e d₁ a₁ t.rest).before t.through := by
  rw [run]
  split
  · simp_all
  · rename_i u again
    obtain rfl : u = t := Option.some.inj (again.symm.trans found)
    rw [verdict]

theorem run_stopBefore {stop : RunStop} (found : next cs = some t) (verdict : judge e d a t = .stopBefore stop) :
    run e d a cs = ⟨t.skipped, d, stop, t.text, t.rest⟩ := by
  rw [run]
  split
  · simp_all
  · rename_i u again
    obtain rfl : u = t := Option.some.inj (again.symm.trans found)
    rw [verdict]

theorem run_stopAfter (found : next cs = some t) (verdict : judge e d a t = .stopAfter) :
    run e d a cs = ⟨t.through, 0, .finished, [], t.rest⟩ := by
  rw [run]
  split
  · simp_all
  · rename_i u again
    obtain rfl : u = t := Option.some.inj (again.symm.trans found)
    rw [verdict]

end

theorem next_stopper {cs : List Char} {t : Token CodeKind} {m : Char} (found : next cs = some t) (text : t.text = [m])
    (stopper : isStopper m) (rest : List Char) : next (t.through ++ rest) = some { t with rest } := by
  have nothing := skip_trivia cs
  unfold next at found
  split at found
  · cases found
  · rename_i skipped c after read
    cases Option.some.inj found
    have single : ∀ rest, lexeme c rest = ⟨CodeKind.ofChar? c, [c], rest⟩ ∧ trivia? (c :: rest) = none := by
      obtain rfl : c = m := by
        have whole := lexeme_append c after
        rw [text] at whole
        exact (List.cons.inj whole).1.symm
      rcases (isStopper_iff c).mp stopper with rfl | rfl | rfl | rfl | rfl <;> exact fun _ => ⟨rfl, rfl⟩
    have skips : skip (skipped ++ c :: rest) = _ := skip_again read rfl (single rest).2
    simp [Token.through, (single after).1, next, skips, (single rest).1]

theorem run_again {e : CodeEnd} {d : Nat} {a : Bool} {cs : List Char} (rest : List Char) (stops : (run e d a cs).stop ≠ .exhausted)
    (markup : (run e d a cs).stop = .markup → startsMarkup rest)
    (line : e = .statement → (run e d a cs).stop = .finished → endsLine (run e d a cs).rest = endsLine rest) :
    run e d a ((run e d a cs).text ++ ((run e d a cs).mark ++ rest)) = { run e d a cs with rest } := by
  fun_induction run e d a cs with
  | case1 => exact absurd rfl stops
  | case2 d a cs t found d₁ a₁ verdict ih =>
    -- The run goes on behind the token. The text up to its stop looks the same from the token on, so the token is found
    -- again.
    obtain ⟨c, m, last, stopper, _, _⟩ := run_stopped (show (run e d₁ a₁ t.rest).stop ≠ _ from stops)
    have whole := run_append e d₁ a₁ t.rest
    rw [← List.append_assoc, last, List.append_assoc, List.singleton_append] at whole
    have text : (run e d₁ a₁ t.rest).text ++ ((run e d₁ a₁ t.rest).mark ++ rest) = c ++ m :: rest := by
      rw [← List.append_assoc, last, List.append_assoc, List.singleton_append]
    have again := ih stops markup line
    rw [text] at again
    have token := next_again found (whole ▸ sameStart_upTo stopper c _ rest)
    have same : judge e d a { t with rest := c ++ m :: rest } = judge e d a t :=
      judge_again (fun _ => startsMarkup_eq (by rw [← whole]; exact (sameStart_upTo stopper c _ rest).head))
        (fun _ _ => by rw [← whole]; exact endsLine_upTo stopper c _ rest)
    simp only [CodeRun.before, List.append_assoc, text]
    rw [run_goOn token (same.trans verdict), again]
    rfl
  | case3 d a cs t found stop verdict =>
    obtain ⟨m, text, stopper⟩ := stopBefore_char found verdict
    have token := next_stopper found text stopper rest
    rw [Token.through, List.append_assoc] at token
    refine run_stopBefore token (.trans ?_ verdict)
    rcases judge_stopBefore verdict with ⟨rfl, kind, _, starts⟩ | ⟨k, kind, closes, rfl, rfl⟩
    · refine judge_again (fun _ => starts.trans (markup rfl).symm) (fun _ brace => ?_)
      rw [kind] at brace
      cases brace
    · unfold judge
      dsimp only
      cases k <;> simp_all [CodeKind.closes, CodeKind.opens]
  | case4 d a cs t found verdict =>
    obtain ⟨statement, k, kind, ends⟩ := judge_stopAfter verdict
    obtain ⟨m, text, stopper⟩ := stopAfter_char found verdict
    refine run_stopAfter (next_stopper found text stopper rest) (.trans (judge_again ?_ ?_) verdict)
    · intro lt
      rw [kind] at lt
      rcases ends with rfl | ⟨rfl, _⟩ <;> cases lt
    · exact fun _ _ => line statement rfl

section

variable {d d' : Nat} {a : Bool} {cs text mark rest : List Char}

theorem run_markup {e : CodeEnd} (ran : run e d a cs = ⟨text, d', .markup, mark, rest⟩) :
    mark = ['<'] ∧ startsMarkup rest ∧
      ∀ y, startsMarkup y → run e d a (text ++ '<' :: y) = ⟨text, d', .markup, ['<'], y⟩ := by
  have stops : (run e d a cs).stop ≠ .exhausted := by simp [ran]
  obtain ⟨c, m, _, _, opened, _⟩ := run_stopped stops
  rw [ran] at opened
  obtain ⟨rfl, starts⟩ := opened rfl
  refine ⟨rfl, starts, fun y opens => ?_⟩
  have again := run_again y stops
    (fun _ => opens) (by rw [ran]; intro _ h; cases h)
  rwa [ran] at again

theorem run_brace (ran : run .brace d a cs = ⟨text, d', .finished, mark, rest⟩) :
    mark = ['}'] ∧ ∀ y, run .brace d a (text ++ '}' :: y) = ⟨text, d', .finished, ['}'], y⟩ := by
  have stops : (run .brace d a cs).stop ≠ .exhausted := by simp [ran]
  obtain ⟨c, m, _, _, _, finished⟩ := run_stopped stops
  rw [ran] at finished
  obtain ⟨_, rfl⟩ | ⟨other, _⟩ := finished rfl
  · refine ⟨rfl, fun y => ?_⟩
    have again := run_again y stops
      (by rw [ran]; intro h; cases h) (by intro h; cases h)
    rwa [ran] at again
  · cases other

theorem run_statement (ran : run .statement d a cs = ⟨text, d', .finished, mark, rest⟩) :
    mark = [] ∧ d' = 0 ∧ ∀ y, endsLine rest = endsLine y → run .statement d a (text ++ y) = ⟨text, 0, .finished, [], y⟩ := by
  have stops : (run .statement d a cs).stop ≠ .exhausted := by simp [ran]
  obtain ⟨c, m, _, _, _, finished⟩ := run_stopped stops
  rw [ran] at finished
  obtain ⟨other, _⟩ | ⟨_, rfl, rfl⟩ := finished rfl
  · cases other
  · refine ⟨rfl, rfl, fun y line => ?_⟩
    have again := run_again y stops
      (by rw [ran]; intro h; cases h) (by rw [ran]; exact fun _ _ => line)
    rwa [ran] at again

theorem run_exhausted {e : CodeEnd} (ran : run e d a cs = ⟨text, d', .exhausted, mark, rest⟩) :
    mark = [] ∧ next rest = none := by
  fun_induction run e d a cs generalizing text with
  | case1 d a cs ended =>
    cases ran
    exact ⟨rfl, ended⟩
  | case2 d a cs t found d₁ a₁ verdict ih =>
    refine @ih (run e d₁ a₁ t.rest).text ?_
    cases same : run e d₁ a₁ t.rest with
    | mk text₁ depth stop mark rest =>
      rw [same] at ran
      cases ran
      rfl
  | case3 d a cs t found stop verdict =>
    cases ran
    rcases judge_stopBefore verdict with ⟨stop, _⟩ | ⟨k, _, _, _, stop⟩
    · cases stop
    · split at stop <;> cases stop
  | case4 => cases ran

end

theorem trivia?_stopper {m : Char} (stopper : isStopper m) (rest : List Char) : trivia? (m :: rest) = none := by
  rcases (isStopper_iff m).mp stopper with rfl | rfl | rfl | rfl | rfl <;> rfl

theorem trivia?_run {e : CodeEnd} {d : Nat} {a : Bool} {cs : List Char} (nothing : trivia? cs = none)
    (stops : (run e d a cs).stop ≠ .exhausted) (rest : List Char) :
    trivia? ((run e d a cs).text ++ ((run e d a cs).mark ++ rest)) = none := by
  obtain ⟨t, found⟩ := next_of_run_stop stops
  have token := found
  simp only [next, skip_none nothing] at token
  cases cs with
  | nil => cases token
  | cons ch cs =>
    cases Option.some.inj token
    cases verdict : judge e d a ⟨lexeme ch cs, []⟩ with
    | goOn d₁ a₁ =>
      rw [run_goOn found verdict] at stops ⊢
      obtain ⟨c, m, last, stopper, _, _⟩ := run_stopped (show (run e d₁ a₁ (lexeme ch cs).rest).stop ≠ _ from stops)
      have whole := run_append e d₁ a₁ (lexeme ch cs).rest
      rw [← List.append_assoc, last, List.append_assoc, List.singleton_append] at whole
      have text : (run e d₁ a₁ (lexeme ch cs).rest).text ++ ((run e d₁ a₁ (lexeme ch cs).rest).mark ++ rest) = c ++ m :: rest := by
        rw [← List.append_assoc, last, List.append_assoc, List.singleton_append]
      simp only [CodeRun.before, Token.through, List.append_assoc, List.nil_append, text]
      exact trivia?_lexeme nothing (whole ▸ sameStart_upTo stopper c _ rest)
    | stopBefore stop =>
      obtain ⟨m, text, stopper⟩ := stopBefore_char found verdict
      rw [run_stopBefore found verdict]
      show trivia? ((⟨lexeme ch cs, []⟩ : Token CodeKind).text ++ rest) = none
      rw [text]
      exact trivia?_stopper stopper rest
    | stopAfter =>
      obtain ⟨m, text, stopper⟩ := stopAfter_char found verdict
      rw [run_stopAfter found verdict, Token.through, text]
      exact trivia?_stopper stopper rest

end Code

end MarkupEditor
