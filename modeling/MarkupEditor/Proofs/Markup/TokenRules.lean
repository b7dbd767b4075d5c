import MarkupEditor.Markup.Token.Code
import MarkupEditor.Markup.Token.Tag

namespace MarkupEditor

-- What may be skipped in front of a text, and what spells a token of a kind in front of a text.
structure TokenRules (κ : Type) where
  Skips : List Char → List Char → Prop
  Spells : κ → List Char → List Char → Prop

-- A scan takes texts apart by some rules: it skips all that it may, finds no token exactly where that is the whole text, and takes
-- a token that is not empty. A rule that applies where the token starts spells no longer text and none of another kind.
structure Lexes {κ : Type} (rules : TokenRules κ) (scan : List Char → Option (Token κ)) : Prop where
  whole {cs t} : scan cs = some t → t.whole = cs
  nonempty {cs t} : scan cs = some t → t.text ≠ []
  skips {cs t} : scan cs = some t → rules.Skips t.skipped t.ahead
  starts {cs t more after} : scan cs = some t → t.ahead = more ++ after → rules.Skips more after → more = []
  ended {cs} : scan cs = none ↔ rules.Skips cs []
  spelled {cs t k} : scan cs = some t → t.kind = some k → rules.Spells k t.text t.rest
  longest {cs t k text after} : scan cs = some t → t.ahead = text ++ after → rules.Spells k text after → t.kind = some k ∧ text <+: t.text

section

variable {κ : Type} {skip : List Char → List Char × List Char} {lexeme : Char → List Char → Lexeme κ}

def tokenBehind (skip : List Char → List Char × List Char) (lexeme : Char → List Char → Lexeme κ) (cs : List Char) : Option (Token κ) :=
  match skip cs with
  | (_, []) => none
  | (skipped, c :: cs) => some ⟨lexeme c cs, skipped⟩

theorem tokenBehind_some {cs : List Char} {t : Token κ} (found : tokenBehind skip lexeme cs = some t) :
    ∃ c rest, skip cs = (t.skipped, c :: rest) ∧ t.toLexeme = lexeme c rest := by
  unfold tokenBehind at found
  split at found
  · cases found
  · rename_i skipped c rest eq
    cases Option.some.inj found
    exact ⟨c, rest, eq, rfl⟩

theorem tokenBehind_none {cs : List Char} : tokenBehind skip lexeme cs = none ↔ (skip cs).2 = [] := by
  unfold tokenBehind
  split <;> rename_i eq <;> simp [eq]

structure TokenRules.Kept (rules : TokenRules κ) (skip : List Char → List Char × List Char) (lexeme : Char → List Char → Lexeme κ) :
    Prop where
  skip_append cs : (skip cs).1 ++ (skip cs).2 = cs
  skipped cs : rules.Skips (skip cs).1 (skip cs).2
  skip_more {cs ahead} : rules.Skips cs ahead → skip (cs ++ ahead) = (cs ++ (skip ahead).1, (skip ahead).2)
  lexeme_append c cs : (lexeme c cs).text ++ (lexeme c cs).rest = c :: cs
  lexeme_ne_nil c cs : (lexeme c cs).text ≠ []
  spelled {c cs k} : (lexeme c cs).kind = some k → rules.Spells k (lexeme c cs).text (lexeme c cs).rest
  longest {c cs k text after} : rules.Spells k text after → text ++ after = c :: cs →
    (lexeme c cs).kind = some k ∧ text <+: (lexeme c cs).text

namespace TokenRules.Kept

variable {rules : TokenRules κ} {cs : List Char} {t : Token κ}

theorem parts (kept : rules.Kept skip lexeme) (read : tokenBehind skip lexeme cs = some t) :
    ∃ c rest, skip cs = (t.skipped, c :: rest) ∧ t.toLexeme = lexeme c rest ∧ t.ahead = c :: rest := by
  obtain ⟨c, rest, skips, token⟩ := tokenBehind_some read
  refine ⟨c, rest, skips, token, ?_⟩
  rw [Token.ahead, token, kept.lexeme_append]

theorem ended (kept : rules.Kept skip lexeme) : tokenBehind skip lexeme cs = none ↔ rules.Skips cs [] := by
  have whole := kept.skip_append cs
  rw [tokenBehind_none]
  constructor
  · intro atEnd
    have skipped := kept.skipped cs
    rw [atEnd, List.append_nil] at whole
    rwa [atEnd, whole] at skipped
  · intro skips
    have all := kept.skip_more skips
    rw [List.append_nil] at all
    rw [all]
    exact (List.append_eq_nil_iff.mp (kept.skip_append [])).2

theorem starts (kept : rules.Kept skip lexeme) {ahead skipped more after : List Char} (skips : skip cs = (skipped, ahead))
    (whole : ahead = more ++ after) (further : rules.Skips more after) : more = [] := by
  have first := kept.skipped cs
  have parts := kept.skip_append cs
  rw [skips] at first parts
  have again : skip cs = (skipped ++ (skip ahead).1, (skip ahead).2) := by
    rw [← kept.skip_more first, parts]
  have nothing : (skip ahead).1 = [] := List.self_eq_append_right.mp (Prod.mk.inj (skips.symm.trans again)).1
  rw [whole, kept.skip_more further] at nothing
  exact (List.append_eq_nil_iff.mp nothing).1

theorem lexes (kept : rules.Kept skip lexeme) : Lexes rules (tokenBehind skip lexeme) where
  whole {cs t} read := by
    obtain ⟨c, rest, skips, _, ahead⟩ := kept.parts read
    have whole := kept.skip_append cs
    rwa [skips, ← ahead] at whole
  nonempty read := by
    obtain ⟨c, rest, _, token, _⟩ := kept.parts read
    rw [token]
    exact kept.lexeme_ne_nil c rest
  skips {cs t} read := by
    obtain ⟨c, rest, skips, _, ahead⟩ := kept.parts read
    have skipped := kept.skipped cs
    rwa [skips, ← ahead] at skipped
  starts read whole further := by
    obtain ⟨c, rest, skips, _, ahead⟩ := kept.parts read
    exact kept.starts skips (ahead.symm.trans whole) further
  ended := kept.ended
  spelled read kind := by
    obtain ⟨c, rest, _, token, _⟩ := kept.parts read
    rw [token] at kind ⊢
    exact kept.spelled kind
  longest read whole spells := by
    obtain ⟨c, rest, _, token, ahead⟩ := kept.parts read
    rw [token]
    exact kept.longest spells (whole.symm.trans ahead)

end TokenRules.Kept

end

theorem prefix_takeRun {p : Char → Bool} {run : List Char} (all : ∀ c ∈ run, p c) (rest : List Char) :
    run <+: (takeRun p (run ++ rest)).1 := by
  rw [takeRun_more all]
  exact List.prefix_append ..

theorem isNameStart_of_isDigit {c : Char} (digit : c.isDigit) : isNameStart c = false := by
  have all : ∀ n < 58, (Char.ofNat n).isDigit = true → isNameStart (Char.ofNat n) = false := by decide
  have range : 48 ≤ c.toNat ∧ c.toNat ≤ 57 := by
    simpa [Char.isDigit, Char.le_def, UInt32.le_iff_toNat_le] using digit
  rw [← c.ofNat_toNat] at digit ⊢
  exact all c.toNat (by omega) digit

theorem ne_of_unmatched {c m : Char} {cs : List Char} (alone : c = m → cs = [] → False)
    (followed : ∀ d ds, c = m → cs = d :: ds → False) : c ≠ m := by
  intro same
  cases cs with
  | nil => exact alone same rfl
  | cons d ds => exact followed d ds same rfl

namespace Code

-- The inside of a block comment that is closed: characters other than a star, and stars each with the character after it, which
-- is no slash.
inductive CommentInside : List Char → Prop where
  | nil : CommentInside []
  | plain {c cs} (other : c ≠ '*') (more : CommentInside cs) : CommentInside (c :: cs)
  | starred {c cs} (other : c ≠ '/') (more : CommentInside cs) : CommentInside ('*' :: c :: cs)

-- Layout and complete comments in front of a text. A line comment goes on to the end of its line, and a block comment is closed.
inductive Trivia : List Char → List Char → Prop where
  | nil {ahead} : Trivia [] ahead
  | layout {c cs ahead} (layout : isLayout c) (more : Trivia cs ahead) : Trivia (c :: cs) ahead
  | line {body cs ahead} (inLine : '\n' ∉ body) (ends : ∀ c ∈ (cs ++ ahead).head?, c = '\n') (more : Trivia cs ahead) :
      Trivia ('/' :: '/' :: (body ++ cs)) ahead
  | block {body cs ahead} (inside : CommentInside body) (more : Trivia cs ahead) :
      Trivia ('/' :: '*' :: (body ++ '*' :: '/' :: cs)) ahead

-- The inside of a quoted text that is closed: characters other than the mark and a backslash, line feeds only in a template, and
-- backslashes each with the character after it, which is no line feed.
inductive QuotedInside (mark : Char) : List Char → Prop where
  | nil : QuotedInside mark []
  | plain {c cs} (unmarked : c ≠ mark) (bare : c ≠ '\\') (inLine : c = '\n' → mark = '\x60') (more : QuotedInside mark cs) :
      QuotedInside mark (c :: cs)
  | escaped {c cs} (inLine : c ≠ '\n') (more : QuotedInside mark cs) : QuotedInside mark ('\\' :: c :: cs)

-- The text of a token of a kind, in front of another text. A slash in front of a star opens a comment and is no token.
inductive Spells : CodeKind → List Char → List Char → Prop where
  | ident {c more after} (first : isNameStart c) (others : ∀ d ∈ more, isNameStart d || d.isDigit) : Spells .ident (c :: more) after
  | number {c more after} (first : c.isDigit) (others : ∀ d ∈ more, d.isAlphanum || d == '_' || d == '.') :
      Spells .number (c :: more) after
  | string {mark body after} (quote : mark = '"' ∨ mark = '\'') (inside : QuotedInside mark body) :
      Spells .stringLit (mark :: body ++ [mark]) after
  | template {body after} (inside : QuotedInside '\x60' body) : Spells .template ('\x60' :: body ++ ['\x60']) after
  | single {c k after} (kind : CodeKind.ofChar? c = some k) (opens : c = '/' → after.head? ≠ some '*') : Spells k [c] after

variable {cs ahead : List Char}

theorem commentInside_of_read {body rest : List Char} (read : commentBody cs = (body, rest)) : CommentInside body := by
  fun_induction commentBody cs generalizing body rest with
  | case1 | case2 | case3 =>
    cases read
    exact .nil
  | case4 c cs inside body' rest' eq ih =>
    cases read
    exact .starred inside (ih eq)
  | case5 c cs alone followed body' rest' eq ih =>
    cases read
    exact .plain (ne_of_unmatched alone followed) (ih eq)

theorem commentBody_closed {body : List Char} (inside : CommentInside body) (rest : List Char) :
    commentBody (body ++ '*' :: '/' :: rest) = (body, '*' :: '/' :: rest) := by
  induction inside with
  | nil => simp [commentBody]
  | plain other more ih =>
    rw [List.cons_append, commentBody, ih]
    all_goals simp [other]
  | starred other more ih => simp [commentBody, other, ih]

theorem Trivia.piece {piece more : List Char} (found : trivia? cs = some (piece, more ++ ahead)) (trivia : Trivia more ahead) :
    Trivia (piece ++ more) ahead := by
  unfold trivia? at found
  split at found
  · rename_i line
    obtain ⟨rfl, read⟩ := Prod.mk.inj (Option.some.inj found)
    have taken : takeRun (fun c => decide (c ≠ '\n')) line = (_, more ++ ahead) := Prod.ext rfl read
    refine .line (fun feed => ?_) (fun c head => ?_) trivia
    · simpa using takeRun_all taken _ feed
    · simpa using takeRun_over taken c head
  · rename_i inside
    split at found
    · rename_i body rest closed
      obtain ⟨rfl, rfl⟩ := Prod.mk.inj (Option.some.inj found)
      simpa using Trivia.block (commentInside_of_read closed) trivia
    · cases found
  · split at found
    · rename_i layout
      obtain ⟨rfl, rfl⟩ := Prod.mk.inj (Option.some.inj found)
      exact .layout layout trivia
    · cases found
  · cases found

theorem trivia_skip (cs : List Char) : Trivia (skip cs).1 (skip cs).2 := by
  fun_induction skip cs with
  | case1 cs piece rest found more rest' eq ih =>
    have whole := skip_append rest
    rw [eq] at ih whole
    rw [← whole] at found
    exact .piece found ih
  | case2 => exact .nil

theorem skip_trivial (trivia : Trivia cs ahead) : skip (cs ++ ahead) = (cs ++ (skip ahead).1, (skip ahead).2) := by
  induction trivia with
  | nil => rfl
  | @layout c cs ahead layout more ih =>
    have ne : c ≠ '/' := by
      rintro rfl
      exact absurd layout (by decide)
    have first : trivia? (c :: cs ++ ahead) = some ([c], cs ++ ahead) := by
      simp [trivia?, ne, layout]
    rw [skip_some first, ih]
    rfl
  | @line body cs ahead inLine ends more ih =>
    have run : takeRun (fun c => decide (c ≠ '\n')) (body ++ (cs ++ ahead)) = (body, cs ++ ahead) :=
      takeRun_exact (fun c member => decide_eq_true fun feed => inLine (feed ▸ member)) fun c head => by simpa using ends c head
    have first : trivia? ('/' :: '/' :: (body ++ cs) ++ ahead) = some ('/' :: '/' :: body, cs ++ ahead) := by
      rw [List.cons_append, List.cons_append, List.append_assoc, trivia?, run]
    rw [skip_some first, ih]
    simp
  | @block body cs ahead inside more ih =>
    have first : trivia? ('/' :: '*' :: (body ++ '*' :: '/' :: cs) ++ ahead) = some ('/' :: '*' :: body ++ ['*', '/'], cs ++ ahead) := by
      simp [trivia?, commentBody_closed inside]
    rw [skip_some first, ih]
    simp

theorem quotedInside_of_read {mark : Char} {body rest : List Char} (read : quotedBody mark cs = (body, rest)) : QuotedInside mark body := by
  fun_induction quotedBody mark cs generalizing body rest with
  | case1 | case2 | case3 | case5 =>
    cases read
    exact .nil
  | case4 c cs inside body' rest' eq ih =>
    cases read
    exact .escaped inside (ih eq)
  | case6 c cs alone followed inside body' rest' eq ih =>
    cases read
    obtain ⟨unmarked, inLine⟩ := not_or.mp inside
    have spans : c = '\n' → mark = '\x60' := fun feed => Decidable.of_not_not fun other => inLine ⟨feed, other⟩
    exact .plain unmarked (ne_of_unmatched alone followed) spans (ih eq)

theorem quotedBody_closed {mark : Char} {body : List Char} (bare : mark ≠ '\\') (inside : QuotedInside mark body) (rest : List Char) :
    quotedBody mark (body ++ mark :: rest) = (body, mark :: rest) := by
  induction inside with
  | nil =>
    rw [List.nil_append, quotedBody, if_pos (.inl rfl)]
    all_goals simp [bare]
  | @plain c cs unmarked unescaped inLine more ih =>
    have goesOn : ¬(c = mark ∨ c = '\n' ∧ mark ≠ '\x60') := by
      rintro (same | ⟨feed, other⟩)
      · exact unmarked same
      · exact other (inLine feed)
    rw [List.cons_append, quotedBody, if_neg goesOn, ih]
    all_goals simp [unescaped]
  | escaped inLine more ih => simp [quotedBody, inLine, ih]

theorem quoted_closed {kind : CodeKind} {mark : Char} {body : List Char} (bare : mark ≠ '\\') (inside : QuotedInside mark body)
    (rest : List Char) : quoted kind mark (body ++ mark :: rest) = ⟨some kind, mark :: body ++ [mark], rest⟩ := by
  simp [quoted, quotedBody_closed bare inside]

theorem quoted_spelled {kind k : CodeKind} {mark : Char} (spelled : (quoted kind mark cs).kind = some k) :
    k = kind ∧ ∃ body, QuotedInside mark body ∧ (quoted kind mark cs).text = mark :: body ++ [mark] := by
  unfold quoted at spelled ⊢
  split at spelled
  · rename_i body c rest read
    split at spelled
    · rename_i closed
      subst closed
      exact ⟨(Option.some.inj spelled).symm, body, quotedInside_of_read read, by simp⟩
    · cases spelled
  · cases spelled

theorem lexeme_spelled {c : Char} {k : CodeKind} :
    (lexeme c cs).kind = some k → Spells k (lexeme c cs).text (lexeme c cs).rest := by
  unfold lexeme
  split
  · rename_i name
    rintro ⟨⟩
    exact .ident name (takeRun_all rfl)
  split
  · rename_i digit
    rintro ⟨⟩
    exact .number digit (takeRun_all rfl)
  split
  · rename_i quote
    intro kind
    obtain ⟨rfl, body, inside, text⟩ := quoted_spelled kind
    rw [text]
    exact .string quote inside
  split
  · rename_i quote
    subst quote
    intro kind
    obtain ⟨rfl, body, inside, text⟩ := quoted_spelled kind
    rw [text]
    exact .template inside
  split
  · nofun
  · rename_i c cs opens
    intro kind
    refine .single kind fun slash star => ?_
    obtain ⟨inside, rfl⟩ := List.head?_eq_some_iff.mp star
    exact opens inside slash rfl

theorem ofChar?_plain {c : Char} {k : CodeKind} (kind : CodeKind.ofChar? c = some k) :
    isNameStart c = false ∧ c.isDigit = false ∧ ¬(c = '"' ∨ c = '\'') ∧ c ≠ '\x60' := by
  have operators : ("-+*/%=!&|^~?:,@#".toList.all fun d =>
      !isNameStart d && !d.isDigit && d != '"' && d != '\'' && d != '\x60') = true := by
    decide
  unfold CodeKind.ofChar? at kind
  split at kind
  case h_11 =>
    split at kind
    · rename_i operator
      have plain := List.all_eq_true.mp operators c (List.contains_iff_mem.mp operator)
      simpa [and_assoc] using plain
    · cases kind
  all_goals decide

theorem lexeme_longest {c : Char} {k : CodeKind} {text after : List Char} (spells : Spells k text after) (whole : text ++ after = c :: cs) :
    (lexeme c cs).kind = some k ∧ text <+: (lexeme c cs).text := by
  cases spells with
  | ident first others =>
    obtain ⟨rfl, rfl⟩ := List.cons.inj whole
    simp only [lexeme, first, if_true]
    exact ⟨trivial, List.cons_prefix_cons.mpr ⟨rfl, prefix_takeRun others after⟩⟩
  | number first others =>
    obtain ⟨rfl, rfl⟩ := List.cons.inj whole
    simp only [lexeme, isNameStart_of_isDigit first, first, if_true, if_false, Bool.false_eq_true]
    exact ⟨trivial, List.cons_prefix_cons.mpr ⟨rfl, prefix_takeRun others after⟩⟩
  | @string mark body _ quote inside =>
    obtain ⟨rfl, rfl⟩ : mark = c ∧ body ++ mark :: after = cs := by simpa using whole
    have plain : isNameStart mark = false ∧ mark.isDigit = false ∧ mark ≠ '\\' := by
      rcases quote with rfl | rfl <;> decide
    simp only [lexeme, plain, quote, if_true, if_false, Bool.false_eq_true, quoted_closed plain.2.2 inside]
    exact ⟨trivial, List.prefix_refl _⟩
  | @template body _ inside =>
    obtain ⟨rfl, rfl⟩ : '\x60' = c ∧ body ++ '\x60' :: after = cs := by simpa using whole
    have token : lexeme '\x60' (body ++ '\x60' :: after) = quoted .template '\x60' (body ++ '\x60' :: after) := rfl
    rw [token, quoted_closed (by decide) inside]
    exact ⟨rfl, List.prefix_refl _⟩
  | single kind opens =>
    obtain ⟨rfl, rfl⟩ := List.cons.inj whole
    obtain ⟨name, digit, quote, template⟩ := ofChar?_plain kind
    simp only [lexeme, name, digit, quote, template, if_false, Bool.false_eq_true]
    split
    · rename_i inside star
      exact absurd (congrArg List.head? star) (opens rfl)
    · exact ⟨kind, List.prefix_refl _⟩

def rules : TokenRules CodeKind := ⟨Trivia, Spells⟩

theorem kept : rules.Kept skip lexeme where
  skip_append := skip_append
  skipped := trivia_skip
  skip_more := skip_trivial
  lexeme_append := lexeme_append
  lexeme_ne_nil := lexeme_ne_nil
  spelled := lexeme_spelled
  longest := lexeme_longest

theorem lexes : Lexes rules next := kept.lexes

end Code

namespace Tag

def Trivia (cs _ahead : List Char) : Prop := ∀ c ∈ cs, isLayout c

inductive Spells : TagKind → List Char → List Char → Prop where
  | name {c more after} (first : isNameStart c) (others : ∀ d ∈ more, isNameRest d) : Spells .name (c :: more) after
  | string {mark body after} (quote : mark = '"' ∨ mark = '\'') (inside : mark ∉ body) : Spells .stringLit (mark :: body ++ [mark]) after
  | single {c k after} (kind : ofChar? c = some k) : Spells k [c] after

variable {cs : List Char}

theorem quoted_closed {mark : Char} {body : List Char} (inside : mark ∉ body) (rest : List Char) :
    quoted mark (body ++ mark :: rest) = ⟨some .stringLit, mark :: body ++ [mark], rest⟩ := by
  have all : ∀ c ∈ body, decide (c ≠ mark) = true := fun c member => decide_eq_true fun same => inside (same ▸ member)
  have taken : takeRun (fun c => decide (c ≠ mark)) (body ++ mark :: rest) = (body, mark :: rest) := takeRun_exact all (by simp)
  rw [quoted, taken]

theorem quoted_spelled {mark : Char} {k : TagKind} :
    (quoted mark cs).kind = some k → k = .stringLit ∧ ∃ body, mark ∉ body ∧ (quoted mark cs).text = mark :: body ++ [mark] := by
  unfold quoted
  split
  · rename_i body c rest read
    rintro ⟨⟩
    have closes : c = mark := by simpa using takeRun_over read c rfl
    refine ⟨rfl, body, fun member => ?_, by rw [closes]⟩
    simpa using takeRun_all read mark member
  · nofun

theorem lexeme_spelled {c : Char} {k : TagKind} : (lexeme c cs).kind = some k → Spells k (lexeme c cs).text (lexeme c cs).rest := by
  unfold lexeme
  split
  · rename_i name
    rintro ⟨⟩
    exact .name name (takeRun_all rfl)
  split
  · rename_i quote
    intro kind
    obtain ⟨rfl, body, inside, text⟩ := quoted_spelled kind
    rw [text]
    exact .string quote inside
  · exact .single

theorem ofChar?_kind {c : Char} {k : TagKind} (kind : ofChar? c = some k) : k ≠ .name ∧ k ≠ .stringLit := by
  unfold ofChar? at kind
  split at kind <;> cases kind <;> decide

theorem ofChar?_plain {c : Char} {k : TagKind} (kind : ofChar? c = some k) : isNameStart c = false ∧ ¬(c = '"' ∨ c = '\'') := by
  unfold ofChar? at kind
  split at kind
  case h_5 => cases kind
  all_goals decide

theorem lexeme_longest {c : Char} {k : TagKind} {text after : List Char} (spells : Spells k text after) (whole : text ++ after = c :: cs) :
    (lexeme c cs).kind = some k ∧ text <+: (lexeme c cs).text := by
  cases spells with
  | name first others =>
    obtain ⟨rfl, rfl⟩ := List.cons.inj whole
    simp only [lexeme, first, if_true]
    exact ⟨trivial, List.cons_prefix_cons.mpr ⟨rfl, prefix_takeRun others after⟩⟩
  | @string mark body _ quote inside =>
    obtain ⟨rfl, rfl⟩ : mark = c ∧ body ++ mark :: after = cs := by simpa using whole
    have plain : isNameStart mark = false := by
      rcases quote with rfl | rfl <;> decide
    simp only [lexeme, plain, quote, if_true, if_false, Bool.false_eq_true, quoted_closed inside]
    exact ⟨trivial, List.prefix_refl _⟩
  | single kind =>
    obtain ⟨rfl, rfl⟩ := List.cons.inj whole
    obtain ⟨name, quote⟩ := ofChar?_plain kind
    simp only [lexeme, name, quote, if_false, Bool.false_eq_true]
    exact ⟨kind, List.prefix_refl _⟩

theorem Spells.of_name {text after : List Char} (spells : Spells .name text after) :
    ∃ c more, text = c :: more ∧ isNameStart c ∧ ∀ d ∈ more, isNameRest d := by
  cases spells with
  | name first others => exact ⟨_, _, rfl, first, others⟩
  | single kind => exact absurd rfl (ofChar?_kind kind).1

theorem Spells.of_string {text after : List Char} (spells : Spells .stringLit text after) :
    ∃ mark body, text = mark :: body ++ [mark] ∧ (mark = '"' ∨ mark = '\'') ∧ mark ∉ body := by
  cases spells with
  | string quote inside => exact ⟨_, _, rfl, quote, inside⟩
  | single kind => exact absurd rfl (ofChar?_kind kind).2

theorem Spells.of_single {c : Char} {k : TagKind} {text after : List Char} (spells : Spells k text after) (kind : ofChar? c = some k) :
    ∃ d, text = [d] ∧ ofChar? d = some k := by
  cases spells with
  | name => exact absurd rfl (ofChar?_kind kind).1
  | string => exact absurd rfl (ofChar?_kind kind).2
  | single kind => exact ⟨_, rfl, kind⟩

def rules : TokenRules TagKind := ⟨Trivia, Spells⟩

theorem kept : rules.Kept (takeRun isLayout) lexeme where
  skip_append := takeRun_append isLayout
  skipped _ := takeRun_all rfl
  skip_more layout := takeRun_more layout _
  lexeme_append := lexeme_append
  lexeme_ne_nil := lexeme_ne_nil
  spelled := lexeme_spelled
  longest := lexeme_longest

theorem lexes : Lexes rules next := kept.lexes

end Tag

end MarkupEditor
