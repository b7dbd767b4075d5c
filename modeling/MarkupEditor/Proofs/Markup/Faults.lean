import MarkupEditor.Proofs.Markup.Lines
import MarkupEditor.Proofs.Markup.Spelling

namespace MarkupEditor

def ParseError.Finds : ParseError → List Char → Prop
  | unexpectedToken _ _ found, rest => found ≠ "" ∧ found.toList <+: rest
  | unexpectedEnd .., rest => rest = []
  | invalid .., _ => True
  | unclosed _ name, rest => '<' :: name.toList <+: rest

-- The error points between two characters of the source, at what it says.
def ParseError.Faithful (source : List Char) (e : ParseError) : Prop :=
  ∃ before rest, source = before ++ rest ∧ e.pos = byteSize before ∧ e.Finds rest

def OpensAt (source : List Char) (start : Position) (name : String) : Prop :=
  ∃ before rest, source = before ++ rest ∧ start.offset = byteSize before ∧ '<' :: name.toList <+: rest

theorem Code.run_stray {ending : CodeEnd} {d : Nat} {a : Bool} {cs : List Char} (stop : (run ending d a cs).stop = .stray) :
    (run ending d a cs).mark ≠ [] := by
  fun_induction run ending d a cs with
  | case1 => cases stop
  | case2 d a cs t found d' a' verdict ih => exact ih stop
  | case3 d a cs t found stop' verdict => exact next_text_ne_nil found
  | case4 => cases stop

namespace Parse

variable {source : List Char} {c : Cursor} {e : ParseError}

theorem faithful_at (stands : c.StandsIn source) {text rest : List Char} (whole : text ++ rest = c.rest)
    (place : e.pos = (c.pos.after text).offset) (finds : e.Finds rest) : e.Faithful source := by
  obtain ⟨before, split, pos⟩ := stands.split
  refine ⟨before ++ text, rest, ?_, ?_, finds⟩
  · rw [split, ← whole, List.append_assoc]
  · rw [place, pos, ← Position.after_append, Position.origin_offset]

theorem faithful_end (stands : c.StandsIn source) (expected : String) : (ParseError.unexpectedEnd c.endOffset expected).Faithful source :=
  ⟨source, [], (List.append_nil _).symm, stands.endOffset, rfl⟩

theorem faithful_token (stands : c.StandsIn source) {t : Token TagKind} (found : Tag.next c.rest = some t) (message : ParseError)
    (place : message.pos = (c.pos.after t.skipped).offset) (finds : message.Finds (t.text ++ t.rest)) : message.Faithful source :=
  faithful_at stands (Tag.next_whole found) place finds

theorem faithful_unexpected (stands : c.StandsIn source) (expected : String) : (unexpected c expected (Tag.next c.rest)).Faithful source := by
  cases found : Tag.next c.rest with
  | none => exact faithful_end stands expected
  | some t =>
    refine faithful_token stands found (unexpected c expected (some t)) rfl ⟨fun empty => Tag.next_text_ne_nil found ?_, ?_⟩
    · simpa using congrArg String.toList empty
    · rw [String.toList_ofList]
      exact List.prefix_append ..

theorem faithful_unclosed {start : Position} {name : String} (opens : OpensAt source start name) :
    (ParseError.unclosed start.offset name).Faithful source := opens

theorem angle_error (stands : c.StandsIn source) (failed : angle c = .error e) : e.Faithful source := by
  have unexpected := faithful_unexpected stands ">"
  unfold angle at failed
  split at failed
  · rename_i t found
    rw [found] at unexpected
    split at failed
    · cases failed
    · cases failed
      exact unexpected
  · rename_i found
    rw [found] at unexpected
    cases failed
    exact unexpected

theorem closing_error {name : Option String} (stands : c.StandsIn source) (failed : closing name c = .error e) : e.Faithful source := by
  unfold closing at failed
  split at failed
  · exact angle_error stands failed
  · split at failed
    · rename_i t found
      split at failed
      · split at failed
        · cases failed
        · rename_i angled
          cases failed
          exact angle_error (stands.moves (past_moves found)) angled
      · cases failed
        exact faithful_token stands found _ rfl trivial
    · cases failed
      exact faithful_end stands _

theorem valueForm_error (stands : c.StandsIn source) (failed : valueForm c = .error e) : e.Faithful source := by
  unfold valueForm at failed
  split at failed
  · cases failed
  · rename_i equals foundEq
    have unexpected := faithful_unexpected (stands.moves (past_moves foundEq)) "attribute value"
    split at failed
    · split at failed
      · rename_i t found
        rw [found] at unexpected
        dsimp only at failed
        split at failed
        · cases failed
        · cases failed
        · cases failed
          exact unexpected
      · rename_i found
        rw [found] at unexpected
        cases failed
        exact unexpected
    · cases failed

section

theorem stands_parts {ending : CodeEnd} {d : Nat} {a : Bool} {r : Reading (List Part) (Code.run ending d a c.rest).rest.length}
    (stands : c.StandsIn source) (read : parts ending d a c = .ok r) : r.stop.StandsIn source :=
  stands.moves (reads_moves ((followsBelow _).parts (Nat.lt_succ_self _) read))

theorem stands_markup {start : Position} {r : Reading Node c.rest.length} (stands : c.StandsIn source) (read : markup start c = .ok r) :
    r.stop.StandsIn source := stands.moves (reads_moves ((followsBelow _).markup (Nat.lt_succ_self _) read))

theorem stands_attributes {start : Position} {name : String} {r : Reading (List Attribute × Bool) c.rest.length}
    (stands : c.StandsIn source) (read : attributes start name c = .ok r) : r.stop.StandsIn source :=
  stands.moves (reads_moves ((followsBelow _).attributes (Nat.lt_succ_self _) read))

theorem stands_valueForm {t : Token TagKind} {r : Reading ValueForm (past c t).rest.length} (stands : c.StandsIn source)
    (named : Tag.next c.rest = some t) (isName : t.kind = some .name) (read : valueForm (past c t) = .ok r) : r.stop.StandsIn source := by
  rcases valueForm_ok named isName read with ⟨_, stop, _⟩ | ⟨v, _, stop, _⟩
  · rw [stop]
    exact stands.moves (past_moves named)
  · rw [stop]
    exact stands.moves v.moves

theorem stands_braceStart (stands : c.StandsIn source) : (braceStart c).stop.StandsIn source := by
  rw [(braceStart_eq c).2]
  exact stands.moves (Cursor.moves_moved (braceHead_append c.rest))

end

-- What the readers refuse in texts shorter than `n` is refused with faithful errors.
structure FaithfulBelow (source : List Char) (n : Nat) : Prop where
  parts : ∀ {ending d a c e}, c.rest.length < n → c.StandsIn source → parts ending d a c = .error e → e.Faithful source
  markup : ∀ {start c e}, c.rest.length < n → (Cursor.mk start ('<' :: c.rest)).StandsIn source → c.pos = start.after ['<'] →
    Code.startsMarkup c.rest → markup start c = .error e → e.Faithful source
  attributes : ∀ {start name c e}, c.rest.length < n → c.StandsIn source → OpensAt source start name →
    attributes start name c = .error e → e.Faithful source
  children : ∀ {start name opened c e}, c.rest.length < n → c.StandsIn source → OpensAt source start opened → name.getD "" = opened →
    children start name c = .error e → e.Faithful source

theorem parts_error {ending : CodeEnd} {d : Nat} {a : Bool} (below : FaithfulBelow source c.rest.length) (stands : c.StandsIn source)
    (failed : parts ending d a c = .error e) : e.Faithful source := by
  have whole := Code.run_append ending d a c.rest
  rw [parts] at failed
  dsimp only at failed
  split at failed
  · cases failed
  · split at failed
    · cases failed
    · cases failed
      exact faithful_end stands _
  · rename_i stop
    cases failed
    refine faithful_at stands whole rfl ⟨fun empty => ?_, ?_⟩
    · exact Code.run_stray stop (by simpa using congrArg String.toList empty)
    · rw [String.toList_ofList]
      exact List.prefix_append ..
  · rename_i stop
    obtain ⟨mark, starts, _⟩ := Code.run_markup (show Code.run ending d a c.rest = ⟨_, _, .markup, _, _⟩ by rw [← stop])
    obtain ⟨t, found⟩ := Code.next_of_run_stop (by rw [stop]; decide)
    have shorter := Code.run_shorter ending d a found
    rw [mark] at whole
    have opening : (Cursor.mk (c.pos.after (Code.run ending d a c.rest).text) ('<' :: (Code.run ending d a c.rest).rest)).StandsIn source :=
      stands.moves (Cursor.moves_moved whole)
    split at failed
    · rename_i marked
      cases failed
      exact below.markup shorter opening (by rw [mark]) starts marked
    · rename_i m marked
      have reached : m.stop.StandsIn source := by
        refine stands_markup (opening.moves ?_) marked
        exact ⟨['<'], rfl, by rw [mark]⟩
      split at failed
      · rename_i more
        cases failed
        exact below.parts (Nat.lt_of_le_of_lt m.within shorter) reached more
      · cases failed

theorem markup_error {start : Position} (below : FaithfulBelow source c.rest.length) (opening : (Cursor.mk start ('<' :: c.rest)).StandsIn source)
    (pos : c.pos = start.after ['<']) (starts : Code.startsMarkup c.rest) (failed : markup start c = .error e) : e.Faithful source := by
  have stands : c.StandsIn source := opening.moves ⟨['<'], rfl, pos⟩
  have opens (name : String) (rest : List Char) (read : c.rest = name.toList ++ rest) : OpensAt source start name := by
    obtain ⟨before, split, place⟩ := opening.split
    have reached : start = Position.origin.after before := place
    refine ⟨before, _, split, by rw [reached, Position.origin_offset], ?_⟩
    rw [read]
    exact List.prefix_append ('<' :: name.toList) rest
  rw [markup] at failed
  split at failed
  · rename_i opened
    split at failed
    · rename_i inside
      cases failed
      refine below.children (tail_shorter opened) ?_ (opens "" c.rest rfl) rfl inside
      obtain ⟨rest, whole⟩ := List.head?_eq_some_iff.mp opened
      exact stands.moves ⟨['>'], by rw [whole]; rfl, rfl⟩
    · cases failed
  · have unexpected := faithful_unexpected stands "tag name"
    split at failed
    · rename_i found
      rw [found] at unexpected
      cases failed
      exact unexpected
    · rename_i t found
      rw [found] at unexpected
      split at failed
      · have opened : OpensAt source start (String.ofList t.text) := by
          apply opens _ t.rest
          rw [String.toList_ofList, Tag.next_split found, Tag.next_unskipped starts found]
          rfl
        have past := stands.moves (past_moves found)
        dsimp only at failed
        split at failed
        · rename_i tag
          cases failed
          exact below.attributes (past_shorter found) past opened tag
        · rename_i attrs tag
          split at failed
          · cases failed
          · split at failed
            · rename_i inside
              cases failed
              exact below.children (Nat.lt_of_le_of_lt attrs.within (past_shorter found)) (stands_attributes past tag) opened rfl inside
            · cases failed
      · cases failed
        exact unexpected

theorem attributes_error {start : Position} {name : String} (below : FaithfulBelow source c.rest.length) (stands : c.StandsIn source)
    (opens : OpensAt source start name) (failed : attributes start name c = .error e) : e.Faithful source := by
  have unexpected := faithful_unexpected stands "attribute"
  rw [attributes] at failed
  split at failed
  · cases failed
    exact faithful_unclosed opens
  · rename_i t found
    rw [found] at unexpected
    have shorter := past_shorter found
    have past := stands.moves (past_moves found)
    split at failed
    · rename_i isName
      split at failed
      · rename_i formed
        cases failed
        exact valueForm_error past formed
      · rename_i v formed
        have reached := stands_valueForm stands found isName formed
        have within := Nat.lt_of_le_of_lt v.within shorter
        dsimp only at failed
        split at failed
        · split at failed
          · rename_i more
            cases failed
            exact below.attributes within reached opens more
          · cases failed
        · split at failed
          · rename_i more
            cases failed
            exact below.attributes within reached opens more
          · cases failed
        · split at failed
          · rename_i code
            cases failed
            exact below.parts within reached code
          · rename_i code coded
            have beyond := Nat.lt_of_le_of_lt (Nat.le_trans code.within (Code.run_within ..)) within
            split at failed
            · rename_i more
              cases failed
              exact below.attributes beyond (stands_parts reached coded) opens more
            · cases failed
    · dsimp only at failed
      split at failed
      · have within := Nat.lt_of_le_of_lt (braceStart (Parse.past c t)).within shorter
        have reached := stands_braceStart past
        split at failed
        · rename_i code
          cases failed
          exact below.parts within reached code
        · rename_i code coded
          have beyond := Nat.lt_of_le_of_lt (Nat.le_trans code.within (Code.run_within ..)) within
          split at failed
          · rename_i more
            cases failed
            exact below.attributes beyond (stands_parts reached coded) opens more
          · cases failed
      · cases failed
        exact faithful_token stands found _ rfl trivial
    · split at failed
      · rename_i angled
        cases failed
        exact angle_error past angled
      · cases failed
    · cases failed
    · cases failed
      exact unexpected

theorem children_error {start : Position} {name : Option String} {opened : String} (below : FaithfulBelow source c.rest.length)
    (stands : c.StandsIn source) (opens : OpensAt source start opened) (named : name.getD "" = opened)
    (failed : children start name c = .error e) : e.Faithful source := by
  rw [children] at failed
  split at failed
  · cases failed
    rw [named]
    exact faithful_unclosed opens
  · rename_i text inside plain
    have whole := plainText_whole plain
    have shorter := plainText_within plain
    simp only [List.length_cons] at shorter
    have opened : (Cursor.mk ((c.pos.after text).after ['{']) inside).StandsIn source :=
      stands.moves ⟨text ++ ['{'], by rw [whole]; simp, (Position.after_append ..).symm⟩
    have reached := stands_braceStart opened
    have within : (braceStart ⟨(c.pos.after text).after ['{'], inside⟩).stop.rest.length < c.rest.length :=
      Nat.lt_of_le_of_lt (braceStart _).within shorter
    dsimp only at failed
    split at failed
    · rename_i code
      cases failed
      exact below.parts within reached code
    · rename_i code coded
      have beyond := Nat.lt_of_le_of_lt (Nat.le_trans code.within (Code.run_within ..)) within
      split at failed
      · rename_i more
        cases failed
        exact below.children beyond (stands_parts reached coded) opens named more
      · cases failed
  · rename_i text lt after notBrace plain
    split at failed
    · rename_i tag
      cases failed
      refine closing_error (stands.moves ⟨text ++ [lt, '/'], ?_, rfl⟩) tag
      rw [plainText_whole plain]
      simp
    · cases failed
  · rename_i text lt after notBrace notSlash plain
    have whole := plainText_whole plain
    have shorter := plainText_within plain
    simp only [List.length_cons] at shorter
    dsimp only at failed
    split at failed
    · rename_i starts
      obtain rfl : lt = '<' := by
        rcases plainText_stop plain with rfl | rfl
        · rfl
        · exact absurd rfl notBrace
      have opening : (Cursor.mk (c.pos.after text) ('<' :: after)).StandsIn source := stands.moves (Cursor.moves_moved whole.symm)
      split at failed
      · rename_i node
        cases failed
        exact below.markup (by exact shorter) opening rfl starts node
      · rename_i n node
        have within : n.stop.rest.length < c.rest.length := Nat.lt_of_le_of_lt n.within shorter
        have reached := stands_markup (opening.moves ⟨['<'], rfl, rfl⟩) node
        split at failed
        · rename_i more
          cases failed
          exact below.children within reached opens named more
        · cases failed
    · cases failed
      exact faithful_at stands whole.symm rfl trivial

theorem faithfulBelow (source : List Char) (n : Nat) : FaithfulBelow source n := by
  induction n with
  | zero => exact ⟨fun h => absurd h (Nat.not_lt_zero _), fun h => absurd h (Nat.not_lt_zero _),
      fun h => absurd h (Nat.not_lt_zero _), fun h => absurd h (Nat.not_lt_zero _)⟩
  | succ n ih =>
    have upTo {m : Nat} (h : m < n + 1) : FaithfulBelow source m :=
      have le := Nat.le_of_lt_succ h
      ⟨fun h => ih.parts (Nat.lt_of_lt_of_le h le), fun h => ih.markup (Nat.lt_of_lt_of_le h le),
        fun h => ih.attributes (Nat.lt_of_lt_of_le h le), fun h => ih.children (Nat.lt_of_lt_of_le h le)⟩
    exact ⟨fun h => parts_error (upTo h), fun h => markup_error (upTo h), fun h => attributes_error (upTo h),
      fun h => children_error (upTo h)⟩

theorem body_error (stands : c.StandsIn source) (failed : body c = .error e) : e.Faithful source := by
  fun_induction body c with
  | case1 => cases failed
  | case2 c t found start e' code =>
    cases failed
    exact (faithfulBelow source _).parts (Nat.lt_succ_self _) (stands.moves (Cursor.moves_moved (Code.next_whole found))) code
  | case3 c t found start r code e' later ih =>
    cases failed
    exact ih (stands_parts (stands.moves (Cursor.moves_moved (Code.next_whole found))) code) later
  | case4 => cases failed

end Parse

theorem ParseError.lineColumn_append {e : ParseError} {before : List Char} (after : List Char) (place : e.pos = byteSize before) :
    e.lineColumn (before ++ after) = ((Position.origin.after before).line, (Position.origin.after before).column) := by
  have within : byteSize before ≤ byteSize (before ++ after) := by
    rw [byteSize_append]
    exact Nat.le_add_right ..
  obtain ⟨line, column⟩ := Position.after_counts before
  simp only [lineColumn, place, Nat.min_eq_left within, charsBefore?_append, Option.getD_some, line, column]

theorem ParseError.lineColumn_lookup {source : List Char} {e : ParseError} (faithful : e.Faithful source) :
    e.lineColumn source = ((Position.lookup source e.pos).line, (Position.lookup source e.pos).column) := by
  obtain ⟨before, rest, rfl, place, _⟩ := faithful
  rw [lineColumn_append rest place, place, Position.lookup_append]

-- Every text is read as a tree or refused, and a refusal is true of the text: it points between two characters at what it says,
-- and its line and column are the ones the table of line starts gives for its offset.
theorem parse_total_faithful (source : String) :
    (∃ t, parse source = .ok t) ∨
      ∃ e, parse source = .error e ∧ e.Faithful source.toList ∧
        e.lineColumn source.toList = ((Position.lookup source.toList e.pos).line, (Position.lookup source.toList e.pos).column) := by
  cases read : Parse.body (.ofText source.toList) with
  | ok parts => exact .inl ⟨⟨parts⟩, by rw [parse, read]⟩
  | error e =>
    have faithful := Parse.body_error (.start source.toList) read
    exact .inr ⟨e, by rw [parse, read], faithful, e.lineColumn_lookup faithful⟩

end MarkupEditor
