import MarkupEditor.Markup.Parse

namespace MarkupEditor

inductive Goal where
  | parts (ending : CodeEnd) (depth : Nat) (allowed : Bool)
  | markup (start : Position)
  | attributes
  | children (name : Option String)

@[reducible] def Goal.Output : Goal → Type
  | .parts .. => List Part
  | .markup _ => Node
  | .attributes => List Attribute × Bool
  | .children _ => List Node

-- The opening of a brace: whether it holds a spread, the text of that, and the text after it.
def braceHead (cs : List Char) : Bool × List Char × List Char :=
  match Parse.spreadDots? cs with
  | some (dots, rest) => (true, dots, rest)
  | none => (false, [], cs)

def Angle (c c' : Cursor) : Prop := ∃ t, Tag.next c.rest = some t ∧ t.kind = some .gt ∧ c' = Parse.past c t

def ClosingTag (name : Option String) (c c' : Cursor) : Prop :=
  match name with
  | none => Angle c c'
  | some name => ∃ t, Tag.next c.rest = some t ∧ t.kind = some .name ∧ String.ofList t.text = name ∧ Angle (Parse.past c t) c'

structure ValueTokens (c : Cursor) where
  name : Token TagKind
  equals : Token TagKind
  value : Token TagKind
  named : Tag.next c.rest = some name
  isName : name.kind = some .name
  equaled : Tag.next name.rest = some equals
  isEquals : equals.kind = some .eq
  valued : Tag.next equals.rest = some value

def ValueTokens.stop {c : Cursor} (v : ValueTokens c) : Cursor :=
  Parse.past (Parse.past (Parse.past c v.name) v.equals) v.value

-- The rules of the grammar, apart from how the readers search for them. Each rule says where its parts are read from,
-- so what is read follows by induction on the rules and not on the length of the text.
inductive Reads : (g : Goal) → Cursor → g.Output → Cursor → Prop where
  | finished {e d a c text d' mark rest} (ran : Code.run e d a c.rest = ⟨text, d', .finished, mark, rest⟩) :
      Reads (.parts e d a) c (Part.ofCode text) (c.moved (text ++ mark) rest)
  | exhausted {d a c text mark rest} (ran : Code.run .statement d a c.rest = ⟨text, 0, .exhausted, mark, rest⟩) :
      Reads (.parts .statement d a) c (Part.ofCode text) (c.moved text rest)
  | embedded {e d a c text d' mark rest n c₁ ps c₂} (ran : Code.run e d a c.rest = ⟨text, d', .markup, mark, rest⟩)
      (node : Reads (.markup (c.pos.after text)) (c.moved (text ++ mark) rest) n c₁)
      (more : Reads (.parts e d' false) c₁ ps c₂) :
      Reads (.parts e d a) c (Part.ofCode text ++ .node n :: ps) c₂
  | fragment {start c rest kids c₁} (opened : c.rest = '>' :: rest)
      (inside : Reads (.children none) (c.moved ['>'] rest) kids c₁) :
      Reads (.markup start) c (.fragment ⟨start, c₁.pos⟩ kids) c₁
  | selfClosed {start c t attrs c₁} (named : Tag.next c.rest = some t) (isName : t.kind = some .name)
      (tag : Reads .attributes (Parse.past c t) (attrs, true) c₁) :
      Reads (.markup start) c (.element ⟨start, c₁.pos⟩ (String.ofList t.text) attrs [] true) c₁
  | element {start c t attrs c₁ kids c₂} (named : Tag.next c.rest = some t) (isName : t.kind = some .name)
      (tag : Reads .attributes (Parse.past c t) (attrs, false) c₁)
      (inside : Reads (.children (some (String.ofList t.text))) c₁ kids c₂) :
      Reads (.markup start) c (.element ⟨start, c₂.pos⟩ (String.ofList t.text) attrs kids false) c₂
  | flag {c t attrs b c₁} (named : Tag.next c.rest = some t) (isName : t.kind = some .name)
      (plain : ∀ e, Tag.next t.rest = some e → e.kind ≠ some .eq)
      (more : Reads .attributes (Parse.past c t) (attrs, b) c₁) :
      Reads .attributes c (.flag (String.ofList t.text) :: attrs, b) c₁
  | string {c attrs b c₁} (v : ValueTokens c) (isString : v.value.kind = some .stringLit)
      (more : Reads .attributes v.stop (attrs, b) c₁) :
      Reads .attributes c
        (.string (String.ofList v.name.text) (Parse.unquote v.value.text) (Parse.quoteOf v.value.text) :: attrs, b) c₁
  | expression {c ps c₁ attrs b c₂} (v : ValueTokens c) (isBrace : v.value.kind = some .lbrace)
      (code : Reads (.parts .brace 0 true) v.stop ps c₁) (more : Reads .attributes c₁ (attrs, b) c₂) :
      Reads .attributes c (.expression (String.ofList v.name.text) ps :: attrs, b) c₂
  | spread {c t dots rest ps c₁ attrs b c₂} (found : Tag.next c.rest = some t) (isBrace : t.kind = some .lbrace)
      (dotted : Parse.spreadDots? t.rest = some (dots, rest))
      (code : Reads (.parts .brace 0 true) ((Parse.past c t).moved dots rest) ps c₁)
      (more : Reads .attributes c₁ (attrs, b) c₂) :
      Reads .attributes c (.spread ps :: attrs, b) c₂
  | slash {c t c₁} (found : Tag.next c.rest = some t) (isSlash : t.kind = some .slash) (angle : Angle (Parse.past c t) c₁) :
      Reads .attributes c ([], true) c₁
  | close {c t} (found : Tag.next c.rest = some t) (isAngle : t.kind = some .gt) :
      Reads .attributes c ([], false) (Parse.past c t)
  | closing {name c text after c₁} (plain : Parse.plainText c.rest = (text, '<' :: '/' :: after))
      (tag : ClosingTag name (c.moved (text ++ ['<', '/']) after) c₁) :
      Reads (.children name) c (Parse.textNode c.pos text) c₁
  | wrapper {name c text inside ps c₁ kids c₂} (plain : Parse.plainText c.rest = (text, '{' :: inside))
      (code : Reads (.parts .brace 0 true) (c.moved (text ++ '{' :: (braceHead inside).2.1) (braceHead inside).2.2) ps c₁)
      (more : Reads (.children name) c₁ kids c₂) :
      Reads (.children name) c
        (Parse.textNode c.pos text ++ .wrapper ⟨c.pos.after text, c₁.pos⟩ (braceHead inside).1 ps :: kids) c₂
  | child {name c text after n c₁ kids c₂} (plain : Parse.plainText c.rest = (text, '<' :: after))
      (starts : Code.startsMarkup after = true)
      (node : Reads (.markup (c.pos.after text)) (c.moved (text ++ ['<']) after) n c₁)
      (more : Reads (.children name) c₁ kids c₂) :
      Reads (.children name) c (Parse.textNode c.pos text ++ n :: kids) c₂

theorem Reads.from {g : Goal} {c d : Cursor} {v : g.Output} {c' : Cursor} (read : Reads g c v c') (same : c = d) :
    Reads g d v c' := same ▸ read

namespace Parse

theorem angle_ok {c : Cursor} {r : Reading Unit c.rest.length} (read : angle c = .ok r) : Angle c r.stop := by
  unfold angle at read
  split at read
  · rename_i t found
    split at read
    · cases Except.ok.inj read
      exact ⟨t, found, ‹_›, rfl⟩
    · cases read
  · cases read

theorem closing_ok {name : Option String} {c : Cursor} {r : Reading Unit c.rest.length} (read : closing name c = .ok r) :
    ClosingTag name c r.stop := by
  unfold closing at read
  split at read
  · exact angle_ok read
  · split at read
    · rename_i t found
      split at read
      · rename_i same
        split at read
        · rename_i r angled
          cases Except.ok.inj read
          exact ⟨t, found, same.1, same.2, angle_ok angled⟩
        · cases read
      · cases read
    · cases read

theorem plainText_stop {cs text rest : List Char} {c : Char} (plain : plainText cs = (text, c :: rest)) : c = '<' ∨ c = '{' := by
  have fails := takeRun_over plain c rfl
  by_cases lt : c = '<'
  · exact .inl lt
  · exact .inr (by simpa [lt] using fails)

theorem braceStart_eq (c : Cursor) :
    (braceStart c).value = (braceHead c.rest).1 ∧
      (braceStart c).stop = c.moved (braceHead c.rest).2.1 (braceHead c.rest).2.2 := by
  unfold braceStart braceHead
  split
  · rename_i dots rest found
    simp [found]
  · rename_i found
    simp [found, Cursor.moved]

theorem valueForm_ok {c : Cursor} {t : Token TagKind} {r : Reading ValueForm (past c t).rest.length}
    (named : Tag.next c.rest = some t) (isName : t.kind = some .name) (read : valueForm (past c t) = .ok r) :
    (r.value = .absent ∧ r.stop = past c t ∧ ∀ e, Tag.next t.rest = some e → e.kind ≠ some .eq) ∨
      ∃ v : ValueTokens c, v.name = t ∧ r.stop = v.stop ∧
        ((v.value.kind = some .stringLit ∧ r.value = .string (unquote v.value.text) (quoteOf v.value.text)) ∨
          (v.value.kind = some .lbrace ∧ r.value = .brace)) := by
  unfold valueForm at read
  split at read
  · rename_i absent
    cases Except.ok.inj read
    refine .inl ⟨rfl, rfl, ?_⟩
    intro e found
    rw [show Tag.next t.rest = none from absent] at found
    cases found
  · rename_i e equaled
    split at read
    · rename_i isEquals
      split at read
      · rename_i v valued
        dsimp only at read
        let tokens : ValueTokens c := ⟨t, e, v, named, isName, equaled, isEquals, valued⟩
        split at read
        · rename_i kind
          cases Except.ok.inj read
          exact .inr ⟨tokens, rfl, rfl, .inl ⟨kind, rfl⟩⟩
        · rename_i kind
          cases Except.ok.inj read
          exact .inr ⟨tokens, rfl, rfl, .inr ⟨kind, rfl⟩⟩
        · cases read
      · cases read
    · rename_i other
      cases Except.ok.inj read
      refine .inl ⟨rfl, rfl, ?_⟩
      intro e' found
      obtain rfl : e = e' := Option.some.inj (equaled.symm.trans found)
      exact other

-- What the readers accept from shorter texts than `n` follows the rules.
structure FollowsBelow (n : Nat) : Prop where
  parts : ∀ {e d a c r}, c.rest.length < n → parts e d a c = .ok r → Reads (.parts e d a) c r.value r.stop
  markup : ∀ {start c r}, c.rest.length < n → markup start c = .ok r → Reads (.markup start) c r.value r.stop
  attributes : ∀ {start name c r}, c.rest.length < n → attributes start name c = .ok r → Reads .attributes c r.value r.stop
  children : ∀ {start name c r}, c.rest.length < n → children start name c = .ok r → Reads (.children name) c r.value r.stop

theorem parts_ok {e : CodeEnd} {d : Nat} {a : Bool} {c : Cursor}
    {r : Reading (List Part) (Code.run e d a c.rest).rest.length} (below : FollowsBelow c.rest.length)
    (read : parts e d a c = .ok r) : Reads (.parts e d a) c r.value r.stop := by
  rw [parts] at read
  dsimp only at read
  split at read
  · rename_i stop
    cases Except.ok.inj read
    rw [← Position.after_append]
    exact .finished (by rw [← stop])
  · rename_i stop
    split at read
    · rename_i closed
      cases Except.ok.inj read
      obtain ⟨rfl, depth⟩ := closed
      exact .exhausted (by rw [← stop, ← depth])
    · cases read
  · cases read
  · rename_i stop
    split at read
    · cases read
    · rename_i m marked
      split at read
      · cases read
      · rename_i rest more
        cases Except.ok.inj read
        obtain ⟨t, found⟩ := Code.next_of_run_stop (by rw [stop]; decide)
        have shorter := Code.run_shorter e d a found
        have node := below.markup shorter marked
        rw [← Position.after_append] at node
        exact .embedded (by rw [← stop]) node (below.parts (Nat.lt_of_le_of_lt m.within shorter) more)

theorem markup_ok {start : Position} {c : Cursor} {r : Reading Node c.rest.length} (below : FollowsBelow c.rest.length)
    (read : markup start c = .ok r) : Reads (.markup start) c r.value r.stop := by
  rw [markup] at read
  split at read
  · rename_i opened
    split at read
    · cases read
    · rename_i kids inside
      cases Except.ok.inj read
      obtain ⟨rest, whole⟩ := List.head?_eq_some_iff.mp opened
      have read := below.children (tail_shorter opened) inside
      exact .fragment whole (read.from (by rw [whole]; rfl))
  · split at read
    · cases read
    · rename_i t named
      split at read
      · rename_i isName
        dsimp only at read
        split at read
        · cases read
        · rename_i attrs tag
          have shorter := past_shorter named
          have tagged := below.attributes shorter tag
          split at read
          · rename_i closed
            cases Except.ok.inj read
            rw [show attrs.value = (attrs.value.1, true) by rw [← closed]] at tagged
            exact .selfClosed named isName tagged
          · rename_i opened
            split at read
            · cases read
            · rename_i kids inside
              cases Except.ok.inj read
              rw [show attrs.value = (attrs.value.1, false) by rw [← Bool.eq_false_iff.mpr opened]] at tagged
              exact .element named isName tagged (below.children (Nat.lt_of_le_of_lt attrs.within shorter) inside)
      · cases read

theorem attributes_ok {start : Position} {name : String} {c : Cursor} {r : Reading (List Attribute × Bool) c.rest.length}
    (below : FollowsBelow c.rest.length) (read : attributes start name c = .ok r) : Reads .attributes c r.value r.stop := by
  rw [attributes] at read
  split at read
  · cases read
  · rename_i t found
    have shorter := past_shorter found
    split at read
    · rename_i isName
      split at read
      · cases read
      · rename_i v formed
        have within := Nat.lt_of_le_of_lt v.within shorter
        dsimp only at read
        rcases valueForm_ok found isName formed with ⟨absent, stop, plain⟩ | ⟨tokens, rfl, stop, ⟨kind, value⟩ | ⟨kind, value⟩⟩
        · simp only [absent] at read
          split at read
          · cases read
          · rename_i more rest
            cases Except.ok.inj read
            exact .flag found isName plain ((below.attributes within rest).from stop)
        · simp only [value] at read
          split at read
          · cases read
          · rename_i more rest
            cases Except.ok.inj read
            exact .string tokens kind ((below.attributes within rest).from stop)
        · simp only [value] at read
          split at read
          · cases read
          · rename_i code inside
            split at read
            · cases read
            · rename_i more rest
              cases Except.ok.inj read
              have coded := (below.parts within inside).from stop
              have past := Nat.lt_of_le_of_lt (Nat.le_trans code.within (Code.run_within ..)) within
              exact .expression tokens kind coded (below.attributes past rest)
    · rename_i isBrace
      dsimp only at read
      split at read
      · rename_i spread
        split at read
        · cases read
        · rename_i code inside
          split at read
          · cases read
          · rename_i more rest
            cases Except.ok.inj read
            have within := Nat.lt_of_le_of_lt (braceStart (past c t)).within shorter
            have beyond := Nat.lt_of_le_of_lt (Nat.le_trans code.within (Code.run_within ..)) within
            obtain ⟨head, stop⟩ := braceStart_eq (past c t)
            have coded := (below.parts within inside).from stop
            rw [head] at spread
            cases dotted : spreadDots? (past c t).rest with
            | none => simp [braceHead, dotted] at spread
            | some pair =>
              refine .spread found isBrace dotted ?_ (below.attributes beyond rest)
              simpa [braceHead, dotted] using coded
      · cases read
    · rename_i isSlash
      split at read
      · cases read
      · rename_i angled angle
        cases Except.ok.inj read
        exact .slash found isSlash (angle_ok angle)
    · rename_i isAngle
      cases Except.ok.inj read
      exact .close found isAngle
    · cases read

theorem children_ok {start : Position} {name : Option String} {c : Cursor} {r : Reading (List Node) c.rest.length}
    (below : FollowsBelow c.rest.length) (read : children start name c = .ok r) :
    Reads (.children name) c r.value r.stop := by
  rw [children] at read
  split at read
  · cases read
  · rename_i text inside plain
    have shorter := plainText_within plain
    simp only [List.length_cons] at shorter
    dsimp only at read
    split at read
    · cases read
    · rename_i code coded
      split at read
      · cases read
      · rename_i more rest
        cases Except.ok.inj read
        have within : (braceStart ⟨(c.pos.after text).after ['{'], inside⟩).stop.rest.length < c.rest.length :=
          Nat.lt_of_le_of_lt (braceStart _).within shorter
        have past := Nat.lt_of_le_of_lt (Nat.le_trans code.within (Code.run_within ..)) within
        obtain ⟨head, stop⟩ := braceStart_eq ⟨(c.pos.after text).after ['{'], inside⟩
        have read := (below.parts within coded).from stop
        rw [head]
        refine .wrapper plain ?_ (below.children past rest)
        simpa [Cursor.moved, Position.after_append] using read
  · rename_i text lt after notBrace plain
    split at read
    · cases read
    · rename_i closed tag
      cases Except.ok.inj read
      obtain rfl : lt = '<' := by
        rcases plainText_stop plain with rfl | rfl
        · rfl
        · exact absurd rfl notBrace
      exact .closing plain (closing_ok tag)
  · rename_i text lt after notBrace notSlash plain
    have shorter := plainText_within plain
    simp only [List.length_cons] at shorter
    dsimp only at read
    split at read
    · rename_i starts
      split at read
      · cases read
      · rename_i n node
        split at read
        · cases read
        · rename_i more rest
          cases Except.ok.inj read
          obtain rfl : lt = '<' := by
            rcases plainText_stop plain with rfl | rfl
            · rfl
            · exact absurd rfl notBrace
          have within : n.stop.rest.length < c.rest.length := Nat.lt_of_le_of_lt n.within shorter
          have read := below.markup (by exact shorter) node
          refine .child plain starts ?_ (below.children within rest)
          simpa [Cursor.moved, Position.after_append] using read
    · cases read

theorem followsBelow (n : Nat) : FollowsBelow n := by
  induction n with
  | zero => exact ⟨fun h => absurd h (Nat.not_lt_zero _), fun h => absurd h (Nat.not_lt_zero _),
      fun h => absurd h (Nat.not_lt_zero _), fun h => absurd h (Nat.not_lt_zero _)⟩
  | succ n ih =>
    have upTo {m : Nat} (h : m < n + 1) : FollowsBelow m :=
      have le := Nat.le_of_lt_succ h
      ⟨fun h => ih.parts (Nat.lt_of_lt_of_le h le), fun h => ih.markup (Nat.lt_of_lt_of_le h le),
        fun h => ih.attributes (Nat.lt_of_lt_of_le h le), fun h => ih.children (Nat.lt_of_lt_of_le h le)⟩
    exact ⟨fun h => parts_ok (upTo h), fun h => markup_ok (upTo h), fun h => attributes_ok (upTo h),
      fun h => children_ok (upTo h)⟩

-- What a reader found and where it stopped, without the bound.
def Result.outcome {α : Type} {size : Nat} : Result α size → Except ParseError (α × Cursor)
  | .ok r => .ok (r.value, r.stop)
  | .error e => .error e

theorem outcome_ok {α : Type} {size : Nat} {r : Reading α size} {v : α} {c : Cursor}
    (read : Result.outcome (.ok r) = .ok (v, c)) : r.value = v ∧ r.stop = c := by
  cases Except.ok.inj read
  exact ⟨rfl, rfl⟩

def Accepts : (g : Goal) → Cursor → g.Output → Cursor → Prop
  | .parts e d a, c, v, c' => (parts e d a c).outcome = .ok (v, c')
  | .markup start, c, v, c' => (markup start c).outcome = .ok (v, c')
  | .attributes, c, v, c' => ∀ start name, (attributes start name c).outcome = .ok (v, c')
  | .children name, c, v, c' => ∀ start, (children start name c).outcome = .ok (v, c')

theorem accepts_finished {e : CodeEnd} {d d' : Nat} {a : Bool} {c : Cursor} {text mark rest : List Char}
    (ran : Code.run e d a c.rest = ⟨text, d', .finished, mark, rest⟩) :
    Accepts (.parts e d a) c (Part.ofCode text) (c.moved (text ++ mark) rest) := by
  show (parts e d a c).outcome = _
  rw [parts]
  dsimp only
  split
  · simp [Result.outcome, ran, Cursor.moved, Position.after_append]
  all_goals simp_all

theorem accepts_exhausted {d : Nat} {a : Bool} {c : Cursor} {text mark rest : List Char}
    (ran : Code.run .statement d a c.rest = ⟨text, 0, .exhausted, mark, rest⟩) :
    Accepts (.parts .statement d a) c (Part.ofCode text) (c.moved text rest) := by
  show (parts .statement d a c).outcome = _
  rw [parts]
  dsimp only
  split
  · simp_all
  · rw [if_pos ⟨rfl, by rw [ran]⟩]
    simp [Result.outcome, ran, Cursor.moved]
  all_goals simp_all

theorem accepts_embedded {e : CodeEnd} {d d' : Nat} {a : Bool} {c c₁ c₂ : Cursor} {text mark rest : List Char} {n : Node}
    {ps : List Part} (ran : Code.run e d a c.rest = ⟨text, d', .markup, mark, rest⟩)
    (node : Accepts (.markup (c.pos.after text)) (c.moved (text ++ mark) rest) n c₁)
    (more : Accepts (.parts e d' false) c₁ ps c₂) :
    Accepts (.parts e d a) c (Part.ofCode text ++ .node n :: ps) c₂ := by
  show (parts e d a c).outcome = _
  have marked : (markup (c.pos.after (Code.run e d a c.rest).text)
      ⟨(c.pos.after (Code.run e d a c.rest).text).after (Code.run e d a c.rest).mark,
        (Code.run e d a c.rest).rest⟩).outcome = .ok (n, c₁) := by
    rw [ran, ← Position.after_append]
    exact node
  have later : (parts e (Code.run e d a c.rest).depth false c₁).outcome = .ok (ps, c₂) := by
    rw [ran]
    exact more
  rw [parts]
  dsimp only
  split
  · simp_all
  · simp_all
  · simp_all
  · split
    · rename_i failed
      rw [failed] at marked
      cases marked
    · rename_i m read
      rw [read] at marked
      obtain ⟨rfl, rfl⟩ := outcome_ok marked
      split
      · rename_i failed
        rw [failed] at later
        cases later
      · rename_i r rest
        rw [rest] at later
        obtain ⟨rfl, rfl⟩ := outcome_ok later
        simp [Result.outcome, ran]

theorem accepts_fragment {start : Position} {c c₁ : Cursor} {rest : List Char} {kids : List Node}
    (opened : c.rest = '>' :: rest) (inside : Accepts (.children none) (c.moved ['>'] rest) kids c₁) :
    Accepts (.markup start) c (.fragment ⟨start, c₁.pos⟩ kids) c₁ := by
  show (markup start c).outcome = _
  have read : (children start none ⟨c.pos.after ['>'], c.rest.tail⟩).outcome = .ok (kids, c₁) := by
    rw [opened]
    exact inside start
  rw [markup]
  rw [dif_pos (by rw [opened]; rfl)]
  split
  · rename_i failed
    rw [failed] at read
    cases read
  · rename_i r eq
    rw [eq] at read
    obtain ⟨rfl, rfl⟩ := outcome_ok read
    rfl

theorem next_of_head_gt {cs : List Char} (h : cs.head? = some '>') : ∃ t, Tag.next cs = some t ∧ t.kind = some .gt := by
  obtain ⟨rest, rfl⟩ := List.head?_eq_some_iff.mp h
  exact ⟨_, rfl, rfl⟩

theorem head_of_next_name {cs : List Char} {t : Token TagKind} (named : Tag.next cs = some t) (isName : t.kind = some .name) :
    cs.head? ≠ some '>' := by
  intro head
  obtain ⟨u, found, angle⟩ := next_of_head_gt head
  rw [found] at named
  cases named
  rw [angle] at isName
  cases isName

theorem accepts_element {start : Position} {c c₁ c₂ : Cursor} {t : Token TagKind} {attrs : List Attribute} {b : Bool}
    {kids : List Node} (named : Tag.next c.rest = some t) (isName : t.kind = some .name)
    (tag : Accepts .attributes (past c t) (attrs, b) c₁)
    (inside : if b then kids = [] ∧ c₁ = c₂ else Accepts (.children (some (String.ofList t.text))) c₁ kids c₂) :
    Accepts (.markup start) c (.element ⟨start, c₂.pos⟩ (String.ofList t.text) attrs kids b) c₂ := by
  show (markup start c).outcome = _
  have tagged := tag start (String.ofList t.text)
  rw [markup]
  rw [dif_neg (head_of_next_name named isName)]
  split
  · rename_i missing
    rw [missing] at named
    cases named
  · rename_i u found
    obtain rfl : u = t := Option.some.inj (found.symm.trans named)
    rw [if_pos isName]
    dsimp only
    split
    · rename_i failed
      rw [failed] at tagged
      cases tagged
    · rename_i a read
      rw [read] at tagged
      obtain ⟨value, rfl⟩ := outcome_ok tagged
      rw [value]
      cases b with
      | true =>
        obtain ⟨rfl, rfl⟩ := inside
        rfl
      | false =>
        have read := inside start
        dsimp only
        split
        · contradiction
        · split
          · rename_i failed
            rw [failed] at read
            cases read
          · rename_i r eq
            rw [eq] at read
            obtain ⟨rfl, rfl⟩ := outcome_ok read
            rfl

theorem valueForm_absent {c : Cursor} (plain : ∀ e, Tag.next c.rest = some e → e.kind ≠ some .eq) :
    (valueForm c).outcome = .ok (.absent, c) := by
  unfold valueForm
  split
  · rfl
  · rename_i e found
    rw [if_neg (plain e found)]
    rfl

theorem valueForm_given {c : Cursor} (v : ValueTokens c) :
    (v.value.kind = some .stringLit →
      (valueForm (past c v.name)).outcome = .ok (.string (unquote v.value.text) (quoteOf v.value.text), v.stop)) ∧
      (v.value.kind = some .lbrace → (valueForm (past c v.name)).outcome = .ok (.brace, v.stop)) := by
  unfold valueForm
  split
  · rename_i missing
    cases missing.symm.trans v.equaled
  · rename_i e found
    obtain rfl : e = v.equals := Option.some.inj (found.symm.trans v.equaled)
    rw [if_pos v.isEquals]
    split
    · rename_i t value
      obtain rfl : t = v.value := Option.some.inj (value.symm.trans v.valued)
      constructor
      · intro kind
        dsimp only
        split
        · rfl
        · simp_all
        · simp_all
      · intro kind
        dsimp only
        split
        · simp_all
        · rfl
        · simp_all
    · rename_i missing
      cases missing.symm.trans v.valued

theorem attributes_named {start : Position} {name : String} {c c₁ c₂ c₃ : Cursor} {t : Token TagKind} {form : ValueForm}
    {attrs : List Attribute} {b : Bool} (found : Tag.next c.rest = some t) (isName : t.kind = some .name)
    (formed : (valueForm (past c t)).outcome = .ok (form, c₁)) (more : Accepts .attributes c₂ (attrs, b) c₃) :
    (form = .absent → c₁ = c₂ → (attributes start name c).outcome = .ok ((.flag (String.ofList t.text) :: attrs, b), c₃)) ∧
    (∀ value quote, form = .string value quote → c₁ = c₂ →
      (attributes start name c).outcome = .ok ((.string (String.ofList t.text) value quote :: attrs, b), c₃)) ∧
    (∀ ps, form = .brace → Accepts (.parts .brace 0 true) c₁ ps c₂ →
      (attributes start name c).outcome = .ok ((.expression (String.ofList t.text) ps :: attrs, b), c₃)) := by
  have later := more start name
  rw [attributes]
  split
  · simp_all
  · rename_i u again
    obtain rfl : u = t := Option.some.inj (again.symm.trans found)
    split
    · split
      · rename_i failed
        rw [failed] at formed
        cases formed
      · rename_i v read
        rw [read] at formed
        obtain ⟨rfl, rfl⟩ := outcome_ok formed
        dsimp only
        refine ⟨?_, ?_, ?_⟩
        · rintro absent rfl
          simp only [absent]
          split
          · simp_all [Result.outcome]
          · rename_i r rest
            rw [rest] at later
            obtain ⟨value, rfl⟩ := outcome_ok later
            simp [Result.outcome, value]
        · rintro text quote string rfl
          simp only [string]
          split
          · simp_all [Result.outcome]
          · rename_i r rest
            rw [rest] at later
            obtain ⟨value, rfl⟩ := outcome_ok later
            simp [Result.outcome, value]
        · intro ps brace code
          have coded : (parts .brace 0 true v.stop).outcome = .ok (ps, c₂) := code
          simp only [brace]
          split
          · simp_all [Result.outcome]
          · rename_i p inside
            rw [inside] at coded
            obtain ⟨rfl, rfl⟩ := outcome_ok coded
            split
            · simp_all [Result.outcome]
            · rename_i r rest
              rw [rest] at later
              obtain ⟨value, rfl⟩ := outcome_ok later
              simp [Result.outcome, value]
    all_goals simp_all

theorem accepts_spread {c c₁ c₂ : Cursor} {t : Token TagKind} {dots rest : List Char} {ps : List Part} {attrs : List Attribute}
    {b : Bool} (found : Tag.next c.rest = some t) (isBrace : t.kind = some .lbrace)
    (dotted : spreadDots? t.rest = some (dots, rest))
    (code : Accepts (.parts .brace 0 true) ((past c t).moved dots rest) ps c₁)
    (more : Accepts .attributes c₁ (attrs, b) c₂) : Accepts .attributes c (.spread ps :: attrs, b) c₂ := by
  intro start name
  obtain ⟨head, stop⟩ := braceStart_eq (past c t)
  have open_ : braceHead (past c t).rest = (true, dots, rest) := by
    simp only [braceHead]
    rw [show spreadDots? (past c t).rest = _ from dotted]
  have coded : (parts .brace 0 true (braceStart (past c t)).stop).outcome = .ok (ps, c₁) := by
    rw [stop, open_]
    exact code
  have later := more start name
  rw [attributes]
  split
  · simp_all
  · rename_i u again
    obtain rfl : u = t := Option.some.inj (again.symm.trans found)
    split
    · simp_all
    · dsimp only
      rw [if_pos (by rw [head, open_])]
      split
      · simp_all [Result.outcome]
      · rename_i p inside
        rw [inside] at coded
        obtain ⟨rfl, rfl⟩ := outcome_ok coded
        split
        · simp_all [Result.outcome]
        · rename_i r rest
          rw [rest] at later
          obtain ⟨value, rfl⟩ := outcome_ok later
          simp [Result.outcome, value]
    all_goals simp_all

theorem angle_accepts {c c' : Cursor} (h : Angle c c') : (angle c).outcome = .ok ((), c') := by
  obtain ⟨t, found, kind, rfl⟩ := h
  unfold angle
  split
  · rename_i u again
    obtain rfl : u = t := Option.some.inj (again.symm.trans found)
    rw [if_pos kind]
    rfl
  · simp_all

theorem closing_accepts {name : Option String} {c c' : Cursor} (h : ClosingTag name c c') :
    (closing name c).outcome = .ok ((), c') := by
  cases name with
  | none => exact angle_accepts h
  | some name =>
    obtain ⟨t, found, kind, same, angled⟩ := h
    have read := angle_accepts angled
    unfold closing
    dsimp only
    split
    · rename_i u again
      obtain rfl : u = t := Option.some.inj (again.symm.trans found)
      rw [if_pos ⟨kind, same⟩]
      split
      · rename_i r eq
        rw [eq] at read
        obtain ⟨-, rfl⟩ := outcome_ok read
        rfl
      · simp_all [Result.outcome]
    · simp_all

theorem accepts_slash {c c₁ : Cursor} {t : Token TagKind} (found : Tag.next c.rest = some t) (isSlash : t.kind = some .slash)
    (angled : Angle (past c t) c₁) : Accepts .attributes c ([], true) c₁ := by
  intro start name
  have read := angle_accepts angled
  rw [attributes]
  split
  · simp_all
  · rename_i u again
    obtain rfl : u = t := Option.some.inj (again.symm.trans found)
    split
    · simp_all
    · simp_all
    · split
      · simp_all [Result.outcome]
      · rename_i r eq
        rw [eq] at read
        obtain ⟨-, rfl⟩ := outcome_ok read
        rfl
    all_goals simp_all

theorem accepts_close {c : Cursor} {t : Token TagKind} (found : Tag.next c.rest = some t) (isAngle : t.kind = some .gt) :
    Accepts .attributes c ([], false) (past c t) := by
  intro start name
  rw [attributes]
  split
  · simp_all
  · rename_i u again
    obtain rfl : u = t := Option.some.inj (again.symm.trans found)
    split
    · simp_all
    · simp_all
    · simp_all
    · rfl
    · simp_all

theorem accepts_closing {name : Option String} {c c₁ : Cursor} {text after : List Char}
    (plain : plainText c.rest = (text, '<' :: '/' :: after)) (tag : ClosingTag name (c.moved (text ++ ['<', '/']) after) c₁) :
    Accepts (.children name) c (textNode c.pos text) c₁ := by
  intro start
  have read := closing_accepts tag
  rw [children]
  split
  · simp_all
  · simp_all
  · rename_i text' lt after' notBrace plain'
    cases plain.symm.trans plain'
    split
    · rename_i failed
      rw [show closing name (c.moved (text ++ ['<', '/']) after) = _ from failed] at read
      cases read
    · rename_i r eq
      rw [show closing name (c.moved (text ++ ['<', '/']) after) = _ from eq] at read
      obtain ⟨-, rfl⟩ := outcome_ok read
      rfl
  · simp_all

theorem accepts_wrapper {name : Option String} {c c₁ c₂ : Cursor} {text inside : List Char} {ps : List Part} {kids : List Node}
    (plain : plainText c.rest = (text, '{' :: inside))
    (code : Accepts (.parts .brace 0 true) (c.moved (text ++ '{' :: (braceHead inside).2.1) (braceHead inside).2.2) ps c₁)
    (more : Accepts (.children name) c₁ kids c₂) :
    Accepts (.children name) c
      (textNode c.pos text ++ .wrapper ⟨c.pos.after text, c₁.pos⟩ (braceHead inside).1 ps :: kids) c₂ := by
  intro start
  have later := more start
  obtain ⟨head, stop⟩ := braceStart_eq ⟨(c.pos.after text).after ['{'], inside⟩
  have coded : (parts .brace 0 true (braceStart ⟨(c.pos.after text).after ['{'], inside⟩).stop).outcome = .ok (ps, c₁) := by
    have place : (⟨(c.pos.after text).after ['{'], inside⟩ : Cursor).moved (braceHead inside).2.1 (braceHead inside).2.2 =
        c.moved (text ++ '{' :: (braceHead inside).2.1) (braceHead inside).2.2 := by
      simp [Cursor.moved, Position.after_append]
    rw [stop, place]
    exact code
  rw [children]
  split
  · simp_all
  · rename_i text' inside' plain'
    cases plain.symm.trans plain'
    dsimp only
    split
    · simp_all [Result.outcome]
    · rename_i p eq
      rw [eq] at coded
      obtain ⟨rfl, rfl⟩ := outcome_ok coded
      split
      · simp_all [Result.outcome]
      · rename_i r rest
        rw [rest] at later
        obtain ⟨rfl, rfl⟩ := outcome_ok later
        rw [head]
        rfl
  · simp_all
  · simp_all

theorem accepts_child {name : Option String} {c c₁ c₂ : Cursor} {text after : List Char} {n : Node} {kids : List Node}
    (plain : plainText c.rest = (text, '<' :: after)) (starts : Code.startsMarkup after = true)
    (node : Accepts (.markup (c.pos.after text)) (c.moved (text ++ ['<']) after) n c₁)
    (more : Accepts (.children name) c₁ kids c₂) :
    Accepts (.children name) c (textNode c.pos text ++ n :: kids) c₂ := by
  intro start
  have later := more start
  have marked : (markup (c.pos.after text) ⟨(c.pos.after text).after ['<'], after⟩).outcome = .ok (n, c₁) := by
    rw [← Position.after_append]
    exact node
  rw [children]
  split
  · simp_all
  · simp_all
  · rename_i plain'
    cases plain.symm.trans plain'
    have slash : isNameStart '/' = false := by decide
    simp [Code.startsMarkup, slash] at starts
  · rename_i text' lt after' notBrace notSlash plain'
    cases plain.symm.trans plain'
    dsimp only
    rw [if_pos starts]
    split
    · simp_all [Result.outcome]
    · rename_i m eq
      rw [eq] at marked
      obtain ⟨rfl, rfl⟩ := outcome_ok marked
      split
      · simp_all [Result.outcome]
      · rename_i r rest
        rw [rest] at later
        obtain ⟨rfl, rfl⟩ := outcome_ok later
        rfl

theorem accepts_of_reads {g : Goal} {c c' : Cursor} {v : g.Output} (read : Reads g c v c') : Accepts g c v c' := by
  induction read with
  | finished ran => exact accepts_finished ran
  | exhausted ran => exact accepts_exhausted ran
  | embedded ran _ _ node more => exact accepts_embedded ran node more
  | fragment opened _ inside => exact accepts_fragment opened inside
  | selfClosed named isName _ tag => exact accepts_element named isName tag ⟨rfl, rfl⟩
  | element named isName _ _ tag inside => exact accepts_element named isName tag inside
  | flag named isName plain _ more =>
    exact fun start name => (attributes_named named isName (valueForm_absent plain) more).1 rfl rfl
  | string v isString _ more =>
    exact fun start name => (attributes_named v.named v.isName ((valueForm_given v).1 isString) more).2.1 _ _ rfl rfl
  | expression v isBrace _ _ code more =>
    exact fun start name => (attributes_named v.named v.isName ((valueForm_given v).2 isBrace) more).2.2 _ rfl code
  | spread found isBrace dotted _ _ code more => exact accepts_spread found isBrace dotted code more
  | slash found isSlash angle => exact accepts_slash found isSlash angle
  | close found isAngle => exact accepts_close found isAngle
  | closing plain tag => exact accepts_closing plain tag
  | wrapper plain _ _ code more => exact accepts_wrapper plain code more
  | child plain starts _ _ node more => exact accepts_child plain starts node more

end Parse

inductive ReadsBody : Cursor → List Part → Prop where
  | done {c} (ended : Code.next c.rest = none) : ReadsBody c (Part.ofCode c.rest)
  | statement {c t ps c₁ more} (found : Code.next c.rest = some t)
      (code : Reads (.parts .statement 0 true) (c.moved t.skipped t.ahead) ps c₁) (later : ReadsBody c₁ more) :
      ReadsBody c (Part.ofCode t.skipped ++ .node (.other ⟨c.pos.after t.skipped, c₁.pos⟩ ps) :: more)

namespace Parse

theorem body_ok {c : Cursor} {ps : List Part} (read : body c = .ok ps) : ReadsBody c ps := by
  fun_induction body c generalizing ps with
  | case1 c ended =>
    cases Except.ok.inj read
    exact .done ended
  | case2 => cases read
  | case3 => cases read
  | case4 c t found start r code more later =>
    rename_i ih
    cases Except.ok.inj read
    exact .statement found ((followsBelow _).parts (Nat.lt_succ_self _) code) (ih later)

theorem body_accepts {c : Cursor} {ps : List Part} (read : ReadsBody c ps) : body c = .ok ps := by
  induction read with
  | done ended =>
    rw [body]
    split
    · rfl
    · simp_all
  | @statement c t ps c₁ more found code _ later =>
    have coded : (parts .statement 0 true (c.moved t.skipped t.ahead)).outcome = _ := accepts_of_reads code
    rw [body]
    split
    · simp_all
    · rename_i u again
      obtain rfl : u = t := Option.some.inj (again.symm.trans found)
      dsimp only
      split
      · simp_all [Result.outcome]
      · rename_i r eq
        rw [eq] at coded
        obtain ⟨rfl, rfl⟩ := outcome_ok coded
        rw [later]
        rfl

end Parse

theorem parse_eq_ok_iff {source : String} {t : SourceTree} : parse source = .ok t ↔ ReadsBody (.ofText source.toList) t.body := by
  unfold parse
  constructor
  · intro read
    split at read
    · rename_i ps eq
      cases Except.ok.inj read
      exact Parse.body_ok eq
    · cases read
  · intro read
    rw [Parse.body_accepts read]

end MarkupEditor
