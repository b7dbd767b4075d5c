import MarkupEditor.Proofs.Markup.Reshape
import MarkupEditor.Proofs.Markup.Sound

namespace MarkupEditor

namespace Tag

theorem isLayout_of_nameStart {c : Char} (start : isNameStart c) : isLayout c = false := by
  rw [Bool.eq_false_iff]
  intro layout
  have cases : c = ' ' ∨ c = '\t' ∨ c = '\n' ∨ c = '\r' ∨ c = '\x0c' := by
    simpa [isLayout, or_assoc] using layout
  rcases cases with rfl | rfl | rfl | rfl | rfl <;> exact absurd start (by decide)

theorem next_direct {c : Char} (cs : List Char) (start : isLayout c = false) : next (c :: cs) = some ⟨lexeme c cs, []⟩ := by
  simp [next, takeRun, start]

theorem next_spaced {c : Char} (cs : List Char) (start : isLayout c = false) :
    next (' ' :: c :: cs) = some ⟨lexeme c cs, [' ']⟩ := by
  have space : isLayout ' ' = true := rfl
  simp [next, takeRun, start, space]

def Breaks (r : List Char) : Prop := ∀ c ∈ r.head?, isNameRest c = false

theorem lexeme_name {c : Char} {cs r : List Char} (start : isNameStart c) (more : ∀ d ∈ cs, isNameRest d) (breaks : Breaks r) :
    lexeme c (cs ++ r) = ⟨some .name, c :: cs, r⟩ := by
  simp only [lexeme, start, if_true, takeRun_exact more breaks]

theorem next_printed_name {name : String} (isName : IsName name) {r : List Char} (breaks : Breaks r) :
    next (name.toList ++ r) = some ⟨⟨some .name, name.toList, r⟩, []⟩ ∧
      next (' ' :: name.toList ++ r) = some ⟨⟨some .name, name.toList, r⟩, [' ']⟩ := by
  obtain ⟨c, cs, spelled, start, more⟩ := isName
  have layout := isLayout_of_nameStart start
  rw [spelled]
  simp only [List.cons_append]
  rw [next_direct _ layout, next_spaced _ layout, lexeme_name start more breaks]
  exact ⟨rfl, rfl⟩

theorem isName_iff {name : String} : IsName name ↔ next name.toList = some ⟨⟨some .name, name.toList, []⟩, []⟩ := by
  constructor
  · intro isName
    have found := (next_printed_name isName (r := []) (by simp [Breaks])).1
    rwa [List.append_nil] at found
  · intro found
    have isName := next_name found rfl
    rwa [String.ofList_toList] at isName

theorem next_mark {m : Char} {k : TagKind} (r : List Char) (mark : ofChar? m = some k) :
    next (m :: r) = some ⟨⟨some k, [m], r⟩, []⟩ ∧ next (' ' :: m :: r) = some ⟨⟨some k, [m], r⟩, [' ']⟩ := by
  have single : m = '=' ∨ m = '{' ∨ m = '/' ∨ m = '>' := by
    unfold ofChar? at mark
    split at mark <;> simp_all
  have layout : isLayout m = false := by
    rcases single with rfl | rfl | rfl | rfl <;> rfl
  have token : lexeme m r = ⟨some k, [m], r⟩ := by
    rcases single with rfl | rfl | rfl | rfl <;> cases mark <;> rfl
  rw [next_direct _ layout, next_spaced _ layout, token]
  exact ⟨rfl, rfl⟩

theorem next_printed_string {value : List Char} {quote : Quote} (free : quote.char ∉ value) (r : List Char) :
    next (quote.char :: value ++ quote.char :: r) =
      some ⟨⟨some .stringLit, quote.char :: value ++ [quote.char], r⟩, []⟩ := by
  have layout : isLayout quote.char = false := by cases quote <;> rfl
  have name : isNameStart quote.char = false := by cases quote <;> rfl
  have mark : quote.char = '"' ∨ quote.char = '\'' := by cases quote <;> simp [Quote.char]
  have all : ∀ c ∈ value, decide (c ≠ quote.char) = true := by
    intro c member
    simpa using fun same : c = quote.char => free (same ▸ member)
  have taken : takeRun (fun c => decide (c ≠ quote.char)) (value ++ quote.char :: r) = (value, quote.char :: r) :=
    takeRun_exact all (by simp)
  rw [List.cons_append, next_direct _ layout]
  simp only [lexeme, name, mark, if_true, if_false, Bool.false_eq_true, quoted, taken, List.cons_append]

end Tag

theorem Reads.angle {z : List Char} (c : Cursor) (here : c.rest = '>' :: z) : ∃ c', Angle c c' ∧ c'.rest = z := by
  have token := (Tag.next_mark z (show Tag.ofChar? '>' = some .gt from rfl)).1
  exact ⟨_, ⟨_, by rw [here]; exact token, rfl, rfl⟩, rfl⟩

def closingText : Option String → List Char
  | none => ['>']
  | some name => name.toList ++ ['>']

theorem Reads.closingTag {name : Option String} (named : ∀ n ∈ name, Tag.IsName n) {z : List Char} (c : Cursor)
    (here : c.rest = closingText name ++ z) : ∃ c', ClosingTag name c c' ∧ c'.rest = z := by
  cases name with
  | none => exact Reads.angle c here
  | some name =>
    have token := (Tag.next_printed_name (named name rfl) (r := '>' :: z) (by intro c h; cases h; rfl)).1
    have found : Tag.next c.rest = some ⟨⟨some .name, name.toList, '>' :: z⟩, []⟩ := by
      rw [here, closingText, List.append_assoc]
      exact token
    obtain ⟨c', angle, rest⟩ := Reads.angle (Parse.past c ⟨⟨some .name, name.toList, '>' :: z⟩, []⟩) rfl
    exact ⟨c', ⟨_, found, rfl, String.ofList_toList, angle⟩, rest⟩

open Reshape

def CodeEnd.closer : CodeEnd → List Char
  | .brace => ['}']
  | .statement => []

def RereadsCode (e : CodeEnd) (z : List Char) (d : Nat) (a : Bool) (ps : List Part) : Prop :=
  ∀ c : Cursor, c.rest = Print.parts ps ++ (e.closer ++ z) →
    ∃ (ps' : List Part) (c' : Cursor), Reads (.parts e d a) c ps' c' ∧ c'.rest = z ∧ unplaced.parts ps' = reread.parts ps

def RereadsMarkup (n : Node) : Prop :=
  ∀ (start : Position) (c : Cursor) (z : List Char), '<' :: c.rest = Print.node n ++ z →
    ∃ (n' : Node) (c' : Cursor), Reads (.markup start) c n' c' ∧ c'.rest = z ∧ unplaced.node n' = reread.node n

theorem rereads_last {e : CodeEnd} {z : List Char} {d : Nat} {a : Bool} {text : List Char} (ends : Code.Ends e z d a text) :
    RereadsCode e z d a (Part.ofCode text) := by
  intro c here
  rw [Print.parts_ofCode] at here
  have same : unplaced.parts (Part.ofCode text) = reread.parts (Part.ofCode text) := by
    rw [parts_ofCode, parts_ofCode]
  cases e with
  | brace =>
    obtain ⟨d', closes⟩ := ends
    have ran := closes z
    rw [show text ++ '}' :: z = c.rest from here.symm] at ran
    exact ⟨_, _, .finished ran, rfl, same⟩
  | statement =>
    obtain ⟨stop, rfl | rfl, ran⟩ := ends
    · rw [show text ++ z = c.rest from here.symm] at ran
      exact ⟨_, _, .finished ran, rfl, same⟩
    · rw [show text ++ z = c.rest from here.symm] at ran
      exact ⟨_, _, .exhausted ran, rfl, same⟩

theorem rereads_coded {e : CodeEnd} {z : List Char} {d : Nat} {a : Bool} {ps : List Part}
    (coded : Coded e (Code.Ends e z) d a ps) (inside : ∀ n ∈ ps.filterMap Part.node?, n.isMarkup → n.Local ∧ RereadsMarkup n) :
    RereadsCode e z d a ps := by
  induction coded with
  | last ends => exact rereads_last ends
  | @embedded d a text d' n ps opens markup _ ih =>
    intro c here
    have member : n ∈ (Part.ofCode text ++ .node n :: ps).filterMap Part.node? := by simp [Part.node?]
    obtain ⟨sound, rereads⟩ := inside n member markup
    simp only [Print.parts_append, Print.parts_ofCode, Print.parts, Print.part, List.append_assoc] at here
    obtain ⟨y, opened, starts⟩ := print_markup markup sound (Print.parts ps ++ (e.closer ++ z))
    rw [opened] at here
    have ran := opens y starts
    rw [← here] at ran
    obtain ⟨n', c₁, node, rest, same⟩ := rereads (c.pos.after text) (c.moved (text ++ ['<']) y) _ opened.symm
    have later : ∀ m ∈ ps.filterMap Part.node?, m.isMarkup → m.Local ∧ RereadsMarkup m := by
      intro m listed
      exact inside m (by simp [Part.node?, listed])
    obtain ⟨ps', c₂, code, ended, parts⟩ := ih later c₁ rest
    refine ⟨_, c₂, .embedded ran node code, ended, ?_⟩
    simp only [parts_append, parts_ofCode, Reshape.parts, Reshape.part, same, parts]

def tagEnd (selfClosing : Bool) : List Char := if selfClosing then [' ', '/', '>'] else ['>']

theorem breaks_attributes (attrs : List Attribute) (b : Bool) (z : List Char) :
    Tag.Breaks (Print.attributes attrs ++ (tagEnd b ++ z)) := by
  intro c head
  cases attrs with
  | nil => cases b <;> cases head <;> rfl
  | cons a attrs =>
    cases head
    rfl

theorem attributes_unequal {attrs : List Attribute} (sound : ∀ a ∈ attrs, a.Sound) (b : Bool) (z : List Char) {t : Token TagKind}
    (found : Tag.next (Print.attributes attrs ++ (tagEnd b ++ z)) = some t) : t.kind ≠ some .eq := by
  have named : ∀ {name : String} {r : List Char}, Tag.IsName name → Tag.Breaks r →
      Tag.next (' ' :: name.toList ++ r) = some t → t.kind ≠ some .eq := by
    intro name r isName breaks found
    rw [(Tag.next_printed_name isName breaks).2] at found
    cases found
    simp
  cases attrs with
  | nil =>
    cases b with
    | true =>
      rw [show Print.attributes [] ++ (tagEnd true ++ z) = ' ' :: '/' :: '>' :: z from rfl,
        (Tag.next_mark _ (show Tag.ofChar? '/' = some .slash from rfl)).2] at found
      cases found
      simp
    | false =>
      rw [show Print.attributes [] ++ (tagEnd false ++ z) = '>' :: z from rfl,
        (Tag.next_mark _ (show Tag.ofChar? '>' = some .gt from rfl)).1] at found
      cases found
      simp
  | cons a attrs =>
    have first := sound a List.mem_cons_self
    cases a with
    | flag name =>
      refine named first (breaks_attributes attrs b z) ?_
      simpa [Print.attributes, Print.attr] using found
    | string name value quote =>
      refine named first.1 (r := '=' :: quote.char :: value.toList ++ quote.char :: (Print.attributes attrs ++ (tagEnd b ++ z))) ?_ ?_
      · intro c head
        cases head
        rfl
      · simpa [Print.attributes, Print.attr] using found
    | expression name ps =>
      refine named first.1 (r := '=' :: '{' :: Print.parts ps ++ '}' :: (Print.attributes attrs ++ (tagEnd b ++ z))) ?_ ?_
      · intro c head
        cases head
        rfl
      · simpa [Print.attributes, Print.attr] using found
    | spread ps =>
      simp only [Print.attributes, Print.attr, List.cons_append] at found
      rw [(Tag.next_mark _ (show Tag.ofChar? '{' = some .lbrace from rfl)).2] at found
      cases found
      simp

def RereadsAttributes (attrs : List Attribute) : Prop :=
  ∀ (c : Cursor) (b : Bool) (z : List Char), c.rest = Print.attributes attrs ++ (tagEnd b ++ z) →
    ∃ attrs' c', Reads .attributes c (attrs', b) c' ∧ c'.rest = z ∧ unplaced.attributes attrs' = reread.attributes attrs

theorem rereads_tagEnd : RereadsAttributes [] := by
  intro c b z here
  cases b with
  | true =>
    have token := (Tag.next_mark ('>' :: z) (show Tag.ofChar? '/' = some .slash from rfl)).2
    rw [show ' ' :: '/' :: '>' :: z = c.rest from here.symm] at token
    obtain ⟨c', angle, rest⟩ := Reads.angle (Parse.past c ⟨⟨some .slash, ['/'], '>' :: z⟩, [' ']⟩) rfl
    exact ⟨[], c', .slash token rfl angle, rest, rfl⟩
  | false =>
    have token := (Tag.next_mark z (show Tag.ofChar? '>' = some .gt from rfl)).1
    rw [show '>' :: z = c.rest from here.symm] at token
    exact ⟨[], _, .close token rfl, rfl, rfl⟩

theorem spreadDots?_printed (rest : List Char) : Parse.spreadDots? ('.' :: '.' :: '.' :: rest) = some (['.', '.', '.'], rest) := rfl

def printedTokens {c : Cursor} {name : String} {v : Token TagKind} {r : List Char} (isName : Tag.IsName name)
    (here : c.rest = ' ' :: name.toList ++ '=' :: r) (valued : Tag.next r = some v) : ValueTokens c where
  name := ⟨⟨some .name, name.toList, '=' :: r⟩, [' ']⟩
  equals := ⟨⟨some .eq, ['='], r⟩, []⟩
  value := v
  named := by
    rw [here]
    exact (Tag.next_printed_name isName (by intro c h; cases h; rfl)).2
  isName := rfl
  equaled := (Tag.next_mark r (show Tag.ofChar? '=' = some .eq from rfl)).1
  isEquals := rfl
  valued := valued

theorem rereads_attributes {attrs : List Attribute} (sound : ∀ a ∈ attrs, a.Sound)
    (inside : ∀ n ∈ (attrs.flatMap Attribute.parts).filterMap Part.node?, n.isMarkup → n.Local ∧ RereadsMarkup n) :
    RereadsAttributes attrs := by
  induction attrs with
  | nil => exact rereads_tagEnd
  | cons a attrs ih =>
    intro c b z here
    have first := sound a List.mem_cons_self
    have others : ∀ a ∈ attrs, a.Sound := fun a member => sound a (List.mem_cons_of_mem _ member)
    have own : ∀ n ∈ a.parts.filterMap Part.node?, n.isMarkup → n.Local ∧ RereadsMarkup n := by
      intro n member
      exact inside n (by rw [List.flatMap_cons, List.filterMap_append]; exact List.mem_append_left _ member)
    have later := ih others fun n member =>
      inside n (by rw [List.flatMap_cons, List.filterMap_append]; exact List.mem_append_right _ member)
    cases a with
    | flag name =>
      have token := (Tag.next_printed_name first (breaks_attributes attrs b z)).2
      rw [show ' ' :: name.toList ++ (Print.attributes attrs ++ (tagEnd b ++ z)) = c.rest by
        simpa [Print.attributes, Print.attr] using here.symm] at token
      obtain ⟨attrs', c', more, rest, same⟩ :=
        later (Parse.past c ⟨⟨some .name, name.toList, Print.attributes attrs ++ (tagEnd b ++ z)⟩, [' ']⟩) b z rfl
      refine ⟨_, c', .flag token rfl (fun e found => attributes_unequal others b z found) more, rest, ?_⟩
      simp [Reshape.attributes, Reshape.attr, same]
    | string name value quote =>
      have token := Tag.next_printed_string first.2 (Print.attributes attrs ++ (tagEnd b ++ z))
      let tokens : ValueTokens c := printedTokens first.1 (by simpa [Print.attributes, Print.attr] using here) token
      obtain ⟨attrs', c', more, rest, same⟩ := later tokens.stop b z rfl
      refine ⟨_, c', .string tokens rfl more, rest, ?_⟩
      have unquoted : Parse.unquote (quote.char :: value.toList ++ [quote.char]) = value := by
        simp [Parse.unquote, String.ofList_toList]
      have marked : Parse.quoteOf (quote.char :: value.toList ++ [quote.char]) = quote := by
        cases quote <;> rfl
      simp only [Reshape.attributes, Reshape.attr, same, tokens, printedTokens, unquoted, marked, String.ofList_toList]
    | expression name ps =>
      have token := (Tag.next_mark (Print.parts ps ++ '}' :: (Print.attributes attrs ++ (tagEnd b ++ z)))
        (show Tag.ofChar? '{' = some .lbrace from rfl)).1
      let tokens : ValueTokens c := printedTokens first.1 (by simpa [Print.attributes, Print.attr] using here) token
      obtain ⟨ps', c₁, code, reached, parts⟩ :=
        rereads_coded (show Coded .brace (Code.Ends .brace (Print.attributes attrs ++ (tagEnd b ++ z))) 0 true ps from first.2)
          own tokens.stop rfl
      obtain ⟨attrs', c₂, more, rest, same⟩ := later c₁ b z reached
      refine ⟨_, c₂, .expression tokens rfl code more, rest, ?_⟩
      simp only [Reshape.attributes, Reshape.attr, same, parts, tokens, printedTokens, String.ofList_toList]
    | spread ps =>
      let inner := Print.parts ps ++ '}' :: (Print.attributes attrs ++ (tagEnd b ++ z))
      have token := (Tag.next_mark ('.' :: '.' :: '.' :: inner) (show Tag.ofChar? '{' = some .lbrace from rfl)).2
      rw [show ' ' :: '{' :: '.' :: '.' :: '.' :: inner = c.rest by
        simpa [Print.attributes, Print.attr, inner] using here.symm] at token
      obtain ⟨ps', c₁, code, reached, parts⟩ :=
        rereads_coded (show Coded .brace (Code.Ends .brace (Print.attributes attrs ++ (tagEnd b ++ z))) 0 true ps from first)
          own ((Parse.past c ⟨⟨some .lbrace, ['{'], '.' :: '.' :: '.' :: inner⟩, [' ']⟩).moved ['.', '.', '.'] inner) rfl
      obtain ⟨attrs', c₂, more, rest, same⟩ := later c₁ b z reached
      refine ⟨_, c₂, .spread token rfl (spreadDots?_printed inner) code more, rest, ?_⟩
      simp only [Reshape.attributes, Reshape.attr, same, parts]

-- What stands between tags is read from the text `x` as `ns`, up to the text `z` after the closing tag.
def ReadsBetween (name : Option String) (x : List Char) (ns : List Node) (z : List Char) : Prop :=
  ∀ c : Cursor, c.rest = x → ∃ (kids : List Node) (c' : Cursor), Reads (.children name) c kids c' ∧ c'.rest = z ∧ unplaced.nodes kids = ns

theorem unplaced_nodes (ns : List Node) : unplaced.nodes ns = ns.map unplaced.node := by
  induction ns with
  | nil => rfl
  | cons n ns ih => simp only [Reshape.nodes, ih, List.map_cons]; rfl

section

variable {name : Option String} {s z : List Char} {ns : List Node}

theorem between_closing (named : ∀ n ∈ name, Tag.IsName n) :
    ReadsBetween name ('<' :: '/' :: (closingText name ++ z)) [] z := by
  intro c here
  have plain : Parse.plainText c.rest = ([], '<' :: '/' :: (closingText name ++ z)) := by rw [here]; rfl
  obtain ⟨c', tag, rest⟩ := Reads.closingTag named (c.moved ([] ++ ['<', '/']) (closingText name ++ z)) rfl
  exact ⟨_, c', .closing plain tag, rest, rfl⟩

theorem between_prepend {x : Char} (tag : x ≠ '<') (brace : x ≠ '{') (later : ReadsBetween name s ns z) :
    ReadsBetween name (x :: s) (prepend x ns) z := by
  intro c here
  obtain ⟨kids, c', read, rest, rfl⟩ := later ⟨c.pos.after [x], s⟩ rfl
  have longer : ∀ {text r}, Parse.plainText s = (text, r) → Parse.plainText c.rest = (x :: text, r) := by
    intro text r plain
    obtain ⟨rfl, rfl⟩ := Prod.mk.inj plain
    rw [here]
    simp [Parse.plainText, takeRun, tag, brace]
  have joined : ∀ (text : List Char) (more : List Node), (∀ n ∈ more.head?, n.kind ≠ .text) →
      unplaced.nodes (Parse.textNode c.pos (x :: text) ++ more) =
        prepend x (unplaced.nodes (Parse.textNode (c.pos.after [x]) text ++ more)) := by
    intro text more other
    cases text with
    | cons y text =>
      simp only [unplaced_nodes, Parse.textNode, List.isEmpty_cons, Bool.false_eq_true, if_false, List.singleton_append,
        List.map_cons]
      simp [Reshape.node, prepend]
      rfl
    | nil =>
      cases more with
      | nil => rfl
      | cons n more =>
        have kind := other n rfl
        cases n with
        | text => exact absurd rfl kind
        | element | fragment | wrapper | other => rfl
  cases read with
  | closing plain tag => exact ⟨_, c', .closing (longer plain) tag, rest, by simpa using joined _ [] (by simp)⟩
  | wrapper plain code more =>
    refine ⟨_, c', .wrapper (longer plain) code more, rest, joined _ (_ :: _) ?_⟩
    intro n same
    cases same
    simp [Node.kind]
  | child plain starts node more =>
    refine ⟨_, c', .child (longer plain) starts node more, rest, joined _ (_ :: _) ?_⟩
    obtain ⟨markup, _⟩ := reads_sound node
    intro n same
    cases same
    intro text
    simp [Node.isMarkup, text] at markup

theorem between_markup {n : Node} (markup : n.isMarkup) (sound : n.Local) (rereads : RereadsMarkup n)
    (later : ReadsBetween name s ns z) : ReadsBetween name (Print.node n ++ s) (reread.node n :: ns) z := by
  intro c here
  obtain ⟨y, opened, starts⟩ := print_markup markup sound s
  rw [opened] at here
  have plain : Parse.plainText c.rest = ([], '<' :: y) := by rw [here]; rfl
  obtain ⟨n', c₁, node, reached, same⟩ := rereads (c.pos.after []) (c.moved ([] ++ ['<']) y) s opened.symm
  obtain ⟨kids, c₂, more, rest, rfl⟩ := later c₁ reached
  refine ⟨_, c₂, .child plain starts node more, rest, ?_⟩
  rw [← same, unplaced_nodes, unplaced_nodes]
  rfl

theorem spreadDots?_undotted {text rest : List Char} {m : Char} (undotted : Parse.spreadDots? text = none)
    (blank : Text.isBlank m = false) (dot : m ≠ '.') : Parse.spreadDots? (text ++ m :: rest) = none := by
  have taken : takeRun Text.isBlank (text ++ m :: rest) =
      (text.takeWhile Text.isBlank, text.dropWhile Text.isBlank ++ m :: rest) := by
    simp only [takeRun, Code.dropWhile_upTo blank, Prod.mk.injEq, and_true]
    rw [List.takeWhile_append]
    split
    · rename_i all
      rw [List.takeWhile_cons_of_neg (by simp [blank]), List.append_nil]
      exact ((List.takeWhile_prefix _).eq_of_length all).symm
    · rfl
  unfold Parse.spreadDots? at undotted ⊢
  rw [taken]
  simp only [takeRun] at undotted
  -- Three dots in a row stand either in the text alone or need the character after it.
  rcases left : text.dropWhile Text.isBlank with _ | ⟨a, _ | ⟨b, _ | ⟨d, more⟩⟩⟩
  · simp [dot]
  · simp [dot]
  · simp [dot]
  · rw [left] at undotted
    simp only [List.cons_append]
    split at undotted
    · cases undotted
    · rename_i never
      split
      · rename_i same
        cases same
        exact absurd rfl (never _ _)
      · rfl

theorem lead_stop {ps : List Part} (coded : InBrace ps) (inside : ∀ n ∈ ps.filterMap Part.node?, n.isMarkup → n.Local) :
    ∃ m rest, Print.parts ps ++ '}' :: s = Part.lead ps ++ m :: rest ∧ (m = '<' ∨ m = '}') := by
  cases coded with
  | @last _ _ text ends =>
    have lead : Part.lead (Part.ofCode text) = text := by simpa using Part.lead_ofCode text [] (by simp)
    exact ⟨'}', s, by rw [Print.parts_ofCode, lead], .inr rfl⟩
  | @embedded _ _ text d' n ps opens markup more =>
    have member : n ∈ (Part.ofCode text ++ .node n :: ps).filterMap Part.node? := by simp [Part.node?]
    obtain ⟨y, opened, _⟩ := print_markup markup (inside n member markup) (Print.parts ps ++ '}' :: s)
    refine ⟨'<', y, ?_, .inl rfl⟩
    rw [Part.lead_ofCode _ _ (by simp), Print.parts_append, Print.parts_ofCode]
    simp only [Print.parts, Print.part, List.append_assoc, opened]

theorem braceHead_printed {loc : Location} {spread : Bool} {ps : List Part} (sound : (Node.wrapper loc spread ps).Local)
    (inside : ∀ n ∈ ps.filterMap Part.node?, n.isMarkup → n.Local) :
    ∃ dots, braceHead ((if spread then ['.', '.', '.'] else []) ++ (Print.parts ps ++ '}' :: s)) =
      (spread, dots, Print.parts ps ++ '}' :: s) := by
  cases spread with
  | true => exact ⟨['.', '.', '.'], rfl⟩
  | false =>
    obtain ⟨m, rest, stop, mark⟩ := lead_stop (s := s) sound.1 inside
    have undotted : Parse.spreadDots? (Print.parts ps ++ '}' :: s) = none := by
      rw [stop]
      rcases mark with rfl | rfl <;> exact spreadDots?_undotted (sound.2 rfl) (by decide) (by decide)
    exact ⟨[], by simp [braceHead, undotted]⟩

theorem between_wrapper {loc : Location} {spread : Bool} {ps : List Part} (sound : (Node.wrapper loc spread ps).Local)
    (inside : ∀ n ∈ ps.filterMap Part.node?, n.isMarkup → n.Local) (rereads : RereadsCode .brace s 0 true ps)
    (later : ReadsBetween name s ns z) :
    ReadsBetween name (Print.node (.wrapper loc spread ps) ++ s) (reread.node (.wrapper loc spread ps) :: ns) z := by
  intro c here
  obtain ⟨dots, head⟩ := braceHead_printed (s := s) sound inside
  have plain : Parse.plainText c.rest = ([], '{' :: ((if spread then ['.', '.', '.'] else []) ++ (Print.parts ps ++ '}' :: s))) := by
    rw [here, Print.node]
    simp [Parse.plainText, takeRun]
  obtain ⟨ps', c₁, code, reached, parts⟩ := rereads (c.moved ([] ++ '{' :: dots) (Print.parts ps ++ '}' :: s)) rfl
  obtain ⟨kids, c₂, more, rest, rfl⟩ := later c₁ reached
  have read := Reads.wrapper plain (by rw [head]; exact code) more
  rw [head] at read
  refine ⟨_, c₂, read, rest, ?_⟩
  simp only [Parse.textNode, List.isEmpty_nil, if_true, List.nil_append, unplaced_nodes, List.map_cons, Reshape.node, parts]
  rfl

theorem closes_string {body : List Char} (whole : ∀ z, Code.quotedBody '"' (body ++ '"' :: z) = (body, '"' :: z)) :
    Code.Closes 0 true ('"' :: (body ++ ['"'])) := by
  refine ⟨0, fun y => ?_⟩
  have string : Code.next ('"' :: (body ++ '"' :: '}' :: y)) = some ⟨⟨some .stringLit, '"' :: (body ++ ['"']), '}' :: y⟩, []⟩ := by
    have quoted : Code.lexeme '"' (body ++ '"' :: '}' :: y) = Code.quoted .stringLit '"' (body ++ '"' :: '}' :: y) := rfl
    rw [Code.next_direct rfl, quoted]
    simp only [Code.quoted, whole, if_true, List.cons_append]
  have brace : Code.next ('}' :: y) = some ⟨⟨some .rbrace, ['}'], y⟩, []⟩ := Code.next_direct rfl
  rw [List.cons_append, List.append_assoc, List.singleton_append, Code.run_goOn string rfl, Code.run_stopBefore brace rfl]
  simp [CodeRun.before, Token.through]

theorem closes_quoting {c : Char} (special : c = '{' ∨ c = '}' ∨ c = '<') : Code.Closes 0 true ['"', c, '"'] := by
  refine @closes_string [c] fun z => ?_
  rcases special with rfl | rfl | rfl <;> rfl

theorem between_text (value : List Char) (later : ReadsBetween name s ns z) :
    ReadsBetween name (Print.text value ++ s) (respell value ns) z := by
  induction value with
  | nil => exact later
  | cons c cs ih =>
    by_cases special : c = '{' ∨ c = '}' ∨ c = '<'
    · have coded : InBrace [.code (String.ofList ['"', c, '"'])] := .last (closes_quoting special)
      have undotted : Parse.spreadDots? (Part.lead [.code (String.ofList ['"', c, '"'])]) = none := by
        simp only [Part.lead, String.toList_ofList]
        rfl
      have read := between_wrapper (show (quoting c).Local from ⟨coded, fun _ => undotted⟩) (by simp [Part.node?])
        (rereads_coded coded (by simp [Part.node?])) ih
      rw [respell, if_pos special]
      have printed : Print.text (c :: cs) ++ s = Print.node (quoting c) ++ (Print.text cs ++ s) := by
        simp [Print.text, Print.textChar, special, quoting, Print.node, Print.parts, Print.part]
      rw [printed]
      exact read
    · rw [respell, if_neg special]
      have printed : Print.text (c :: cs) ++ s = c :: (Print.text cs ++ s) := by
        simp [Print.text, Print.textChar, special]
      rw [printed]
      simp only [not_or] at special
      exact between_prepend special.2.2 special.1 ih

end

theorem Node.Sound.inner {n m : Node} (sound : n.Sound) (member : m ∈ n.inner) : m.Sound :=
  fun k inside => sound k (Walk.mem_of_inner member inside)

-- A node is read back where it may stand: markup in code and between tags, a brace expression between tags.
def Rereads : Node → Prop
  | .text .. | .other .. => True
  | .wrapper _ _ ps => ∀ z, RereadsCode .brace z 0 true ps
  | n => RereadsMarkup n

theorem Rereads.markup {n : Node} (rereads : Rereads n) (markup : n.isMarkup) : RereadsMarkup n := by
  cases n with
  | element | fragment => exact rereads
  | text | wrapper | other => cases markup

theorem rereads_children {kids : List Node} (kinds : ∀ n ∈ kids, n.kind ≠ .other) (sound : ∀ n ∈ kids, n.Sound)
    (rereads : ∀ n ∈ kids, Rereads n) (name : Option String) (named : ∀ n ∈ name, Tag.IsName n) (z : List Char) :
    ReadsBetween name (Print.nodes kids ++ '<' :: '/' :: (closingText name ++ z)) (reread.nodes kids) z := by
  induction kids with
  | nil => exact between_closing named
  | cons n kids ih =>
    have later := ih (fun m member => kinds m (List.mem_cons_of_mem _ member)) (fun m member => sound m (List.mem_cons_of_mem _ member))
      (fun m member => rereads m (List.mem_cons_of_mem _ member))
    have own := sound n List.mem_cons_self
    have first := rereads n List.mem_cons_self
    simp only [Print.nodes, Reshape.nodes, List.append_assoc]
    cases n with
    | element | fragment => exact between_markup rfl own.self first later
    | text loc value => exact between_text value.toList later
    | wrapper loc spread ps => exact between_wrapper own.self (fun m member _ => (own.inner member).self) (first _) later
    | other => exact absurd rfl (kinds _ List.mem_cons_self)

theorem rereads_element {loc : Location} {name : String} {attrs : List Attribute} {kids : List Node} {selfClosing : Bool}
    (sound : (Node.element loc name attrs kids selfClosing).Sound)
    (inside : ∀ m ∈ (Node.element loc name attrs kids selfClosing).inner, Rereads m) :
    RereadsMarkup (.element loc name attrs kids selfClosing) := by
  obtain ⟨isName, good, kinds⟩ := sound.self
  have attributes := rereads_attributes good fun n member markup =>
    have member : n ∈ (Node.element loc name attrs kids selfClosing).inner := List.mem_append_left _ member
    ⟨(sound.inner member).self, (inside n member).markup markup⟩
  have children := rereads_children kinds (fun n member => sound.inner (List.mem_append_right _ member))
    (fun n member => inside n (List.mem_append_right _ member))
  intro start c z here
  by_cases closed : selfClosing ∧ kids.isEmpty
  · obtain ⟨rfl, empty⟩ := closed
    obtain rfl : kids = [] := List.isEmpty_iff.mp empty
    have tag : c.rest = name.toList ++ (Print.attributes attrs ++ (tagEnd true ++ z)) := by
      simpa [Print.node, tagEnd] using here
    have token := (Tag.next_printed_name isName (breaks_attributes attrs true z)).1
    rw [← tag] at token
    obtain ⟨attrs', c₁, read, rest, same⟩ :=
      attributes (Parse.past c ⟨⟨some .name, name.toList, Print.attributes attrs ++ (tagEnd true ++ z)⟩, []⟩) true z rfl
    refine ⟨_, c₁, .selfClosed token rfl read, rest, ?_⟩
    simp only [Reshape.node, same, String.ofList_toList]
    rfl
  · have open_ : (selfClosing && kids.isEmpty) = false := by simpa using closed
    let between := Print.nodes kids ++ '<' :: '/' :: (closingText (some name) ++ z)
    have tag : c.rest = name.toList ++ (Print.attributes attrs ++ (tagEnd false ++ between)) := by
      rw [Print.node, if_neg closed] at here
      simpa [tagEnd, closingText, between] using here
    have token := (Tag.next_printed_name isName (breaks_attributes attrs false between)).1
    rw [← tag] at token
    obtain ⟨attrs', c₁, read, reached, same⟩ :=
      attributes (Parse.past c ⟨⟨some .name, name.toList, Print.attributes attrs ++ (tagEnd false ++ between)⟩, []⟩) false between rfl
    obtain ⟨kids', c₂, inside, rest, nodes⟩ := children (some name) (by rintro n ⟨⟩; exact isName) z c₁ reached
    refine ⟨_, c₂, .element token rfl read (by rw [String.ofList_toList]; exact inside), rest, ?_⟩
    simp only [Reshape.node, same, nodes, String.ofList_toList]
    simp [reread, unplaced, open_]

theorem rereads_fragment {loc : Location} {kids : List Node} (sound : (Node.fragment loc kids).Sound)
    (inside : ∀ m ∈ kids, Rereads m) : RereadsMarkup (.fragment loc kids) := by
  have children := rereads_children sound.self (fun n member => sound.inner member) inside
  intro start c z here
  have opened : c.rest = '>' :: (Print.nodes kids ++ '<' :: '/' :: (closingText none ++ z)) := by
    simpa [Print.node, closingText] using here
  obtain ⟨kids', c₁, read, rest, same⟩ := children none (by simp) z (c.moved ['>'] _) rfl
  refine ⟨_, c₁, .fragment opened read, rest, ?_⟩
  simp only [Reshape.node, same]
  rfl

theorem rereads_of_sound (n : Node) (sound : n.Sound) : Rereads n := by
  induction n using Node.inner_induction with
  | step n ih =>
    have inside : ∀ m ∈ n.inner, Rereads m := fun m member => ih m member (sound.inner member)
    cases n with
    | element => exact rereads_element sound inside
    | fragment => exact rereads_fragment sound inside
    | text | other => trivial
    | wrapper loc spread ps =>
      intro z
      exact rereads_coded sound.self.1 fun m member markup => ⟨(sound.inner member).self, (inside m member).markup markup⟩

theorem rereads_body {body : List Part} (settled : Settled body) (sound : SoundParts body) (c : Cursor)
    (here : c.rest = Print.parts body) : ∃ body', ReadsBody c body' ∧ unplaced.parts body' = reread.parts body := by
  induction settled generalizing c with
  | @done w ended =>
    rw [Print.parts_ofCode] at here
    rw [← here] at ended ⊢
    exact ⟨_, .done ended, by rw [parts_ofCode, parts_ofCode]⟩
  | @statement w loc ps more t found skipped coded _ ih =>
    have inside : ∀ n ∈ ps.filterMap Part.node?, n.Sound := by
      intro n member m below
      refine sound m (Walk.mem_parts.mpr ⟨.other loc ps, by simp [Part.node?], ?_⟩)
      exact Walk.mem_of_inner member below
    have later : SoundParts more := by
      intro m member
      refine sound m ?_
      simp only [Walk.parts_append, Walk.parts, List.mem_append]
      exact .inr (.inr member)
    simp only [Print.parts_append, Print.parts_ofCode, Print.parts, Print.part, Print.node] at here
    have whole := Code.next_whole found
    subst skipped
    have ahead : t.ahead = Print.parts ps ++ Print.parts more := List.append_cancel_left whole
    obtain ⟨ps', c₁, code, reached, same⟩ :=
      rereads_coded coded (fun n member markup =>
        ⟨(inside n member).self, (rereads_of_sound n (inside n member)).markup markup⟩) (c.moved t.skipped t.ahead) ahead
    obtain ⟨more', read, rest⟩ := ih later c₁ reached
    rw [← here] at found
    refine ⟨_, .statement found code read, ?_⟩
    simp only [parts_append, parts_ofCode, Reshape.parts, Reshape.part, Reshape.node, same, rest]
    rfl

-- A reshaping that prints each child, and so the whole tree, as it was.
structure Reshape.KeepsPrint (f : Reshape) : Prop where
  child : ∀ n rest, Print.nodes (f.child n rest) = Print.node n ++ Print.nodes rest
  closed : ∀ selfClosing kids, f.closed selfClosing kids ∧ (f.nodes kids).isEmpty ↔ selfClosing ∧ kids.isEmpty

section

variable {f : Reshape}

mutual

theorem print_reshape_node (keeps : f.KeepsPrint) : ∀ n : Node, Print.node (f.node n) = Print.node n
  | .element loc name attrs kids selfClosing => by
    simp only [Reshape.node, Print.node, print_reshape_attributes keeps attrs, print_reshape_nodes keeps kids, keeps.closed]
  | .fragment loc kids => by simp only [Reshape.node, Print.node, print_reshape_nodes keeps kids]
  | .text loc value => rfl
  | .wrapper loc spread ps => by simp only [Reshape.node, Print.node, print_reshape_parts keeps ps]
  | .other loc ps => by simp only [Reshape.node, Print.node, print_reshape_parts keeps ps]

theorem print_reshape_nodes (keeps : f.KeepsPrint) : ∀ ns : List Node, Print.nodes (f.nodes ns) = Print.nodes ns
  | [] => rfl
  | n :: ns => by
    simp only [Reshape.nodes, Print.nodes, keeps.child, print_reshape_node keeps n, print_reshape_nodes keeps ns]

theorem print_reshape_part (keeps : f.KeepsPrint) : ∀ p : Part, Print.part (f.part p) = Print.part p
  | .code _ => rfl
  | .node n => by simp only [Reshape.part, Print.part, print_reshape_node keeps n]

theorem print_reshape_parts (keeps : f.KeepsPrint) : ∀ ps : List Part, Print.parts (f.parts ps) = Print.parts ps
  | [] => rfl
  | p :: ps => by simp only [Reshape.parts, Print.parts, print_reshape_part keeps p, print_reshape_parts keeps ps]

theorem print_reshape_attr (keeps : f.KeepsPrint) : ∀ a : Attribute, Print.attr (f.attr a) = Print.attr a
  | .flag _ => rfl
  | .string .. => rfl
  | .expression _ ps => by simp only [Reshape.attr, Print.attr, print_reshape_parts keeps ps]
  | .spread ps => by simp only [Reshape.attr, Print.attr, print_reshape_parts keeps ps]

theorem print_reshape_attributes (keeps : f.KeepsPrint) :
    ∀ attrs : List Attribute, Print.attributes (f.attributes attrs) = Print.attributes attrs
  | [] => rfl
  | a :: attrs => by
    simp only [Reshape.attributes, Print.attributes, print_reshape_attr keeps a, print_reshape_attributes keeps attrs]

end

theorem print_reshape (keeps : f.KeepsPrint) (t : SourceTree) : (f.tree t).print = t.print := by
  simp only [SourceTree.print, Reshape.tree, print_reshape_parts keeps]

end

theorem keepsPrint_unplaced : unplaced.KeepsPrint where
  child _ _ := rfl
  closed selfClosing kids := by
    rw [unplaced_nodes, List.isEmpty_map]
    rfl

theorem print_respell (value : List Char) (rest : List Node) :
    Print.nodes (respell value rest) = Print.text value ++ Print.nodes rest := by
  induction value with
  | nil => rfl
  | cons c cs ih =>
    rw [respell]
    split
    · rename_i special
      simp [Print.nodes, ih, quoting, Print.node, Print.parts, Print.part, Print.text, Print.textChar, special]
    · rename_i plain
      have prepended : ∀ ns, Print.nodes (prepend c ns) = c :: Print.nodes ns := by
        intro ns
        unfold prepend
        split <;> simp [Print.nodes, Print.node, Print.text, Print.textChar, plain]
      rw [prepended, ih]
      simp [Print.text, Print.textChar, plain]

theorem keepsPrint_reread : reread.KeepsPrint where
  child n rest := by
    cases n with
    | text loc value => exact print_respell value.toList rest
    | element | fragment | wrapper | other => rfl
  closed selfClosing kids := by
    constructor
    · intro both
      simpa [reread] using both.1
    · rintro ⟨rfl, empty⟩
      obtain rfl : kids = [] := List.isEmpty_iff.mp empty
      exact ⟨rfl, rfl⟩

theorem parse_print {t : SourceTree} (sound : t.Sound) :
    ∃ t', parse t.print = .ok t' ∧ unplaced.tree t' = reread.tree t ∧ t'.print = t.print := by
  obtain ⟨body, read, same⟩ := rereads_body sound.settled sound.inside (.ofText t.print.toList)
    (by simp [Cursor.ofText, SourceTree.print])
  have equal : unplaced.tree ⟨body⟩ = reread.tree t := congrArg SourceTree.mk same
  refine ⟨⟨body⟩, parse_eq_ok_iff.mpr read, equal, ?_⟩
  rw [← print_reshape keepsPrint_unplaced, equal, print_reshape keepsPrint_reread]

end MarkupEditor
