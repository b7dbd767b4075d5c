import MarkupEditor.Markup.Print
import MarkupEditor.Markup.Walk
import MarkupEditor.Proofs.Markup.CodeScan
import MarkupEditor.Proofs.Markup.Grammar
import MarkupEditor.Proofs.Markup.Nesting

namespace MarkupEditor

def Tag.IsName (name : String) : Prop := ∃ c cs, name.toList = c :: cs ∧ isNameStart c ∧ ∀ d ∈ cs, Tag.isNameRest d

def Node.isMarkup (n : Node) : Bool := n.kind == .element || n.kind == .fragment

namespace Code

-- Code before a `<` that opens markup, whatever that is.
def Opens (e : CodeEnd) (d : Nat) (a : Bool) (text : List Char) (d' : Nat) : Prop :=
  ∀ y, startsMarkup y → run e d a (text ++ '<' :: y) = ⟨text, d', .markup, ['<'], y⟩

def Closes (d : Nat) (a : Bool) (text : List Char) : Prop :=
  ∃ d', ∀ y, run .brace d a (text ++ '}' :: y) = ⟨text, d', .finished, ['}'], y⟩

def Settles (after : List Char) (d : Nat) (a : Bool) (text : List Char) : Prop :=
  ∃ stop, (stop = .finished ∨ stop = .exhausted) ∧ run .statement d a (text ++ after) = ⟨text, 0, stop, [], after⟩

def Ends : CodeEnd → List Char → Nat → Bool → List Char → Prop
  | .brace, _ => Closes
  | .statement, after => Settles after

end Code

-- Parts of code that stop at each embedded node, and end as they should.
inductive Coded (e : CodeEnd) (Ends : Nat → Bool → List Char → Prop) : Nat → Bool → List Part → Prop where
  | last {d a text} (ends : Ends d a text) : Coded e Ends d a (Part.ofCode text)
  | embedded {d a text d' n ps} (opens : Code.Opens e d a text d') (markup : n.isMarkup) (more : Coded e Ends d' false ps) :
      Coded e Ends d a (Part.ofCode text ++ .node n :: ps)

def InBrace (ps : List Part) : Prop := Coded .brace Code.Closes 0 true ps

def Part.lead : List Part → List Char
  | .code text :: _ => text.toList
  | _ => []

def Attribute.Sound : Attribute → Prop
  | flag name => Tag.IsName name
  | string name value quote => Tag.IsName name ∧ quote.char ∉ value.toList
  | expression name ps => Tag.IsName name ∧ InBrace ps
  | spread ps => InBrace ps

namespace Node

-- What a node has to keep for itself; the nodes in it have their own.
def Local : Node → Prop
  | element _ name attributes children _ =>
    Tag.IsName name ∧ (∀ a ∈ attributes, a.Sound) ∧ ∀ n ∈ children, n.kind ≠ .other
  | fragment _ children => ∀ n ∈ children, n.kind ≠ .other
  | text .. => True
  | wrapper _ spread expression => InBrace expression ∧ (spread = false → Parse.spreadDots? (Part.lead expression) = none)
  | other .. => True

-- Code stops exactly where a node is embedded in it and where it ends, whatever those nodes are printed as.
def Sound (n : Node) : Prop := ∀ m ∈ Walk.node n, m.Local

end Node

theorem Node.Sound.self {n : Node} (sound : n.Sound) : n.Local := sound n (Walk.mem_node n)

theorem Part.lead_ofCode (text : List Char) (ps : List Part) (later : ∀ t qs, ps ≠ .code t :: qs) :
    Part.lead (Part.ofCode text ++ ps) = text := by
  unfold Part.ofCode
  cases text with
  | nil =>
    cases ps with
    | nil => rfl
    | cons p ps =>
      cases p with
      | code t => exact absurd rfl (later t ps)
      | node => rfl
  | cons c cs => simp [Part.lead]

namespace Tag

theorem next_name {cs : List Char} {t : Token TagKind} (found : next cs = some t) (isName : t.kind = some .name) :
    IsName (String.ofList t.text) := by
  obtain ⟨c, more, text, first, others⟩ := Spells.of_name (lexes.spelled found isName)
  exact ⟨c, more, by rw [text, String.toList_ofList], first, others⟩

theorem next_quoted {cs : List Char} {t : Token TagKind} (found : next cs = some t) (isString : t.kind = some .stringLit) :
    t.text = (Parse.quoteOf t.text).char :: ((Parse.unquote t.text).toList ++ [(Parse.quoteOf t.text).char]) ∧
      (Parse.quoteOf t.text).char ∉ (Parse.unquote t.text).toList := by
  obtain ⟨mark, body, text, quote, inside⟩ := Spells.of_string (lexes.spelled found isString)
  have char : (Parse.quoteOf (mark :: body ++ [mark])).char = mark := by
    rcases quote with rfl | rfl <;> simp [Parse.quoteOf, Quote.char]
  have value : (Parse.unquote (mark :: body ++ [mark])).toList = body := by
    simp [Parse.unquote]
  rw [text, char, value]
  exact ⟨rfl, inside⟩

end Tag

theorem spreadDots?_lead {text rest : List Char} (undotted : Parse.spreadDots? (text ++ rest) = none) :
    Parse.spreadDots? text = none := by
  unfold Parse.spreadDots? at undotted ⊢
  split
  · rename_i blank more taken
    have whole := takeRun_append Text.isBlank text
    have again : takeRun Text.isBlank ((takeRun Text.isBlank text).1 ++ '.' :: '.' :: '.' :: (more ++ rest)) = _ :=
      Code.takeRun_again (by rw [taken]; rfl)
    rw [taken] at whole again
    have same : text ++ rest = blank ++ '.' :: '.' :: '.' :: (more ++ rest) := by simp [← whole]
    rw [same, again] at undotted
    cases undotted
  · rfl

def SoundParts (ps : List Part) : Prop := ∀ n ∈ Walk.parts ps, n.Local

def SoundAttributes (attributes : List Attribute) : Prop :=
  (∀ a ∈ attributes, a.Sound) ∧ ∀ n ∈ Walk.attributes attributes, n.Local

def SoundChildren (children : List Node) : Prop :=
  (∀ n ∈ children, n.kind ≠ .other) ∧ ∀ n ∈ Walk.nodes children, n.Local

def Goal.Sound : (g : Goal) → g.Output → Cursor → Prop
  | .parts e d a, ps, c => Coded e (Code.Ends e c.rest) d a ps ∧ SoundParts ps
  | .markup _, n, _ => n.isMarkup ∧ n.Sound
  | .attributes, (attrs, _), _ => SoundAttributes attrs
  | .children _, kids, _ => SoundChildren kids

theorem soundParts_cons {n : Node} {ps : List Part} (text : List Char) (sound : n.Sound) (later : SoundParts ps) :
    SoundParts (Part.ofCode text ++ .node n :: ps) := by
  intro m member
  simp only [Walk.parts_append, Walk.parts_ofCode, Walk.parts, Walk.part, List.nil_append, List.mem_append] at member
  rcases member with member | member
  · exact sound m member
  · exact later m member

theorem soundAttributes_cons {a : Attribute} {attributes : List Attribute} (sound : a.Sound) (inside : SoundParts a.parts)
    (later : SoundAttributes attributes) : SoundAttributes (a :: attributes) := by
  refine ⟨List.forall_mem_cons.mpr ⟨sound, later.1⟩, ?_⟩
  intro n member
  rcases List.mem_append.mp member with member | member
  · cases a with
    | flag | string => simp [Walk.attr] at member
    | expression _ ps => exact inside n member
    | spread ps => exact inside n member
  · exact later.2 n member

theorem soundChildren_cons {n : Node} {children : List Node} (start : Position) (text : List Char) (kind : n.kind ≠ .other)
    (sound : n.Sound) (later : SoundChildren children) : SoundChildren (Parse.textNode start text ++ n :: children) := by
  have before : SoundChildren (Parse.textNode start text) := by
    unfold Parse.textNode
    split <;> simp [SoundChildren, Walk.nodes, Walk.node, Node.Local, Node.kind]
  constructor
  · intro m member
    rcases List.mem_append.mp member with member | member
    · exact before.1 m member
    · rcases List.mem_cons.mp member with rfl | member
      · exact kind
      · exact later.1 m member
  · intro m member
    simp only [Walk.nodes_append, Walk.nodes, List.mem_append] at member
    rcases member with member | member | member
    · exact before.2 m member
    · exact sound m member
    · exact later.2 m member

theorem kind_of_isMarkup {n : Node} (markup : n.isMarkup) : n.kind ≠ .other := by
  intro other
  simp [Node.isMarkup, other] at markup

theorem lead_of_reads {e : CodeEnd} {d : Nat} {a : Bool} {c c' : Cursor} {ps : List Part} (read : Reads (.parts e d a) c ps c') :
    ∃ rest, c.rest = Part.lead ps ++ rest := by
  have whole := Code.run_append e d a c.rest
  have lead : ∀ text, Part.lead (Part.ofCode text) = text := by
    intro text
    simpa using Part.lead_ofCode text [] (by simp)
  cases read with
  | finished ran =>
    rw [ran] at whole
    exact ⟨_, by rw [lead]; exact whole.symm⟩
  | exhausted ran =>
    rw [ran] at whole
    exact ⟨_, by rw [lead]; exact whole.symm⟩
  | embedded ran node more =>
    rw [ran] at whole
    exact ⟨_, by rw [Part.lead_ofCode _ _ (fun _ _ h => by cases h)]; exact whole.symm⟩

theorem reads_sound {g : Goal} {c c' : Cursor} {v : g.Output} (read : Reads g c v c') : g.Sound v c' := by
  induction read with
  | @finished e d a c text d' mark rest ran =>
    refine ⟨.last ?_, by simp [SoundParts, Walk.parts_ofCode]⟩
    cases e with
    | brace => exact ⟨d', (Code.run_brace ran).2⟩
    | statement => exact ⟨.finished, .inl rfl, (Code.run_statement ran).2.2 _ rfl⟩
  | @exhausted d a c text mark rest ran =>
    refine ⟨.last ⟨.exhausted, .inr rfl, ?_⟩, by simp [SoundParts, Walk.parts_ofCode]⟩
    have whole := Code.run_append .statement d a c.rest
    have ended := Code.run_exhausted ran
    rw [ran] at whole
    simp only [ended.1, List.nil_append] at whole
    simp only [Cursor.moved, whole, ran, ended.1]
  | embedded ran _ _ node more =>
    exact ⟨.embedded (Code.run_markup ran).2.2 node.1 more.1, soundParts_cons _ node.2 more.2⟩
  | fragment opened _ inside =>
    refine ⟨rfl, fun n member => ?_⟩
    rcases List.mem_cons.mp member with rfl | member
    · exact inside.1
    · exact inside.2 n member
  | selfClosed named isName _ tag =>
    refine ⟨rfl, fun n member => ?_⟩
    rcases List.mem_cons.mp member with rfl | member
    · exact ⟨Tag.next_name named isName, tag.1, by simp⟩
    · simp only [Walk.nodes, List.append_nil] at member
      exact tag.2 n member
  | element named isName _ _ tag inside =>
    refine ⟨rfl, fun n member => ?_⟩
    rcases List.mem_cons.mp member with rfl | member
    · exact ⟨Tag.next_name named isName, tag.1, inside.1⟩
    · rcases List.mem_append.mp member with member | member
      · exact tag.2 n member
      · exact inside.2 n member
  | flag named isName plain _ more =>
    exact soundAttributes_cons (Tag.next_name named isName) (by simp [SoundParts, Attribute.parts, Walk.parts]) more
  | string v isString _ more =>
    exact soundAttributes_cons ⟨Tag.next_name v.named v.isName, (Tag.next_quoted v.valued isString).2⟩
      (by simp [SoundParts, Attribute.parts, Walk.parts]) more
  | expression v isBrace _ _ code more => exact soundAttributes_cons ⟨Tag.next_name v.named v.isName, code.1⟩ code.2 more
  | spread found isBrace dotted _ _ code more => exact soundAttributes_cons code.1 code.2 more
  | slash found isSlash angle => exact ⟨by simp, by simp [Walk.attributes]⟩
  | close found isAngle => exact ⟨by simp, by simp [Walk.attributes]⟩
  | @closing name c text after c₁ plain tag =>
    show SoundChildren (Parse.textNode c.pos text)
    unfold Parse.textNode
    split <;> simp [SoundChildren, Walk.nodes, Walk.node, Node.Local, Node.kind]
  | @wrapper name c text inside ps c₁ kids c₂ plain readCode _ code more =>
    refine soundChildren_cons _ _ (by simp [Node.kind]) (fun n member => ?_) more
    rcases List.mem_cons.mp member with rfl | member
    · refine ⟨code.1, fun undotted => ?_⟩
      obtain ⟨rest, same⟩ := lead_of_reads readCode
      unfold braceHead at undotted same
      split at undotted
      · cases undotted
      · rename_i none
        simp only [none, Cursor.moved] at same
        exact spreadDots?_lead (same ▸ none)
    · exact code.2 n member
  | child plain starts _ _ node more => exact soundChildren_cons _ _ (kind_of_isMarkup node.1) node.2 more

theorem Print.parts_append (ps qs : List Part) : Print.parts (ps ++ qs) = Print.parts ps ++ Print.parts qs := by
  induction ps with
  | nil => rfl
  | cons p ps ih => simp [Print.parts, ih]

theorem Print.parts_ofCode (text : List Char) : Print.parts (Part.ofCode text) = text := by
  unfold Part.ofCode
  cases text with
  | nil => rfl
  | cons c cs => simp [Print.parts, Print.part]

theorem print_markup {n : Node} (markup : n.isMarkup) (sound : n.Local) (rest : List Char) :
    ∃ y, Print.node n ++ rest = '<' :: y ∧ Code.startsMarkup y := by
  cases n with
  | element loc name attrs kids selfClosing =>
    obtain ⟨⟨c, cs, spelled, start, _⟩, _⟩ := sound
    refine ⟨_, by rw [Print.node, spelled]; rfl, ?_⟩
    simp [Code.startsMarkup, start]
  | fragment loc kids => exact ⟨_, rfl, rfl⟩
  | text | wrapper | other => cases markup

namespace Code

-- Two texts that start with the same run of code, or are the same.
def Alike (x x' : List Char) : Prop :=
  x = x' ∨ (run .statement 0 true x).stop ≠ .exhausted ∧
    ∃ rest, x' = (run .statement 0 true x).text ++ ((run .statement 0 true x).mark ++ rest)

theorem alike_upTo {x x' : List Char} (alike : Alike x x') :
    x = x' ∨ ∃ c m y y', isStopper m ∧ x = c ++ m :: y ∧ x' = c ++ m :: y' := by
  rcases alike with same | ⟨stops, rest, rfl⟩
  · exact .inl same
  · obtain ⟨c, m, last, stopper, _, _⟩ := run_stopped stops
    have whole := run_append .statement 0 true x
    refine .inr ⟨c, m, (run .statement 0 true x).rest, rest, stopper, ?_, ?_⟩
    · rw [← List.append_assoc, last] at whole
      simpa using whole.symm
    · rw [← List.append_assoc, last]
      simp

theorem endsLine_alike {x x' : List Char} (w : List Char) (alike : Alike x x') : endsLine (w ++ x) = endsLine (w ++ x') := by
  rcases alike_upTo alike with rfl | ⟨c, m, y, y', stopper, rfl, rfl⟩
  · rfl
  · rw [← List.append_assoc, ← List.append_assoc]
    exact endsLine_upTo stopper (w ++ c) y y'

theorem next_alike {w x x' : List Char} {t : Token CodeKind} (found : next (w ++ x) = some t) (skipped : t.skipped = w)
    (alike : Alike x x') : ∃ t', next (w ++ x') = some t' ∧ t'.skipped = w := by
  have whole := next_whole found
  have nothing := skip_trivia (w ++ x)
  have first := found
  unfold next at first
  split at first
  · cases first
  · rename_i w' c rest read
    cases Option.some.inj first
    subst skipped
    obtain rfl : x = c :: rest := by
      have all := skip_append (w' ++ x)
      rw [read] at all
      exact (List.append_cancel_left all).symm
    rw [read] at nothing
    have head : (c :: rest).head? = x'.head? := by
      rcases alike_upTo alike with rfl | ⟨p, m, y, y', _, same, rfl⟩
      · rfl
      · rw [same]
        cases p <;> rfl
    have clean : trivia? x' = none := by
      rcases alike with rfl | ⟨stops, after, rfl⟩
      · exact nothing
      · exact trivia?_run nothing stops after
    obtain ⟨rest', rfl⟩ := List.head?_eq_some_iff.mp head.symm
    have skips := skip_again read head clean
    exact ⟨⟨lexeme c rest', w'⟩, by simp [next, skips], rfl⟩

end Code

-- The body of a file whose statements end where they should when it is printed.
inductive Settled : List Part → Prop where
  | done {w} (ended : Code.next w = none) : Settled (Part.ofCode w)
  | statement {w loc ps more t} (found : Code.next (w ++ (Print.parts ps ++ Print.parts more)) = some t) (skipped : t.skipped = w)
      (coded : Coded .statement (Code.Settles (Print.parts more)) 0 true ps) (later : Settled more) :
      Settled (Part.ofCode w ++ .node (.other loc ps) :: more)

structure SourceTree.Sound (t : SourceTree) : Prop where
  settled : Settled t.body
  inside : SoundParts t.body

theorem Coded.mono {e : CodeEnd} {E E' : Nat → Bool → List Char → Prop} {d : Nat} {a : Bool} {ps : List Part}
    (coded : Coded e E d a ps) (weaker : ∀ d a text, E d a text → E' d a text) : Coded e E' d a ps := by
  induction coded with
  | last ends => exact .last (weaker _ _ _ ends)
  | embedded opens markup _ more => exact .embedded opens markup more

theorem Code.Settles.before {after after' : List Char} {d : Nat} {a : Bool} {text : List Char} (settles : Settles after d a text)
    (line : endsLine after = endsLine after') (same : next after = none → after = after') : Settles after' d a text := by
  obtain ⟨stop, rfl | rfl, ran⟩ := settles
  · exact ⟨.finished, .inl rfl, (run_statement ran).2.2 after' line⟩
  · obtain rfl := same (run_exhausted ran).2
    exact ⟨.exhausted, .inr rfl, ran⟩

theorem readsBody_ended {c : Cursor} {ps : List Part} (read : ReadsBody c ps) (ended : Code.next c.rest = none) :
    Print.parts ps = c.rest := by
  cases read with
  | done => exact Print.parts_ofCode c.rest
  | statement found => simp_all

theorem alike_printed {c c₁ : Cursor} {ps more : List Part} (code : Reads (.parts .statement 0 true) c ps c₁)
    (later : ReadsBody c₁ more) : Code.Alike c.rest (Print.parts ps ++ Print.parts more) := by
  have whole := Code.run_append .statement 0 true c.rest
  cases code with
  | finished ran =>
    refine .inr ⟨by simp [ran], Print.parts more, ?_⟩
    rw [ran, (Code.run_statement ran).1, Print.parts_ofCode]
    rfl
  | exhausted ran =>
    obtain ⟨rfl, ended⟩ := Code.run_exhausted ran
    rw [ran] at whole
    rw [Print.parts_ofCode, readsBody_ended later ended]
    exact .inl whole.symm
  | embedded ran node inside =>
    rename_i text d' mark rest n c₂ qs
    obtain ⟨markup, sound⟩ := reads_sound node
    obtain ⟨y, opened, _⟩ := print_markup markup sound.self (Print.parts (show List Part from qs) ++ Print.parts more)
    refine .inr ⟨by simp [ran], y, ?_⟩
    rw [ran, (Code.run_markup ran).1, Print.parts_append, Print.parts_ofCode, List.append_assoc]
    simp only [Print.parts, Print.part, List.append_assoc]
    rw [opened]
    rfl

theorem readsBody_sound {c : Cursor} {ps : List Part} (read : ReadsBody c ps) :
    Settled ps ∧ SoundParts ps ∧ Code.endsLine c.rest = Code.endsLine (Print.parts ps) := by
  induction read with
  | @done c ended =>
    refine ⟨.done ended, by simp [SoundParts, Walk.parts_ofCode], ?_⟩
    rw [Print.parts_ofCode]
  | @statement c t ps c₁ more found code later ih =>
    obtain ⟨settled, sound, line⟩ := ih
    obtain ⟨coded, inside⟩ := reads_sound code
    have alike := alike_printed code later
    have whole : t.skipped ++ t.ahead = c.rest := Code.next_whole found
    rw [← whole] at found
    obtain ⟨t', again, skipped⟩ := Code.next_alike found rfl alike
    refine ⟨.statement again skipped (coded.mono fun d a text settles => ?_) settled, ?_, ?_⟩
    · exact settles.before line fun ended => (readsBody_ended later ended).symm
    · refine soundParts_cons _ (fun n member => ?_) sound
      rcases List.mem_cons.mp member with rfl | member
      · trivial
      · exact inside n member
    · rw [← whole, Print.parts_append, Print.parts_ofCode]
      exact Code.endsLine_alike t.skipped alike

theorem parse_sound {source : String} {t : SourceTree} (read : parse source = .ok t) : t.Sound := by
  obtain ⟨settled, sound, _⟩ := readsBody_sound (parse_eq_ok_iff.mp read)
  exact ⟨settled, sound⟩

end MarkupEditor
