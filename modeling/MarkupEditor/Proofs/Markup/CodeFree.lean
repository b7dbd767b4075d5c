import Mathlib.Data.List.Chain
import MarkupEditor.Proofs.Markup.RoundTrip

namespace MarkupEditor

open Reshape

def Attribute.CodeFree : Attribute → Prop
  | flag name => Tag.IsName name
  | string name value quote => Tag.IsName name ∧ quote.char ∉ value.toList
  | expression .. | spread .. => False

-- Texts that a reader takes for one text do not stand side by side.
def TextsApart (kids : List Node) : Prop := kids.IsChain fun m n => ¬(m.kind = .text ∧ n.kind = .text)

-- Tags and text, at any depth. Text is there, and no brace or tag starts or ends in it.
inductive Node.CodeFree : Node → Prop where
  | element {loc name attrs kids selfClosing} (isName : Tag.IsName name) (attributes : ∀ a ∈ attrs, a.CodeFree)
      (closed : selfClosing = true → kids = []) (apart : TextsApart kids) (children : ∀ n ∈ kids, n.CodeFree) :
      CodeFree (.element loc name attrs kids selfClosing)
  | fragment {loc kids} (apart : TextsApart kids) (children : ∀ n ∈ kids, n.CodeFree) : CodeFree (.fragment loc kids)
  | text {loc value} (nonempty : value ≠ "") (opening : '{' ∉ value.toList) (closing : '}' ∉ value.toList) (tag : '<' ∉ value.toList) :
      CodeFree (.text loc value)

theorem Attribute.CodeFree.sound {a : Attribute} (free : a.CodeFree) : a.Sound := by
  cases a with
  | flag => exact free
  | string => exact free
  | expression | spread => exact free.elim

theorem Attribute.CodeFree.parts {a : Attribute} (free : a.CodeFree) : a.parts = [] := by
  cases a with
  | flag | string => rfl
  | expression | spread => exact free.elim

namespace Node.CodeFree

variable {n : Node}

theorem inner (free : n.CodeFree) : ∀ m ∈ n.inner, m.CodeFree := by
  cases free with
  | element isName attributes closed apart children =>
    intro m member
    have none : ∀ a ∈ _, Attribute.parts a = [] := fun a listed => (attributes a listed).parts
    rw [Node.inner, List.flatMap_eq_nil_iff.mpr none] at member
    exact children m member
  | fragment apart children => exact children
  | text => exact nofun

theorem walk (free : n.CodeFree) : ∀ m ∈ Walk.node n, m.CodeFree := by
  induction n using Node.inner_induction with
  | step n ih =>
    intro m member
    rcases Walk.mem_node_iff.mp member with rfl | ⟨k, held, below⟩
    · exact free
    · exact ih k held (free.inner k held) m below

theorem sound (free : n.CodeFree) : n.Sound := by
  intro m member
  cases free.walk m member with
  | element isName attributes closed apart children =>
    refine ⟨isName, fun a listed => (attributes a listed).sound, fun k listed => ?_⟩
    cases children k listed <;> simp [Node.kind]
  | fragment apart children =>
    intro k listed
    cases children k listed <;> simp [Node.kind]
  | text => trivial

theorem braceless (free : n.CodeFree) : ∀ m ∈ Walk.node n, m.Braceless := by
  intro m member
  cases free.walk m member with
  | text nonempty opening closing tag => exact closing
  | element | fragment => trivial

end Node.CodeFree

theorem spaced_of_codeFree {kids : List Node} (apart : TextsApart kids) (free : ∀ n ∈ kids, n.CodeFree) : Spaced kids := by
  induction kids with
  | nil => trivial
  | cons n kids ih =>
    refine ⟨?_, ih apart.tail fun m member => free m (List.mem_cons_of_mem _ member)⟩
    rintro loc value rfl
    cases free _ List.mem_cons_self with
    | text nonempty opening closing tag =>
      refine ⟨by simpa using nonempty, tag, opening, ?_⟩
      intro m first text
      exact (List.isChain_cons.mp apart).1 m first ⟨rfl, text⟩

theorem Node.CodeFree.tidy {n : Node} (free : n.CodeFree) : ∀ m ∈ Walk.node n, m.Tidy := by
  intro m member
  cases free.walk m member with
  | element isName attributes closed apart children => exact ⟨closed, spaced_of_codeFree apart children⟩
  | fragment apart children => exact spaced_of_codeFree apart children
  | text => trivial

theorem Node.CodeFree.reread {n : Node} (free : n.CodeFree) : Reshape.reread.node n = unplaced.node n := by
  have split : unplaced.node n = splitBraces.node n :=
    reshape_node_congr (f := unplaced) (g := splitBraces) rfl n fun m member =>
      agree_unplaced (free.tidy m member) fun k below => free.braceless k (Walk.mem_trans member below)
  have spelled : splitBraces.node n = Reshape.reread.node n :=
    reshape_node_congr (f := splitBraces) (g := Reshape.reread) rfl n fun m member => agree_reread (free.tidy m member)
  rw [split, spelled]

namespace Reshape

variable {f : Reshape}

theorem parts_eq_nil {ps : List Part} : f.parts ps = [] ↔ ps = [] := by
  cases ps <;> simp [Reshape.parts]

theorem parts_eq_cons {ps qs : List Part} {q : Part} (same : f.parts ps = q :: qs) :
    ∃ p rest, ps = p :: rest ∧ f.part p = q ∧ f.parts rest = qs := by
  cases ps with
  | nil => cases same
  | cons p rest =>
    obtain ⟨first, later⟩ := List.cons.inj same
    exact ⟨p, rest, rfl, first, later⟩

theorem part_eq_code {p : Part} {text : String} (same : f.part p = .code text) : p = .code text := by
  cases p with
  | code => exact same
  | node => cases same

theorem part_eq_node {p : Part} {m : Node} (same : f.part p = .node m) : ∃ n, p = .node n ∧ f.node n = m := by
  cases p with
  | code => cases same
  | node n => exact ⟨n, rfl, Part.node.inj same⟩

theorem node_eq_other {n : Node} {loc : Location} {qs : List Part} (same : f.node n = .other loc qs) :
    ∃ place ps, n = .other place ps ∧ f.parts ps = qs := by
  cases n with
  | other place ps => exact ⟨place, ps, rfl, (Node.other.inj same).2⟩
  | element | fragment | text | wrapper => cases same

end Reshape

namespace Code

theorem opens_assigned : Opens .statement 0 true ['x', ' ', '=', ' '] 0 := by
  intro y starts
  have name : next (['x', ' ', '=', ' '] ++ '<' :: y) = some ⟨⟨some .ident, ['x'], [' ', '=', ' '] ++ '<' :: y⟩, []⟩ := next_direct rfl
  have equals : next ([' ', '=', ' '] ++ '<' :: y) = some ⟨⟨some .punct, ['='], [' '] ++ '<' :: y⟩, [' ']⟩ := next_spaced rfl
  have tag : next ([' '] ++ '<' :: y) = some ⟨⟨some .lt, ['<'], y⟩, [' ']⟩ := next_spaced rfl
  have opens : judge .statement 0 true ⟨⟨some .lt, ['<'], y⟩, [' ']⟩ = .stopBefore .markup := by simp [judge, starts]
  have stopped : run .statement 0 true ([' '] ++ '<' :: y) = ⟨[' '], 0, .markup, ['<'], y⟩ := run_stopBefore tag opens
  have valued : run .statement 0 false ([' ', '=', ' '] ++ '<' :: y) = ⟨[' ', '=', ' '], 0, .markup, ['<'], y⟩ :=
    (run_goOn equals rfl).trans (congrArg (CodeRun.before [' ', '=']) stopped)
  exact (run_goOn name rfl).trans (congrArg (CodeRun.before ['x']) valued)

theorem settles_semicolon : Settles [] 0 false [';'] := by
  have semicolon : next [';'] = some ⟨⟨some .semi, [';'], []⟩, []⟩ := next_direct rfl
  exact ⟨.finished, .inl rfl, run_stopAfter semicolon rfl⟩

end Code

def assigned (e : Node) : List Part := [.code "x = ", .node e, .code ";"]

def assignment (loc : Location) (e : Node) : SourceTree := ⟨[.node (.other loc (assigned e))]⟩

section

variable {e : Node}

theorem print_assignment (loc : Location) : (assignment loc e).print = "x = " ++ e.print ++ ";" := by
  apply String.toList_inj.mp
  simp [SourceTree.print, assignment, assigned, Print.parts, Print.part, Print.node, Node.print]

theorem coded_assigned (markup : e.isMarkup) : Coded .statement (Code.Settles []) 0 true (assigned e) :=
  .embedded Code.opens_assigned markup (.last Code.settles_semicolon)

theorem assignment_sound (loc : Location) (markup : e.isMarkup) (sound : e.Sound) : (assignment loc e).Sound where
  settled := by
    have found : Code.next ([] ++ (Print.parts (assigned e) ++ Print.parts (Part.ofCode []))) = some ⟨⟨some .ident, ['x'], _⟩, []⟩ :=
      Code.next_direct rfl
    exact .statement found rfl (coded_assigned markup) (.done Code.next_nil)
  inside := by
    intro m member
    have below : m = .other loc (assigned e) ∨ m ∈ Walk.node e := by simpa [assignment, assigned, Walk.parts, Walk.part, Walk.node] using member
    rcases below with rfl | below
    · trivial
    · exact sound m below

theorem of_unplaced_assignment {t : SourceTree} {k : Node} (same : unplaced.tree t = assignment nowhere k) :
    ∃ loc n, t = assignment loc n ∧ unplaced.node n = k := by
  obtain ⟨body⟩ := t
  obtain ⟨p, more, rfl, single, last⟩ := parts_eq_cons (SourceTree.mk.inj same)
  obtain rfl := parts_eq_nil.mp last
  obtain ⟨statement, rfl, held⟩ := part_eq_node single
  obtain ⟨loc, ps, rfl, inside⟩ := node_eq_other held
  obtain ⟨p, ps, rfl, name, afterName⟩ := parts_eq_cons inside
  obtain rfl := part_eq_code name
  obtain ⟨p, ps, rfl, value, afterValue⟩ := parts_eq_cons afterName
  obtain ⟨n, rfl, node⟩ := part_eq_node value
  obtain ⟨p, ps, rfl, semicolon, afterAll⟩ := parts_eq_cons afterValue
  obtain rfl := part_eq_code semicolon
  obtain rfl := parts_eq_nil.mp afterAll
  exact ⟨loc, n, rfl, node⟩

theorem parse_codeFree (markup : e.isMarkup) (free : e.CodeFree) :
    ∃ loc n, parse ("x = " ++ e.print ++ ";") = .ok ⟨[.node (.other loc [.code "x = ", .node n, .code ";"])]⟩ ∧
      unplaced.node n = unplaced.node e := by
  obtain ⟨t, read, same, _⟩ := parse_print (assignment_sound nowhere markup free.sound)
  have kept : unplaced.tree t = assignment nowhere (unplaced.node e) := by
    rw [same, ← free.reread]
    rfl
  obtain ⟨loc, n, rfl, node⟩ := of_unplaced_assignment kept
  rw [print_assignment] at read
  exact ⟨loc, n, read, node⟩

end

def builtNode : Node :=
  .element nowhere "ui.a-b" [.flag "$on", .string "t:x" "1 > '2'\n/>" .double, .string "q" "\"" .single]
    [.text nowhere "f(a) => '; // ", .fragment nowhere [.element nowhere "ui.a-b" [] [] false, .element nowhere "br" [] [] true],
      .text nowhere " > "] false

theorem parse_codeFree_built :
    builtNode.print = "<ui.a-b $on t:x=\"1 > '2'\n/>\" q='\"'>f(a) => '; // <><ui.a-b></ui.a-b><br /></> > </ui.a-b>" ∧
      ∃ loc n, parse ("x = " ++ builtNode.print ++ ";") = .ok ⟨[.node (.other loc [.code "x = ", .node n, .code ";"])]⟩ ∧
        unplaced.node n = unplaced.node builtNode := by
  have tagName : Tag.IsName "ui.a-b" := Tag.isName_iff.mpr rfl
  have breakName : Tag.IsName "br" := Tag.isName_iff.mpr rfl
  have flag : Attribute.CodeFree (.flag "$on") := Tag.isName_iff.mpr rfl
  have lines : Attribute.CodeFree (.string "t:x" "1 > '2'\n/>" .double) := ⟨Tag.isName_iff.mpr rfl, by decide⟩
  have mark : Attribute.CodeFree (.string "q" "\"" .single) := ⟨Tag.isName_iff.mpr rfl, by decide⟩
  have inside : (Node.fragment nowhere [.element nowhere "ui.a-b" [] [] false, .element nowhere "br" [] [] true]).CodeFree :=
    .fragment (by simp [TextsApart, Node.kind]) (by
      simp only [List.forall_mem_cons]
      exact ⟨.element tagName (by simp) (by simp) .nil (by simp), .element breakName (by simp) (by simp) .nil (by simp), by simp⟩)
  have free : builtNode.CodeFree := by
    refine .element tagName ?_ (by simp) (by simp [TextsApart, Node.kind]) ?_
    · simp only [List.forall_mem_cons]
      exact ⟨flag, lines, mark, by simp⟩
    · simp only [List.forall_mem_cons]
      exact ⟨.text (by decide) (by decide) (by decide) (by decide), inside, .text (by decide) (by decide) (by decide) (by decide), by simp⟩
  exact ⟨by decide +kernel, parse_codeFree rfl free⟩

end MarkupEditor
