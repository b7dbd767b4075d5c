import MarkupEditor.Proofs.Markup.Reread

namespace MarkupEditor

open Reshape

-- Children as they are read: texts are not empty, open nothing, and stand apart.
def Spaced : List Node → Prop
  | [] => True
  | n :: ns =>
    (∀ loc value, n = .text loc value →
      value.toList ≠ [] ∧ '<' ∉ value.toList ∧ '{' ∉ value.toList ∧ ∀ m ∈ ns.head?, m.kind ≠ .text) ∧ Spaced ns

def Node.Tidy : Node → Prop
  | element _ _ _ kids selfClosing => (selfClosing → kids = []) ∧ Spaced kids
  | fragment _ kids => Spaced kids
  | _ => True

def Goal.Tidy : (g : Goal) → g.Output → Prop
  | .parts .., ps => ∀ n ∈ Walk.parts ps, n.Tidy
  | .markup _, n => ∀ m ∈ Walk.node n, m.Tidy
  | .attributes, (attrs, _) => ∀ n ∈ Walk.attributes attrs, n.Tidy
  | .children _, kids => Spaced kids ∧ ∀ n ∈ Walk.nodes kids, n.Tidy

theorem spaced_textNode {start : Position} {cs text rest : List Char} {more : List Node} (plain : Parse.plainText cs = (text, rest))
    (other : ∀ n ∈ more.head?, n.kind ≠ .text) (spaced : Spaced more) : Spaced (Parse.textNode start text ++ more) := by
  have outside := takeRun_all plain
  unfold Parse.textNode
  split
  · exact spaced
  · rename_i nonempty
    refine ⟨?_, spaced⟩
    rintro loc value same
    cases same
    simp only [String.toList_ofList]
    refine ⟨by simpa using nonempty, fun member => ?_, fun member => ?_, other⟩
    · simpa using outside _ member
    · simpa using outside _ member

theorem walk_textNode (start : Position) (text : List Char) : ∀ n ∈ Walk.nodes (Parse.textNode start text), n.Tidy := by
  unfold Parse.textNode
  split <;> simp [Walk.nodes, Walk.node, Node.Tidy]

theorem tidy_children_cons {start : Position} {cs text rest : List Char} {n : Node} {more : List Node}
    (plain : Parse.plainText cs = (text, rest)) (kind : n.kind ≠ .text) (tidy : ∀ m ∈ Walk.node n, m.Tidy)
    (later : Spaced more ∧ ∀ m ∈ Walk.nodes more, m.Tidy) :
    Spaced (Parse.textNode start text ++ n :: more) ∧ ∀ m ∈ Walk.nodes (Parse.textNode start text ++ n :: more), m.Tidy := by
  constructor
  · refine spaced_textNode plain (by rintro m ⟨⟩; exact kind) ⟨?_, later.1⟩
    rintro loc value rfl
    exact absurd rfl kind
  · intro m member
    simp only [Walk.nodes_append, Walk.nodes, List.mem_append] at member
    rcases member with member | member | member
    · exact walk_textNode _ _ m member
    · exact tidy m member
    · exact later.2 m member

theorem reads_tidy {g : Goal} {c c' : Cursor} {v : g.Output} (read : Reads g c v c') : g.Tidy v := by
  induction read with
  | finished | exhausted =>
    intro n member
    rw [Walk.parts_ofCode] at member
    cases member
  | embedded ran _ _ node more =>
    intro n member
    simp only [Walk.parts_append, Walk.parts_ofCode, Walk.parts, Walk.part, List.nil_append, List.mem_append] at member
    exact member.elim (node n) (more n)
  | fragment opened _ inside =>
    intro n member
    rcases List.mem_cons.mp member with rfl | member
    · exact inside.1
    · exact inside.2 n member
  | selfClosed named isName _ tag =>
    intro n member
    rcases List.mem_cons.mp member with rfl | member
    · exact ⟨fun _ => rfl, trivial⟩
    · simp only [Walk.nodes, List.append_nil] at member
      exact tag n member
  | element named isName _ _ tag inside =>
    intro n member
    rcases List.mem_cons.mp member with rfl | member
    · exact ⟨(fun closed => by cases closed), inside.1⟩
    · exact (List.mem_append.mp member).elim (tag n) (inside.2 n)
  | flag named isName plain _ more => exact more
  | string v isString _ more => exact more
  | expression v isBrace _ _ code more => exact fun n member => (List.mem_append.mp member).elim (code n) (more n)
  | spread found isBrace dotted _ _ code more => exact fun n member => (List.mem_append.mp member).elim (code n) (more n)
  | slash | close =>
    intro n member
    cases member
  | closing plain tag =>
    refine ⟨?_, walk_textNode _ _⟩
    rw [← List.append_nil (Parse.textNode _ _)]
    exact spaced_textNode plain (by simp) trivial
  | wrapper plain _ _ code more =>
    refine tidy_children_cons plain (by simp [Node.kind]) ?_ more
    intro m member
    rcases List.mem_cons.mp member with rfl | member
    · trivial
    · exact code m member
  | child plain starts read _ node more =>
    have kind := (reads_sound read).1
    exact tidy_children_cons plain (fun text => by simp [Node.isMarkup, text] at kind) node more

theorem parse_tidy {source : String} {t : SourceTree} (read : parse source = .ok t) : ∀ n ∈ t.nodes, n.Tidy := by
  have body := parse_eq_ok_iff.mp read
  unfold SourceTree.nodes
  generalize Cursor.ofText source.toList = c at body
  generalize t.body = ps at body ⊢
  induction body with
  | done =>
    intro n member
    rw [Walk.parts_ofCode] at member
    cases member
  | statement found code _ later =>
    intro n member
    simp only [Walk.parts_append, Walk.parts_ofCode, Walk.parts, Walk.part, Walk.node, List.nil_append, List.mem_append,
      List.mem_cons] at member
    rcases member with (rfl | member) | member
    · trivial
    · exact reads_tidy code n member
    · exact later n member

section

variable (f g : Reshape)

def AgreeOn : List Node → Prop
  | [] => True
  | n :: ns => f.child (f.node n) (f.nodes ns) = g.child (f.node n) (f.nodes ns) ∧ AgreeOn ns

def Agree : Node → Prop
  | .element _ _ _ kids selfClosing => f.closed selfClosing kids = g.closed selfClosing kids ∧ AgreeOn f g kids
  | .fragment _ kids => AgreeOn f g kids
  | _ => True

end

section

variable {f g : Reshape}

mutual

theorem reshape_node_congr (place : f.place = g.place) : ∀ n : Node, (∀ m ∈ Walk.node n, Agree f g m) → f.node n = g.node n
  | .element loc name attrs kids selfClosing, agree => by
    have own : Agree f g (.element loc name attrs kids selfClosing) := agree _ (Walk.mem_node _)
    have inAttributes := reshape_attributes_congr place attrs fun m member =>
      agree m (List.mem_cons_of_mem _ (List.mem_append_left _ member))
    have inChildren := reshape_nodes_congr place kids own.2 fun m member =>
      agree m (List.mem_cons_of_mem _ (List.mem_append_right _ member))
    simp only [Reshape.node, place, inAttributes, inChildren, own.1]
  | .fragment loc kids, agree => by
    have own : Agree f g (.fragment loc kids) := agree _ (Walk.mem_node _)
    have inChildren := reshape_nodes_congr place kids own fun m member => agree m (List.mem_cons_of_mem _ member)
    simp only [Reshape.node, place, inChildren]
  | .text loc value, _ => by simp only [Reshape.node, place]
  | .wrapper loc spread ps, agree => by
    have inCode := reshape_parts_congr place ps fun m member => agree m (List.mem_cons_of_mem _ member)
    simp only [Reshape.node, place, inCode]
  | .other loc ps, agree => by
    have inCode := reshape_parts_congr place ps fun m member => agree m (List.mem_cons_of_mem _ member)
    simp only [Reshape.node, place, inCode]

theorem reshape_nodes_congr (place : f.place = g.place) :
    ∀ ns : List Node, AgreeOn f g ns → (∀ m ∈ Walk.nodes ns, Agree f g m) → f.nodes ns = g.nodes ns
  | [], _, _ => rfl
  | n :: ns, own, agree => by
    have first := reshape_node_congr place n fun m member => agree m (List.mem_append_left _ member)
    have later := reshape_nodes_congr place ns own.2 fun m member => agree m (List.mem_append_right _ member)
    have child := own.1
    rw [first, later] at child
    simp only [Reshape.nodes, first, later, child]

theorem reshape_part_congr (place : f.place = g.place) : ∀ p : Part, (∀ m ∈ Walk.part p, Agree f g m) → f.part p = g.part p
  | .code _, _ => rfl
  | .node n, agree => by
    have inNode := reshape_node_congr place n agree
    simp only [Reshape.part, inNode]

theorem reshape_parts_congr (place : f.place = g.place) :
    ∀ ps : List Part, (∀ m ∈ Walk.parts ps, Agree f g m) → f.parts ps = g.parts ps
  | [], _ => rfl
  | p :: ps, agree => by
    have first := reshape_part_congr place p fun m member => agree m (List.mem_append_left _ member)
    have later := reshape_parts_congr place ps fun m member => agree m (List.mem_append_right _ member)
    simp only [Reshape.parts, first, later]

theorem reshape_attr_congr (place : f.place = g.place) :
    ∀ a : Attribute, (∀ m ∈ Walk.attr a, Agree f g m) → f.attr a = g.attr a
  | .flag _, _ => rfl
  | .string .., _ => rfl
  | .expression _ ps, agree => by
    have inCode := reshape_parts_congr place ps agree
    simp only [Reshape.attr, inCode]
  | .spread ps, agree => by
    have inCode := reshape_parts_congr place ps agree
    simp only [Reshape.attr, inCode]

theorem reshape_attributes_congr (place : f.place = g.place) :
    ∀ attrs : List Attribute, (∀ m ∈ Walk.attributes attrs, Agree f g m) → f.attributes attrs = g.attributes attrs
  | [], _ => rfl
  | a :: attrs, agree => by
    have first := reshape_attr_congr place a fun m member => agree m (List.mem_append_left _ member)
    have later := reshape_attributes_congr place attrs fun m member => agree m (List.mem_append_right _ member)
    simp only [Reshape.attributes, first, later]

end

theorem reshape_congr (place : f.place = g.place) {t : SourceTree} (agree : ∀ n ∈ t.nodes, Agree f g n) : f.tree t = g.tree t := by
  simp only [Reshape.tree, reshape_parts_congr place t.body agree]

end

theorem respell_split {value : List Char} {rest : List Node} (tag : '<' ∉ value) (brace : '{' ∉ value)
    (other : ∀ n ∈ rest.head?, n.kind ≠ .text) :
    respell value rest = [quoting '}'].intercalate ((value.splitOn '}').map piece) ++ rest := by
  have prepended : ∀ (c : Char) (p : List Char) (ns : List Node), (∀ n ∈ ns.head?, n.kind ≠ .text) →
      prepend c (piece p ++ ns) = piece (c :: p) ++ ns := by
    intro c p ns apart
    cases p with
    | cons => simp [piece, prepend]
    | nil =>
      cases ns with
      | nil => rfl
      | cons n ns =>
        have kind := apart n rfl
        cases n with
        | text => exact absurd rfl kind
        | element | fragment | wrapper | other => rfl
  induction value with
  | nil => simp [respell, piece, List.splitOn_nil]
  | cons c cs ih =>
    simp only [List.mem_cons, not_or] at tag brace
    have later := ih tag.2 brace.2
    obtain ⟨p, ps, split⟩ := List.exists_cons_of_ne_nil (List.splitOn_ne_nil '}' cs)
    rw [respell, List.splitOn_cons_eq_if_modifyHead]
    by_cases closing : c = '}'
    · subst closing
      rw [later, split]
      simp [piece]
    · have plain : ¬(c = '{' ∨ c = '}' ∨ c = '<') := by
        rintro (h | h | h)
        · exact brace.1 h.symm
        · exact closing h
        · exact tag.1 h.symm
      rw [if_neg plain, later, split]
      simp only [beq_eq_false_iff_ne.mpr closing, Bool.false_eq_true, if_false, List.modifyHead_cons, List.map_cons]
      cases ps with
      | nil =>
        simp only [List.map_nil, List.intercalate_singleton]
        exact prepended c p rest other
      | cons q qs =>
        simp only [List.map_cons, List.intercalate_cons_cons, List.append_assoc]
        exact prepended c p _ (by rintro n ⟨⟩; simp [quoting, Node.kind])

theorem kind_head_nodes (ns : List Node) (apart : ∀ m ∈ ns.head?, m.kind ≠ .text) :
    ∀ n ∈ (splitBraces.nodes ns).head?, n.kind ≠ .text := by
  cases ns with
  | nil => simp [Reshape.nodes]
  | cons m ns =>
    have kind := apart m rfl
    cases m with
    | text => exact absurd rfl kind
    | element | fragment | wrapper | other =>
      rintro n ⟨⟩
      simp [Reshape.node, Node.kind]

theorem agreeOn_reread {kids : List Node} (spaced : Spaced kids) : AgreeOn splitBraces reread kids := by
  induction kids with
  | nil => trivial
  | cons n kids ih =>
    refine ⟨?_, ih spaced.2⟩
    cases n with
    | text loc value =>
      obtain ⟨_, tag, brace, apart⟩ := spaced.1 loc value rfl
      exact (respell_split tag brace (kind_head_nodes kids apart)).symm
    | element | fragment | wrapper | other => rfl

theorem agree_reread {n : Node} (tidy : n.Tidy) : Agree splitBraces reread n := by
  cases n with
  | element loc name attrs kids selfClosing =>
    refine ⟨?_, agreeOn_reread tidy.2⟩
    cases selfClosing with
    | false => rfl
    | true =>
      rw [tidy.1 rfl]
      rfl
  | fragment loc kids => exact agreeOn_reread tidy
  | text | wrapper | other => trivial

def Node.Braceless : Node → Prop
  | text _ value => '}' ∉ value.toList
  | _ => True

theorem agreeOn_unplaced {kids : List Node} (spaced : Spaced kids) (braceless : ∀ n ∈ kids, n.Braceless) :
    AgreeOn unplaced splitBraces kids := by
  induction kids with
  | nil => trivial
  | cons n kids ih =>
    refine ⟨?_, ih spaced.2 fun m member => braceless m (List.mem_cons_of_mem _ member)⟩
    cases n with
    | text loc value =>
      obtain ⟨nonempty, _⟩ := spaced.1 loc value rfl
      have free : '}' ∉ value.toList := braceless _ List.mem_cons_self
      simp only [Reshape.node, splitBraces, List.splitOn_eq_singleton free, List.map_cons, List.map_nil,
        List.intercalate_singleton, piece, List.isEmpty_iff, nonempty, if_false, String.ofList_toList]
      rfl
    | element | fragment | wrapper | other => rfl

theorem agree_unplaced {n : Node} (tidy : n.Tidy) (braceless : ∀ m ∈ Walk.node n, m.Braceless) : Agree unplaced splitBraces n := by
  cases n with
  | element loc name attrs kids selfClosing =>
    refine ⟨rfl, agreeOn_unplaced tidy.2 fun m member => braceless m ?_⟩
    exact Walk.mem_of_inner (List.mem_append_right _ member) (Walk.mem_node m)
  | fragment loc kids =>
    exact agreeOn_unplaced tidy fun m member => braceless m (Walk.mem_of_inner member (Walk.mem_node m))
  | text | wrapper | other => trivial

-- The text that a tree is printed as is parsed back into it: up to locations it is the same tree, with each closing
-- brace of its texts in a wrapper of its own, and it is printed as the same text.
theorem parse_print_parse {source : String} {t : SourceTree} (read : parse source = .ok t) :
    ∃ t', parse t.print = .ok t' ∧ unplaced.tree t' = splitBraces.tree t ∧ t'.print = t.print ∧
      ((∀ n ∈ t.nodes, n.Braceless) → unplaced.tree t' = unplaced.tree t) := by
  have tidy := parse_tidy read
  obtain ⟨t', again, same, printed⟩ := parse_print (parse_sound read)
  have split : unplaced.tree t' = splitBraces.tree t :=
    same.trans (reshape_congr (f := splitBraces) (g := reread) rfl fun n member => agree_reread (tidy n member)).symm
  refine ⟨t', again, split, printed, fun braceless => ?_⟩
  rw [split]
  refine (reshape_congr (f := unplaced) (g := splitBraces) rfl fun n member => agree_unplaced (tidy n member) fun m below => braceless m ?_).symm
  obtain ⟨k, listed, above⟩ := Walk.mem_parts.mp member
  exact Walk.mem_parts.mpr ⟨k, listed, Walk.mem_trans above below⟩

def bracedSource : String := "let a = <b  c='1' \x7b...d\x7d>x\x7d \x7bf(\"<\")\x7d\x7d\x7d</b >; // <c>"

theorem parse_print_parse_braced :
    ∃ t, parse bracedSource = .ok t ∧
      t.print = "let a = <b c='1' \x7b...d\x7d>x\x7b\"\x7d\"\x7d \x7bf(\"<\")\x7d\x7b\"\x7d\"\x7d\x7b\"\x7d\"\x7d</b>; // <c>" ∧
      ∃ t', parse t.print = .ok t' ∧ unplaced.tree t' = splitBraces.tree t ∧ t'.print = t.print ∧
        ((∀ n ∈ t.nodes, n.Braceless) → unplaced.tree t' = unplaced.tree t) := by
  have printed : (parse bracedSource).toOption.map SourceTree.print =
      some "let a = <b c='1' \x7b...d\x7d>x\x7b\"\x7d\"\x7d \x7bf(\"<\")\x7d\x7b\"\x7d\"\x7d\x7b\"\x7d\"\x7d</b>; // <c>" := by
    decide +kernel
  cases read : parse bracedSource with
  | error e => rw [read] at printed; cases printed
  | ok t =>
    rw [read] at printed
    exact ⟨t, rfl, Option.some.inj printed, parse_print_parse read⟩

end MarkupEditor
