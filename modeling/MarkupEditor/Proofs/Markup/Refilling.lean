import MarkupEditor.Proofs.Markup.Rewriting
import MarkupEditor.Proofs.Markup.RoundTrip

namespace MarkupEditor

open Reshape

namespace Reshape

-- What a text may be read back as: texts and wrappers of single characters that make it up.
inductive Spells : List Char → List Node → Prop where
  | nil : Spells [] []
  | text {loc : Location} {value : String} {cs : List Char} {ns : List Node} (more : Spells cs ns) :
      Spells (value.toList ++ cs) (.text loc value :: ns)
  | quoting {c : Char} {cs : List Char} {ns : List Node} (special : c = '{' ∨ c = '}' ∨ c = '<') (more : Spells cs ns) :
      Spells (c :: cs) (quoting c :: ns)

theorem spells_prepend {cs : List Char} {ns : List Node} (c : Char) (spells : Spells cs ns) : Spells (c :: cs) (prepend c ns) := by
  have alone : ∀ {ms : List Node}, Spells cs ms → Spells (c :: cs) (.text nowhere (String.ofList [c]) :: ms) := by
    intro ms more
    have joined : Spells ((String.ofList [c]).toList ++ cs) (.text nowhere (String.ofList [c]) :: ms) := .text more
    rwa [String.toList_ofList] at joined
  cases spells with
  | nil => exact alone .nil
  | @text loc value cs ns more =>
    have joined : Spells ((String.ofList (c :: value.toList)).toList ++ cs) (.text loc (String.ofList (c :: value.toList)) :: ns) := .text more
    rwa [String.toList_ofList] at joined
  | quoting special more => exact alone (.quoting special more)

theorem spells_respell (value : List Char) : Spells value (respell value []) := by
  induction value with
  | nil => exact .nil
  | cons c cs ih =>
    rw [respell]
    split
    · rename_i special
      exact .quoting special ih
    · exact spells_prepend c ih

theorem respell_apart (value : List Char) {rest : List Node} (apart : ∀ n ∈ rest.head?, n.kind ≠ .text) :
    respell value rest = respell value [] ++ rest := by
  have prepended : ∀ (c : Char) (ns : List Node), prepend c (ns ++ rest) = prepend c ns ++ rest := by
    intro c ns
    cases ns with
    | nil =>
      cases rest with
      | nil => rfl
      | cons n rest =>
        have kind := apart n rfl
        cases n with
        | text => exact absurd rfl kind
        | element | fragment | wrapper | other => rfl
    | cons n ns => cases n <;> rfl
  induction value with
  | nil => rfl
  | cons c cs ih =>
    rw [respell, respell]
    split
    · rw [ih, List.cons_append]
    · rw [ih, prepended]

theorem unplaced_respell (value : List Char) (rest : List Node) : unplaced.nodes (respell value rest) = respell value (unplaced.nodes rest) := by
  have prepended : ∀ (c : Char) (ns : List Node), unplaced.nodes (prepend c ns) = prepend c (unplaced.nodes ns) := by
    intro c ns
    cases ns with
    | nil => rfl
    | cons n ns => cases n <;> rfl
  induction value with
  | nil => rfl
  | cons c cs ih =>
    rw [respell, respell]
    split
    · rw [← ih]
      rfl
    · rw [prepended, ih]

-- The tree with other nodes in the place of one text; the closing braces of all other texts stand in wrappers.
def refilled (place : Location) (filling : List Node) : Reshape where
  place := id
  closed selfClosing _ := selfClosing
  child n rest := match n with
    | .text loc value => if loc = place then filling ++ rest else splitBraces.child (.text loc value) rest
    | n => n :: rest

end Reshape

section

variable {place : Location} {old value : String}

theorem only_retext {n : Node} (kind : n.kind ≠ .text) : (Node.text place old).only (Node.retext value) n = n := by
  cases n with
  | text => exact absurd rfl kind
  | element | fragment | wrapper | other => simp [Node.only, Node.sameSource, Node.kind]

theorem only_retext_text (loc : Location) (value' : String) :
    (Node.text place old).only (Node.retext value) (.text loc value') = .text loc (if loc = place then value else value') := by
  by_cases here : loc = place
  · simp [Node.only, Node.sameSource, Node.kind, Node.loc, Node.retext, here]
  · have elsewhere : place ≠ loc := fun same => here same.symm
    simp [Node.only, Node.sameSource, Node.kind, Node.loc, here, elsewhere]

theorem kind_head_refilled (place : Location) (filling : List Node) {kids : List Node} (apart : ∀ m ∈ kids.head?, m.kind ≠ .text) :
    ∀ n ∈ ((refilled place filling).nodes kids).head?, n.kind ≠ .text := by
  cases kids with
  | nil => simp [Reshape.nodes]
  | cons m kids =>
    have kind := apart m rfl
    cases m with
    | text => exact absurd rfl kind
    | element | fragment | wrapper | other =>
      rintro n ⟨⟩
      simp [Reshape.node, Node.kind]

-- With the text changed the node is read back as it was, but for what spells the new value.
def RereadsRefilled (place : Location) (old value : String) (n : Node) : Prop :=
  reread.node (Rewrite.node ((Node.text place old).only (Node.retext value)) n) =
    unplaced.node ((refilled place (respell value.toList [])).node n)

theorem refilled_parts {ps : List Part} (each : ∀ n ∈ ps.filterMap Part.node?, RereadsRefilled place old value n) :
    reread.parts (Rewrite.parts ((Node.text place old).only (Node.retext value)) ps) =
      unplaced.parts ((refilled place (respell value.toList [])).parts ps) := by
  induction ps with
  | nil => rfl
  | cons p ps ih =>
    cases p with
    | code text => exact congrArg (List.cons _) (ih each)
    | node n =>
      obtain ⟨first, later⟩ := List.forall_mem_cons.mp each
      exact congrArg₂ List.cons (congrArg Part.node first) (ih later)

theorem refilled_attributes {attrs : List Attribute}
    (each : ∀ n ∈ (attrs.flatMap Attribute.parts).filterMap Part.node?, RereadsRefilled place old value n) :
    reread.attributes (Rewrite.attributes ((Node.text place old).only (Node.retext value)) attrs) =
      unplaced.attributes ((refilled place (respell value.toList [])).attributes attrs) := by
  induction attrs with
  | nil => rfl
  | cons a attrs ih =>
    rw [List.flatMap_cons, List.filterMap_append] at each
    obtain ⟨own, later⟩ := List.forall_mem_append.mp each
    refine congrArg₂ List.cons ?_ (ih later)
    cases a with
    | flag | string => rfl
    | expression name ps => exact congrArg (Attribute.expression name) (refilled_parts own)
    | spread ps => exact congrArg Attribute.spread (refilled_parts own)

theorem refilled_nodes {ns : List Node} (spaced : Spaced ns) (each : ∀ n ∈ ns, n.kind ≠ .text → RereadsRefilled place old value n) :
    reread.nodes (Rewrite.nodes ((Node.text place old).only (Node.retext value)) ns) =
      unplaced.nodes ((refilled place (respell value.toList [])).nodes ns) := by
  induction ns with
  | nil => rfl
  | cons n ns ih =>
    obtain ⟨first, later⟩ := List.forall_mem_cons.mp each
    have rest := ih spaced.2 later
    rw [Rewrite.nodes, Reshape.nodes, rest]
    cases n with
    | text loc value' =>
      obtain ⟨_, tag, brace, apart⟩ := spaced.1 loc value' rfl
      have apart := kind_head_refilled place (respell value.toList []) apart
      rw [Rewrite.node, only_retext_text]
      by_cases here : loc = place
      · have filled : (refilled place (respell value.toList [])).nodes (.text loc value' :: ns) =
            respell value.toList ((refilled place (respell value.toList [])).nodes ns) := by
          rw [respell_apart value.toList apart, Reshape.nodes, Reshape.node]
          exact if_pos here
        rw [filled, unplaced_respell, if_pos here]
        rfl
      · have split : (refilled place (respell value.toList [])).nodes (.text loc value' :: ns) =
            respell value'.toList ((refilled place (respell value.toList [])).nodes ns) := by
          rw [respell_split tag brace apart, Reshape.nodes, Reshape.node]
          exact if_neg here
        rw [split, unplaced_respell, if_neg here]
        rfl
    | element | fragment | wrapper | other =>
      have own := first (by simp [Node.kind])
      rw [own]
      rfl

theorem refilled_node {n : Node} (sound : n.Sound) (tidy : n.Throughout Node.Tidy) (kind : n.kind ≠ .text)
    (code : n.kind = .other → ∀ m ∈ n.inner, m.isMarkup) : RereadsRefilled place old value n := by
  have apart : ∀ {m : Node}, m.isMarkup → m.kind ≠ .text ∧ m.kind ≠ .other := by
    intro m markup
    cases m with
    | element | fragment => simp [Node.kind]
    | text | wrapper | other => cases markup
  -- By induction on what a node holds itself. What stands in code is markup, and what stands between tags is no
  -- statement, so neither is a text that the case for nodes leaves out.
  induction n using Node.inner_induction with
  | step n ih =>
    have inCode : ∀ m ∈ n.inner, m.isMarkup → RereadsRefilled place old value m := fun m held markup =>
      ih m held (sound.inner held) (tidy.inner held) (apart markup).1 fun other => absurd other (apart markup).2
    have between : ∀ m ∈ n.inner, m.kind ≠ .other → m.kind ≠ .text → RereadsRefilled place old value m := fun m held none kind =>
      ih m held (sound.inner held) (tidy.inner held) kind fun other => absurd other none
    have own := sound.self
    have spaced := tidy.self
    unfold RereadsRefilled
    rw [Rewrite.node_eq, only_retext (Rewrite.kind_within n ▸ kind)]
    cases n with
    | element loc name attrs kids selfClosing =>
      obtain ⟨_, good, none⟩ := own
      have markup : ∀ m ∈ (attrs.flatMap Attribute.parts).filterMap Part.node?, m.isMarkup := by
        intro m held
        obtain ⟨p, listed, node⟩ := List.mem_filterMap.mp held
        obtain ⟨a, member, inside⟩ := List.mem_flatMap.mp listed
        have value := good a member
        have inValue : m ∈ a.parts.filterMap Part.node? := List.mem_filterMap.mpr ⟨p, inside, node⟩
        cases a with
        | flag | string => cases inValue
        | expression => exact value.2.markup m inValue
        | spread => exact Coded.markup value m inValue
      have tag := refilled_attributes fun m held => inCode m (List.mem_append_left _ held) (markup m held)
      have below := refilled_nodes spaced.2 fun m held => between m (List.mem_append_right _ held) (none m held)
      have closed : (selfClosing && (Rewrite.nodes ((Node.text place old).only (Node.retext value)) kids).isEmpty) = selfClosing := by
        cases selfClosing with
        | false => rfl
        | true =>
          rw [spaced.1 rfl]
          rfl
      rw [Rewrite.within, Reshape.node, tag, below]
      exact congrArg (Node.element nowhere name _ _) closed
    | fragment loc kids =>
      have below := refilled_nodes spaced fun m held => between m held (own m held)
      rw [Rewrite.within, Reshape.node, below]
      rfl
    | text => exact absurd rfl kind
    | wrapper loc spread ps =>
      have code := refilled_parts fun m held => inCode m held (own.1.markup m held)
      rw [Rewrite.within, Reshape.node, code]
      rfl
    | other loc ps =>
      have code := refilled_parts fun m held => inCode m held (code rfl m held)
      rw [Rewrite.within, Reshape.node, code]
      rfl

end

-- A text is changed in a tree that has been read: the tree read from the print has what spells the new value in the place
-- of the text, and is otherwise the same.
theorem parse_print_retext {source : String} {t : SourceTree} (parsed : parse source = .ok t) (place : Location) (old value : String) :
    ∃ t', parse (t.rewrite ((Node.text place old).only (Node.retext value))).print = .ok t' ∧
      ∃ filling, Spells value.toList filling ∧ unplaced.tree t' = unplaced.tree ((refilled place filling).tree t) := by
  have sound := parse_sound parsed
  have tidy := parse_tidy parsed
  obtain ⟨t', again, same, _⟩ := parse_print (sound_rewrite ((Rewrite.faithful_retext value).only (.text place old)) sound)
  refine ⟨t', again, _, spells_respell value.toList, same.trans (congrArg SourceTree.mk (refilled_parts fun n listed => ?_))⟩
  have inTree : n ∈ t.nodes := Walk.mem_parts.mpr ⟨n, listed, Walk.mem_node n⟩
  obtain ⟨kind, markup⟩ := sound.settled.kind n listed
  exact refilled_node (SourceTree.throughout sound.inside n inTree) (SourceTree.throughout tidy n inTree) (by simp [kind]) fun _ => markup

theorem spaced_rewritten {f : Node → Node} (faithful : Rewrite.Faithful f) (texts : ∀ n : Node, n.kind = .text → f n = n) {ns : List Node}
    (spaced : Spaced ns) : Spaced (Rewrite.nodes f ns) := by
  induction ns with
  | nil => trivial
  | cons n ns ih =>
    refine ⟨fun loc value same => ?_, ih spaced.2⟩
    have kind : n.kind = .text := by rw [← faithful.kind_node, same]; rfl
    cases n with
    | text loc' value' =>
      rw [Rewrite.node, texts _ kind] at same
      obtain ⟨nonempty, tag, brace, apart⟩ := spaced.1 loc value same
      refine ⟨nonempty, tag, brace, fun m head => ?_⟩
      rw [Rewrite.nodes_eq, List.head?_map] at head
      obtain ⟨k, first, rfl⟩ := Option.map_eq_some_iff.mp head
      rw [faithful.kind_node]
      exact apart k first
    | element | fragment | wrapper | other => cases kind

theorem tidy_put {n : Node} (e : Node) (name : String) (a : Attribute) (faithful : Rewrite.Faithful (e.only (Node.putAttribute name a)))
    (tidy : n.Tidy) : (Rewrite.node (e.only (Node.putAttribute name a)) n).Tidy := by
  have put : ∀ m : Node, m.Tidy → (e.only (Node.putAttribute name a) m).Tidy := by
    intro m own
    rw [Node.only]
    split
    · cases m <;> exact own
    · exact own
  have texts : ∀ m : Node, m.kind = .text → e.only (Node.putAttribute name a) m = m := by
    intro m kind
    cases m with
    | text => exact ite_self _
    | element | fragment | wrapper | other => cases kind
  rw [Rewrite.node_eq]
  refine put _ ?_
  cases n with
  | element loc tag attrs kids selfClosing =>
    refine ⟨fun closed => ?_, spaced_rewritten faithful texts tidy.2⟩
    rw [tidy.1 closed]
    rfl
  | fragment loc kids => exact spaced_rewritten faithful texts tidy
  | text | wrapper | other => trivial

-- An attribute without code in it is put on an element of a tree that has been read: the tree read from the print is the
-- tree with that attribute, and with the closing braces of its texts in wrappers.
theorem parse_print_put {source : String} {t : SourceTree} (parsed : parse source = .ok t) (e : Node) (name : String) {a : Attribute}
    (sound : a.Sound) (empty : a.parts.filterMap Part.node? = []) :
    ∃ t', parse (t.rewrite (e.only (Node.putAttribute name a))).print = .ok t' ∧
      unplaced.tree t' = splitBraces.tree (t.rewrite (e.only (Node.putAttribute name a))) := by
  have faithful := (Rewrite.faithful_putAttribute name sound empty).only e
  obtain ⟨t', again, same, _⟩ := parse_print (sound_rewrite faithful (parse_sound parsed))
  have tidy : ∀ n ∈ (t.rewrite (e.only (Node.putAttribute name a))).nodes, n.Tidy :=
    mem_rewritten faithful (fun _ tidy => tidy_put e name a faithful tidy) (parse_tidy parsed)
  exact ⟨t', again, same.trans (reshape_congr (f := splitBraces) (g := reread) rfl fun n member => agree_reread (tidy n member)).symm⟩

end MarkupEditor
