import Mathlib.Data.List.Forall2
import MarkupEditor.Markup.PreviewTag
import MarkupEditor.Proofs.Markup.Nesting
import MarkupEditor.Proofs.Markup.Reshape

namespace MarkupEditor

structure TagHead where
  name : String
  attributes : List (Option String)
  deriving DecidableEq, Repr

namespace Node

def attributes : Node → List Attribute
  | element _ _ attrs _ _ => attrs
  | _ => []

def tagHead? : Node → Option TagHead
  | element _ name attrs _ _ => some ⟨name, attrs.map Attribute.name?⟩
  | _ => none

end Node

namespace Survey

mutual

-- The node and all nodes in it, each with whether it stands in an attribute value.
def node : Node → List (Node × Bool)
  | .element loc name attrs kids selfClosing =>
    (.element loc name attrs kids selfClosing, false) :: ((Walk.attributes attrs).map (·, true) ++ nodes kids)
  | .fragment loc kids => (.fragment loc kids, false) :: nodes kids
  | .text loc value => [(.text loc value, false)]
  | .wrapper loc spread expression => (.wrapper loc spread expression, false) :: parts expression
  | .other loc ps => (.other loc ps, false) :: parts ps

def nodes : List Node → List (Node × Bool)
  | [] => []
  | n :: ns => node n ++ nodes ns

def part : Part → List (Node × Bool)
  | .code _ => []
  | .node n => node n

def parts : List Part → List (Node × Bool)
  | [] => []
  | p :: ps => part p ++ parts ps

end

theorem map_hidden (ns : List Node) : (ns.map (·, true)).map Prod.fst = ns := by simp [Function.comp_def]

mutual

theorem node_walk : ∀ n : Node, (node n).map Prod.fst = Walk.node n
  | .element loc name attrs kids selfClosing => by
    rw [node, Walk.node, List.map_cons, List.map_append, map_hidden, nodes_walk kids]
  | .fragment loc kids => by rw [node, Walk.node, List.map_cons, nodes_walk kids]
  | .text .. => rfl
  | .wrapper loc spread expression => by rw [node, Walk.node, List.map_cons, parts_walk expression]
  | .other loc ps => by rw [node, Walk.node, List.map_cons, parts_walk ps]

theorem nodes_walk : ∀ ns : List Node, (nodes ns).map Prod.fst = Walk.nodes ns
  | [] => rfl
  | n :: ns => by rw [nodes, Walk.nodes, List.map_append, node_walk n, nodes_walk ns]

theorem part_walk : ∀ p : Part, (part p).map Prod.fst = Walk.part p
  | .code _ => rfl
  | .node n => node_walk n

theorem parts_walk : ∀ ps : List Part, (parts ps).map Prod.fst = Walk.parts ps
  | [] => rfl
  | p :: ps => by rw [parts, Walk.parts, List.map_append, part_walk p, parts_walk ps]

end

theorem parts_eq (ps : List Part) : parts ps = nodes (ps.filterMap Part.node?) := by
  induction ps with
  | nil => rfl
  | cons p ps ih =>
    cases p with
    | code text => exact ih
    | node n => exact congrArg (node n ++ ·) ih

section

variable {m : Node}

mutual

theorem node_hidden : ∀ n : Node, (m, true) ∈ node n ↔ ∃ e, (e, false) ∈ node n ∧ m ∈ Walk.attributes e.attributes
  | .element loc name attrs kids selfClosing => by
    have below := nodes_hidden kids
    simp [node, below, Node.attributes, or_and_right, exists_or]
  | .fragment loc kids => by
    have below := nodes_hidden kids
    simp [node, below, Node.attributes, Walk.attributes, or_and_right, exists_or]
  | .text .. => by simp [node, Node.attributes, Walk.attributes]
  | .wrapper loc spread expression => by
    have below := parts_hidden expression
    simp [node, below, Node.attributes, Walk.attributes, or_and_right, exists_or]
  | .other loc ps => by
    have below := parts_hidden ps
    simp [node, below, Node.attributes, Walk.attributes, or_and_right, exists_or]

theorem nodes_hidden : ∀ ns : List Node, (m, true) ∈ nodes ns ↔ ∃ e, (e, false) ∈ nodes ns ∧ m ∈ Walk.attributes e.attributes
  | [] => by simp [nodes]
  | n :: ns => by simp only [nodes, List.mem_append, node_hidden n, nodes_hidden ns, or_and_right, exists_or]

theorem part_hidden : ∀ p : Part, (m, true) ∈ part p ↔ ∃ e, (e, false) ∈ part p ∧ m ∈ Walk.attributes e.attributes
  | .code _ => by simp [part]
  | .node n => node_hidden n

theorem parts_hidden : ∀ ps : List Part, (m, true) ∈ parts ps ↔ ∃ e, (e, false) ∈ parts ps ∧ m ∈ Walk.attributes e.attributes
  | [] => by simp [parts]
  | p :: ps => by simp only [parts, List.mem_append, part_hidden p, parts_hidden ps, or_and_right, exists_or]

end

end

def elements (seen : List (Node × Bool)) : List (Node × Bool) := seen.filter (·.1.kind == .element)

@[simp] theorem elements_append (seen seen' : List (Node × Bool)) : elements (seen ++ seen') = elements seen ++ elements seen' :=
  List.filter_append ..

theorem elements_walk (seen : List (Node × Bool)) : (elements seen).map Prod.fst = (seen.map Prod.fst).filter (·.kind == .element) := by
  rw [elements, List.filter_map]
  rfl

theorem length_elements (seen : List (Node × Bool)) : (elements seen).length = (seen.map Prod.fst).countP (·.kind == .element) := by
  rw [List.countP_eq_length_filter, ← elements_walk, List.length_map]

end Survey

namespace SourceTree

def sightings (t : SourceTree) : List (Node × Bool) := Survey.elements (Survey.parts t.body)

theorem sightings_walk (t : SourceTree) : t.sightings.map Prod.fst = t.elements := by
  rw [sightings, Survey.elements_walk, Survey.parts_walk]
  rfl

theorem mem_sightings {t : SourceTree} {e : Node × Bool} : e ∈ t.sightings ↔ e ∈ Survey.parts t.body ∧ e.1.kind = .element := by
  rw [sightings, Survey.elements, List.mem_filter, beq_iff_eq]

theorem hidden_sightings {t : SourceTree} {m : Node} :
    (m, true) ∈ t.sightings ↔ m.kind = .element ∧ ∃ e, (e, false) ∈ t.sightings ∧ m ∈ Walk.attributes e.attributes := by
  have element : ∀ {e : Node}, m ∈ Walk.attributes e.attributes → e.kind = .element := by
    intro e member
    cases e with
    | element => rfl
    | fragment | text | wrapper | other => cases member
  simp only [mem_sightings, Survey.parts_hidden]
  constructor
  · rintro ⟨⟨e, seen, inside⟩, kind⟩
    exact ⟨kind, e, ⟨seen, element inside⟩, inside⟩
  · rintro ⟨kind, e, ⟨seen, _⟩, inside⟩
    exact ⟨⟨e, seen, inside⟩, kind⟩

end SourceTree

namespace Annotate

variable (path mark : String)

-- An element with its number, and what it is in the preview: the same tag, and the mark after all attributes if it had none.
structure TaggedAs (e : Node × Nat) (e' : Node) : Prop where
  kind : e'.kind = e.1.kind
  loc : e'.loc = e.1.loc
  name : e'.tagHead?.map TagHead.name = e.1.tagHead?.map TagHead.name
  attributes : ∃ attrs : List Attribute, attrs.map Attribute.name? = e.1.attributes.map Attribute.name? ∧
    e'.attributes = attrs ++ if (Attribute.find? e.1.attributes mark).isNone then [.ofText mark (PreviewTag.format ⟨path, e.2⟩)] else []

-- Nodes whose elements are the tagged forms of those of other nodes, numbered from one count up to another.
structure Tagged (count next : Nat) (seen seen' : List Node) : Prop where
  next : next = count + (seen.filter (·.kind == .element)).length
  elements : List.Forall₂ (TaggedAs path mark) ((seen.filter (·.kind == .element)).zipIdx count) (seen'.filter (·.kind == .element))

variable {path mark}

theorem Tagged.nil (count : Nat) : Tagged path mark count count [] [] := ⟨rfl, .nil⟩

theorem Tagged.append {count middle next : Nat} {seen seen' more more' : List Node} (first : Tagged path mark count middle seen seen')
    (second : Tagged path mark middle next more more') : Tagged path mark count next (seen ++ more) (seen' ++ more') := by
  obtain ⟨rfl, elements⟩ := first
  obtain ⟨rfl, elements'⟩ := second
  constructor
  · rw [List.filter_append, List.length_append, Nat.add_assoc]
  · rw [List.filter_append, List.filter_append, List.zipIdx_append]
    exact List.rel_append elements elements'

theorem Tagged.other {count next : Nat} {seen seen' : List Node} (rest : Tagged path mark count next seen seen') {n n' : Node}
    (kind : n.kind ≠ .element) (kind' : n'.kind ≠ .element) : Tagged path mark count next (n :: seen) (n' :: seen') := by
  constructor
  · rw [List.filter_cons_of_neg (by simpa using kind)]
    exact rest.next
  · rw [List.filter_cons_of_neg (by simpa using kind), List.filter_cons_of_neg (by simpa using kind')]
    exact rest.elements

theorem Tagged.element {count next : Nat} {seen seen' : List Node} (rest : Tagged path mark (count + 1) next seen seen') {n n' : Node}
    (kind : n.kind = .element) (tagged : TaggedAs path mark (n, count) n') : Tagged path mark count next (n :: seen) (n' :: seen') := by
  have kind' : n'.kind = .element := tagged.kind.trans kind
  constructor
  · rw [List.filter_cons_of_pos (by simp [kind]), List.length_cons, rest.next]
    omega
  · rw [List.filter_cons_of_pos (by simp [kind]), List.filter_cons_of_pos (by simp [kind']), List.zipIdx_cons]
    exact .cons tagged rest.elements

theorem walk_ofText (name value : String) : Walk.attr (.ofText name value) = [] := by
  unfold Attribute.ofText
  split
  · split <;> rfl
  · rfl

theorem marked_eq (attrs : List Attribute) (value : String) (absent : Bool) :
    (if absent then attrs ++ [.ofText mark value] else attrs) = attrs ++ if absent then [.ofText mark value] else [] := by
  cases absent with
  | false => exact (List.append_nil attrs).symm
  | true => rfl

theorem walk_marked (attrs : List Attribute) (value : String) (absent : Bool) :
    Walk.attributes (if absent then attrs ++ [.ofText mark value] else attrs) = Walk.attributes attrs := by
  cases absent with
  | false => rfl
  | true =>
    induction attrs with
    | nil => simp [Walk.attributes, walk_ofText]
    | cons a attrs ih =>
      simp only [if_true, List.cons_append, Walk.attributes] at ih ⊢
      rw [ih]

variable (path mark)

theorem names_attributes (count : Nat) (attrs : List Attribute) :
    (attributes path mark count attrs).1.map Attribute.name? = attrs.map Attribute.name? := by
  induction attrs generalizing count with
  | nil => rfl
  | cons a attrs ih =>
    rw [attributes, List.map_cons, List.map_cons, ih]
    cases a <;> rfl

mutual

theorem node_tagged (count : Nat) : ∀ n : Node,
    Tagged path mark count (node path mark count n).2 (Walk.node n) (Walk.node (node path mark count n).1)
  | .element loc name attrs kids selfClosing => by
    have inside := attributes_tagged (count + 1) attrs
    have below := nodes_tagged (attributes path mark (count + 1) attrs).2 kids
    simp only [node, Walk.node]
    rw [walk_marked]
    refine .element (inside.append below) rfl ⟨rfl, rfl, rfl, (attributes path mark (count + 1) attrs).1, names_attributes path mark _ attrs, ?_⟩
    exact marked_eq ..
  | .fragment loc kids => .other (nodes_tagged count kids) (by simp [Node.kind]) (by simp [Node.kind])
  | .text .. => .other (.nil count) (by simp [Node.kind]) (by simp [Node.kind])
  | .wrapper loc spread expression => .other (parts_tagged count expression) (by simp [Node.kind]) (by simp [Node.kind])
  | .other loc ps => .other (parts_tagged count ps) (by simp [Node.kind]) (by simp [Node.kind])

theorem nodes_tagged (count : Nat) : ∀ ns : List Node,
    Tagged path mark count (nodes path mark count ns).2 (Walk.nodes ns) (Walk.nodes (nodes path mark count ns).1)
  | [] => .nil count
  | n :: ns => (node_tagged count n).append (nodes_tagged (node path mark count n).2 ns)

theorem part_tagged (count : Nat) : ∀ p : Part,
    Tagged path mark count (part path mark count p).2 (Walk.part p) (Walk.part (part path mark count p).1)
  | .code _ => .nil count
  | .node n => node_tagged count n

theorem parts_tagged (count : Nat) : ∀ ps : List Part,
    Tagged path mark count (parts path mark count ps).2 (Walk.parts ps) (Walk.parts (parts path mark count ps).1)
  | [] => .nil count
  | p :: ps => (part_tagged count p).append (parts_tagged (part path mark count p).2 ps)

theorem attr_tagged (count : Nat) : ∀ a : Attribute,
    Tagged path mark count (attr path mark count a).2 (Walk.attr a) (Walk.attr (attr path mark count a).1)
  | .flag _ => .nil count
  | .string .. => .nil count
  | .expression _ ps => parts_tagged count ps
  | .spread ps => parts_tagged count ps

theorem attributes_tagged (count : Nat) : ∀ attrs : List Attribute,
    Tagged path mark count (attributes path mark count attrs).2 (Walk.attributes attrs) (Walk.attributes (attributes path mark count attrs).1)
  | [] => .nil count
  | a :: attrs => (attr_tagged count a).append (attributes_tagged (attr path mark count a).2 attrs)

end

end Annotate

theorem SourceTree.annotate_elements (t : SourceTree) (path mark : String) :
    List.Forall₂ (Annotate.TaggedAs path mark) t.elements.zipIdx (t.annotate path mark).elements :=
  (Annotate.parts_tagged path mark 0 t.body).elements

namespace Reshape

variable {f : Reshape}

def heads (ns : List Node) : List TagHead := ns.filterMap Node.tagHead?

@[simp] theorem heads_append (ms ns : List Node) : heads (ms ++ ns) = heads ms ++ heads ns := List.filterMap_append ..

def KeepsElements (f : Reshape) : Prop := ∀ n rest, heads (Walk.nodes (f.child n rest)) = heads (Walk.node n) ++ heads (Walk.nodes rest)

theorem names_attributes (f : Reshape) (attrs : List Attribute) : (f.attributes attrs).map Attribute.name? = attrs.map Attribute.name? := by
  induction attrs with
  | nil => rfl
  | cons a attrs ih =>
    rw [attributes, List.map_cons, List.map_cons, ih]
    cases a <;> rfl

mutual

theorem node_heads (keeps : f.KeepsElements) : ∀ n : Node, heads (Walk.node (f.node n)) = heads (Walk.node n)
  | .element loc name attrs kids selfClosing => by
    have inside := attributes_heads keeps attrs
    have below := nodes_heads keeps kids
    unfold heads at inside below ⊢
    simp only [node, Walk.node, List.filterMap_cons, Node.tagHead?, List.filterMap_append, names_attributes, inside, below]
  | .fragment loc kids => nodes_heads keeps kids
  | .text .. => rfl
  | .wrapper loc spread expression => parts_heads keeps expression
  | .other loc ps => parts_heads keeps ps

theorem nodes_heads (keeps : f.KeepsElements) : ∀ ns : List Node, heads (Walk.nodes (f.nodes ns)) = heads (Walk.nodes ns)
  | [] => rfl
  | n :: ns => by rw [nodes, keeps, node_heads keeps n, nodes_heads keeps ns, Walk.nodes, heads_append]

theorem part_heads (keeps : f.KeepsElements) : ∀ p : Part, heads (Walk.part (f.part p)) = heads (Walk.part p)
  | .code _ => rfl
  | .node n => node_heads keeps n

theorem parts_heads (keeps : f.KeepsElements) : ∀ ps : List Part, heads (Walk.parts (f.parts ps)) = heads (Walk.parts ps)
  | [] => rfl
  | p :: ps => by rw [parts, Walk.parts, Walk.parts, heads_append, heads_append, part_heads keeps p, parts_heads keeps ps]

theorem attr_heads (keeps : f.KeepsElements) : ∀ a : Attribute, heads (Walk.attr (f.attr a)) = heads (Walk.attr a)
  | .flag _ => rfl
  | .string .. => rfl
  | .expression _ ps => parts_heads keeps ps
  | .spread ps => parts_heads keeps ps

theorem attributes_heads (keeps : f.KeepsElements) : ∀ attrs : List Attribute, heads (Walk.attributes (f.attributes attrs)) = heads (Walk.attributes attrs)
  | [] => rfl
  | a :: attrs => by rw [attributes, Walk.attributes, Walk.attributes, heads_append, heads_append, attr_heads keeps a, attributes_heads keeps attrs]

end

theorem keepsElements_unplaced : unplaced.KeepsElements := by
  intro n rest
  rw [← heads_append]
  rfl

theorem heads_prepend (c : Char) (rest : List Node) : heads (Walk.nodes (prepend c rest)) = heads (Walk.nodes rest) := by
  unfold prepend
  split <;> rfl

theorem heads_respell (cs : List Char) (rest : List Node) : heads (Walk.nodes (respell cs rest)) = heads (Walk.nodes rest) := by
  induction cs with
  | nil => rfl
  | cons c cs ih =>
    rw [respell]
    split
    · exact ih
    · rw [heads_prepend, ih]

theorem keepsElements_reread : reread.KeepsElements := by
  intro n rest
  cases n with
  | text loc value => exact heads_respell value.toList rest
  | element | fragment | wrapper | other =>
    rw [← heads_append]
    rfl

end Reshape

theorem SourceTree.heads_eq (t : SourceTree) : t.elements.map Node.tagHead? = (Reshape.heads t.nodes).map some := by
  unfold elements Reshape.heads
  induction t.nodes with
  | nil => rfl
  | cons n ns ih =>
    cases n with
    | element loc name attrs kids selfClosing => exact congrArg (_ :: ·) ih
    | fragment | text | wrapper | other => exact ih

theorem heads_of_reread {t t' : SourceTree} (same : Reshape.unplaced.tree t' = Reshape.reread.tree t) :
    t'.elements.map Node.tagHead? = t.elements.map Node.tagHead? := by
  have read := Reshape.parts_heads Reshape.keepsElements_unplaced t'.body
  have written := Reshape.parts_heads Reshape.keepsElements_reread t.body
  have bodies : Reshape.unplaced.parts t'.body = Reshape.reread.parts t.body := congrArg SourceTree.body same
  rw [SourceTree.heads_eq, SourceTree.heads_eq, SourceTree.nodes, SourceTree.nodes, ← read, ← written, bodies]

theorem Text.natUpTo?_digits {n bound : Nat} (small : n ≤ bound) : natUpTo? bound (digits n) = some n := by
  have isDigit := digits_isDigit n
  have nonempty := digits_ne_nil n
  have value := ofDigits_digits n
  generalize digits n = ds at isDigit nonempty value
  unfold natUpTo?
  split
  · exact absurd (isDigit '+' List.mem_cons_self) (by decide)
  · have all : ds.any (!·.isDigit) = false := by
      rw [List.any_eq_false]
      intro c member
      simp [isDigit c member]
    simp [nonempty, all, value, small]

namespace PreviewTag

theorem splitLast_append (before after : List Char) (plain : ∀ c ∈ after, c ≠ ':') :
    splitLast (before ++ ':' :: after) = some (before, after) := by
  have turned : (before ++ ':' :: after).reverse = after.reverse ++ ':' :: before.reverse := by simp
  have passes : ∀ c ∈ after.reverse, decide (c ≠ ':') = true := fun c member => by simpa using plain c (List.mem_reverse.mp member)
  unfold splitLast
  rw [turned, List.dropWhile_append_of_pos passes, List.takeWhile_append_of_pos passes]
  simp

theorem parse?_format (t : PreviewTag) (small : t.index ≤ Text.largest64) : parse? t.format = some t := by
  have spelled : t.format.toList = t.path.toList ++ ':' :: Text.digits t.index := by simp [format, Text.decimal]
  have plain : ∀ c ∈ Text.digits t.index, c ≠ ':' := by
    intro c member same
    exact absurd (Text.digits_isDigit t.index c member) (by rw [same]; decide)
  unfold parse?
  rw [spelled, splitLast_append _ _ plain]
  simp [Text.natUpTo?_digits small]

end PreviewTag

end MarkupEditor
