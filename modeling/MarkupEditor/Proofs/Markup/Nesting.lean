import MarkupEditor.Markup.Walk
import MarkupEditor.Markup.Node

namespace MarkupEditor

namespace Node

-- The nodes that a node holds itself, not through other nodes.
def inner : Node → List Node
  | element _ _ attrs kids _ => (attrs.flatMap Attribute.parts).filterMap Part.node? ++ kids
  | fragment _ kids => kids
  | text .. => []
  | wrapper _ _ expression => expression.filterMap Part.node?
  | other _ ps => ps.filterMap Part.node?

section

variable {P : Node → Prop}

mutual

theorem inner_node (step : ∀ n : Node, (∀ m ∈ n.inner, P m) → P n) : ∀ n : Node, P n
  | .element loc name attrs kids selfClosing => step _ fun m member =>
      (List.mem_append.mp member).elim (inner_attributes step attrs m) (inner_nodes step kids m)
  | .fragment loc kids => step _ (inner_nodes step kids)
  | .text loc value => step _ fun m member => absurd member (by simp [inner])
  | .wrapper loc spread expression => step _ (inner_parts step expression)
  | .other loc ps => step _ (inner_parts step ps)

theorem inner_nodes (step : ∀ n : Node, (∀ m ∈ n.inner, P m) → P n) : ∀ ns : List Node, ∀ m ∈ ns, P m
  | [] => by simp
  | n :: ns => List.forall_mem_cons.mpr ⟨inner_node step n, inner_nodes step ns⟩

theorem inner_part (step : ∀ n : Node, (∀ m ∈ n.inner, P m) → P n) : ∀ p : Part, ∀ m ∈ p.node?, P m
  | .code _ => by simp [Part.node?]
  | .node n => fun m same => Option.some.inj same ▸ inner_node step n

theorem inner_parts (step : ∀ n : Node, (∀ m ∈ n.inner, P m) → P n) : ∀ ps : List Part, ∀ m ∈ ps.filterMap Part.node?, P m
  | [] => by simp
  | p :: ps => by
    have first := inner_part step p
    have later := inner_parts step ps
    intro m member
    obtain ⟨q, listed, found⟩ := List.mem_filterMap.mp member
    rcases List.mem_cons.mp listed with same | listed
    · exact first m (same ▸ found)
    · exact later m (List.mem_filterMap.mpr ⟨q, listed, found⟩)

theorem inner_attr (step : ∀ n : Node, (∀ m ∈ n.inner, P m) → P n) : ∀ a : Attribute, ∀ m ∈ a.parts.filterMap Part.node?, P m
  | .flag _ => by simp [Attribute.parts]
  | .string .. => by simp [Attribute.parts]
  | .expression _ ps => inner_parts step ps
  | .spread ps => inner_parts step ps

theorem inner_attributes (step : ∀ n : Node, (∀ m ∈ n.inner, P m) → P n) :
    ∀ attrs : List Attribute, ∀ m ∈ (attrs.flatMap Attribute.parts).filterMap Part.node?, P m
  | [] => by simp
  | a :: attrs => by
    have first := inner_attr step a
    have later := inner_attributes step attrs
    intro m member
    rw [List.flatMap_cons, List.filterMap_append, List.mem_append] at member
    exact member.elim (first m) (later m)

end

end

theorem inner_induction {P : Node → Prop} (step : ∀ n : Node, (∀ m ∈ n.inner, P m) → P n) (n : Node) : P n :=
  inner_node step n

end Node

theorem filterMap_ofCode (text : List Char) : (Part.ofCode text).filterMap Part.node? = [] := by
  unfold Part.ofCode
  split <;> rfl

namespace Walk

theorem mem_node (n : Node) : n ∈ node n := by
  cases n <;> simp [node]

theorem parts_append (ps qs : List Part) : parts (ps ++ qs) = parts ps ++ parts qs := by
  induction ps with
  | nil => rfl
  | cons p ps ih => simp [parts, ih]

theorem nodes_append (ms ns : List Node) : nodes (ms ++ ns) = nodes ms ++ nodes ns := by
  induction ms with
  | nil => rfl
  | cons m ms ih => simp [nodes, ih]

theorem parts_ofCode (text : List Char) : parts (Part.ofCode text) = [] := by
  unfold Part.ofCode
  split <;> rfl

theorem mem_parts {ps : List Part} {m : Node} : m ∈ parts ps ↔ ∃ n ∈ ps.filterMap Part.node?, m ∈ node n := by
  induction ps with
  | nil => simp [parts]
  | cons p ps ih =>
    cases p with
    | code text => simp [parts, part, Part.node?, ih]
    | node n => simp [parts, part, Part.node?, ih]

theorem mem_nodes {ns : List Node} {m : Node} : m ∈ nodes ns ↔ ∃ n ∈ ns, m ∈ node n := by
  induction ns with
  | nil => simp [nodes]
  | cons n ns ih => simp [nodes, ih]

theorem mem_attributes {attrs : List Attribute} {m : Node} :
    m ∈ attributes attrs ↔ ∃ n ∈ (attrs.flatMap Attribute.parts).filterMap Part.node?, m ∈ node n := by
  induction attrs with
  | nil => simp [attributes]
  | cons a attrs ih =>
    have own : m ∈ attr a ↔ ∃ n ∈ a.parts.filterMap Part.node?, m ∈ node n := by
      cases a with
      | flag | string => simp [attr, Attribute.parts]
      | expression | spread => exact mem_parts
    rw [attributes, List.mem_append, own, ih, List.flatMap_cons, List.filterMap_append]
    simp only [List.mem_append, or_and_right, exists_or]

theorem mem_node_iff {n m : Node} : m ∈ node n ↔ m = n ∨ ∃ k ∈ n.inner, m ∈ node k := by
  cases n with
  | element loc name attrs kids selfClosing =>
    simp only [node, List.mem_cons, List.mem_append, mem_attributes, mem_nodes, Node.inner, or_and_right, exists_or]
  | fragment loc kids => simp only [node, List.mem_cons, mem_nodes, Node.inner]
  | text => simp [node, Node.inner]
  | wrapper loc spread ps => simp only [node, List.mem_cons, mem_parts, Node.inner]
  | other loc ps => simp only [node, List.mem_cons, mem_parts, Node.inner]

theorem mem_of_inner {n k m : Node} (held : k ∈ n.inner) (member : m ∈ node k) : m ∈ node n :=
  mem_node_iff.mpr (.inr ⟨k, held, member⟩)

theorem mem_trans {n k m : Node} (below : k ∈ node n) (member : m ∈ node k) : m ∈ node n := by
  induction n using Node.inner_induction with
  | step n ih =>
    rcases mem_node_iff.mp below with rfl | ⟨i, held, below⟩
    · exact member
    · exact mem_of_inner held (ih i held below)

end Walk

def Node.Throughout (L : Node → Prop) (n : Node) : Prop := ∀ m ∈ Walk.node n, L m

namespace Node.Throughout

variable {L : Node → Prop} {n : Node}

theorem self (holds : n.Throughout L) : L n := holds n (Walk.mem_node n)

theorem inner (holds : n.Throughout L) {m : Node} (held : m ∈ n.inner) : m.Throughout L :=
  fun k member => holds k (Walk.mem_of_inner held member)

theorem of_inner (own : L n) (inside : ∀ m ∈ n.inner, m.Throughout L) : n.Throughout L := by
  intro m member
  rcases Walk.mem_node_iff.mp member with rfl | ⟨k, held, member⟩
  · exact own
  · exact inside k held m member

end Node.Throughout

theorem SourceTree.throughout {t : SourceTree} {L : Node → Prop} (holds : ∀ n ∈ t.nodes, L n) : ∀ n ∈ t.nodes, n.Throughout L := by
  intro n member m inside
  obtain ⟨statement, listed, below⟩ := Walk.mem_parts.mp member
  exact holds m (Walk.mem_parts.mpr ⟨statement, listed, Walk.mem_trans below inside⟩)

end MarkupEditor
