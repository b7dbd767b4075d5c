import MarkupEditor.Proofs.Document.Building
import MarkupEditor.Proofs.Markup.Elements

namespace MarkupEditor

inductive Shape (α : Type) where
  | mk (value : α) (children : List (Shape α))

namespace Shape

variable {α β : Type}

def value : Shape α → α
  | mk value _ => value

mutual

def map (f : α → β) : Shape α → Shape β
  | mk value children => mk (f value) (mapAll f children)

def mapAll (f : α → β) : List (Shape α) → List (Shape β)
  | [] => []
  | s :: ss => map f s :: mapAll f ss

end

mutual

def values : Shape α → List α
  | mk value children => value :: valuesAll children

def valuesAll : List (Shape α) → List α
  | [] => []
  | s :: ss => values s ++ valuesAll ss

end

theorem valuesAll_append (ss rest : List (Shape α)) : valuesAll (ss ++ rest) = valuesAll ss ++ valuesAll rest := by
  induction ss with
  | nil => rfl
  | cons s ss ih => rw [List.cons_append, valuesAll, valuesAll, ih, List.append_assoc]

mutual

def ofNode (inMarkup : Bool) : Node → List (Shape (Option Node))
  | .element loc tag attributes children selfClosing =>
    [mk (some (.element loc tag attributes children selfClosing)) (ofNodes children)]
  | .fragment loc children => [mk (some (.fragment loc children)) (ofNodes children)]
  | .text loc value => if inMarkup then [mk (some (.text loc value)) []] else []
  | .wrapper loc spread expression =>
    if inMarkup then [mk (some (.wrapper loc spread expression)) (ofParts expression)] else ofParts expression
  | .other _ ps => ofParts ps

def ofNodes : List Node → List (Shape (Option Node))
  | [] => []
  | n :: ns => ofNode true n ++ ofNodes ns

def ofPart : Part → List (Shape (Option Node))
  | .code _ => []
  | .node n => ofNode false n

def ofParts : List Part → List (Shape (Option Node))
  | [] => []
  | p :: ps => ofPart p ++ ofParts ps

end

-- A statement has an entry if something in it has one.
def ofStatement : Node → List (Shape (Option Node))
  | .other loc ps => if (ofParts ps).isEmpty then [] else [mk (some (.other loc ps)) (ofParts ps)]
  | n => ofNode false n

def ofTree (t : SourceTree) : List (Shape (Option Node)) := t.statements.flatMap ofStatement

theorem ofNodes_eq (ns : List Node) : ofNodes ns = ns.flatMap (ofNode true) := by
  induction ns with
  | nil => rfl
  | cons n ns ih => rw [ofNodes, ih, List.flatMap_cons]

theorem ofParts_eq (ps : List Part) : ofParts ps = (ps.filterMap Part.node?).flatMap (ofNode false) := by
  induction ps with
  | nil => rfl
  | cons p ps ih =>
    rw [ofParts, ih]
    cases p <;> rfl

theorem ofNode_markup {n : Node} (markup : n.isMarkup) (inMarkup : Bool) : ∃ below, ofNode inMarkup n = [mk (some n) below] := by
  cases n with
  | element loc tag attributes children selfClosing => exact ⟨_, rfl⟩
  | fragment loc children => exact ⟨_, rfl⟩
  | text | wrapper | other => cases markup

def elementsIn (seen : List (Node × Bool)) : List Node := ((Survey.elements seen).filter (!·.2)).map Prod.fst

theorem elementsIn_append (seen seen' : List (Node × Bool)) : elementsIn (seen ++ seen') = elementsIn seen ++ elementsIn seen' := by
  simp [elementsIn]

theorem elementsIn_hidden (ns : List Node) : elementsIn (ns.map (·, true)) = [] := by
  have none : (Survey.elements (ns.map (·, true))).filter (!·.2) = [] := by
    apply List.filter_eq_nil_iff.mpr
    intro e member
    obtain ⟨n, _, rfl⟩ := List.mem_map.mp (List.mem_of_mem_filter member)
    simp
  rw [elementsIn, none]
  rfl

def elementsAmong (nodes : List (Option Node)) : List Node := (nodes.filterMap id).filter (·.kind == .element)

theorem elementsAmong_append (nodes nodes' : List (Option Node)) :
    elementsAmong (nodes ++ nodes') = elementsAmong nodes ++ elementsAmong nodes' := by
  simp [elementsAmong]

mutual

theorem ofNode_elements (inMarkup : Bool) : ∀ n : Node, elementsAmong (valuesAll (ofNode inMarkup n)) = elementsIn (Survey.node n)
  | .element loc tag attributes children selfClosing => by
    have below := ofNodes_elements children
    have seen : elementsIn (Survey.node (.element loc tag attributes children selfClosing)) =
        .element loc tag attributes children selfClosing ::
          (elementsIn ((Walk.attributes attributes).map (·, true)) ++ elementsIn (Survey.nodes children)) := by
      rw [← elementsIn_append]
      rfl
    rw [seen, elementsIn_hidden, List.nil_append, ← below, ofNode, valuesAll, values, valuesAll, List.append_nil]
    rfl
  | .fragment loc children => by
    have below := ofNodes_elements children
    rw [ofNode, valuesAll, values, valuesAll, List.append_nil]
    exact below
  | .text loc value => by
    cases inMarkup <;> rfl
  | .wrapper loc spread expression => by
    have below := ofParts_elements expression
    cases inMarkup with
    | false => exact below
    | true =>
      rw [ofNode, if_pos rfl, valuesAll, values, valuesAll, List.append_nil]
      exact below
  | .other loc ps => ofParts_elements ps

theorem ofNodes_elements : ∀ ns : List Node, elementsAmong (valuesAll (ofNodes ns)) = elementsIn (Survey.nodes ns)
  | [] => rfl
  | n :: ns => by
    rw [ofNodes, valuesAll_append, elementsAmong_append, ofNode_elements true n, ofNodes_elements ns, Survey.nodes, elementsIn_append]

theorem ofPart_elements : ∀ p : Part, elementsAmong (valuesAll (ofPart p)) = elementsIn (Survey.part p)
  | .code _ => rfl
  | .node n => ofNode_elements false n

theorem ofParts_elements : ∀ ps : List Part, elementsAmong (valuesAll (ofParts ps)) = elementsIn (Survey.parts ps)
  | [] => rfl
  | p :: ps => by
    rw [ofParts, valuesAll_append, elementsAmong_append, ofPart_elements p, ofParts_elements ps, Survey.parts, elementsIn_append]

end

end Shape

namespace Tree

variable {α β γ : Type}

mutual

def shape (f : α → β) : Tree α → Shape β
  | mk _ value children => .mk (f value) (shapeAll f children)

def shapeAll (f : α → β) : List (Tree α) → List (Shape β)
  | [] => []
  | t :: ts => shape f t :: shapeAll f ts

end

theorem shapeAll_append (f : α → β) (ts us : List (Tree α)) : shapeAll f (ts ++ us) = shapeAll f ts ++ shapeAll f us := by
  induction ts with
  | nil => rfl
  | cons t ts ih => rw [List.cons_append, shapeAll, shapeAll, ih, List.cons_append]

mutual

theorem map_shape (f : α → β) (g : β → γ) : ∀ t : Tree α, (shape f t).map g = shape (g ∘ f) t
  | mk id value children => by rw [shape, shape, Shape.map, mapAll_shapeAll f g children, Function.comp_apply]

theorem mapAll_shapeAll (f : α → β) (g : β → γ) : ∀ ts : List (Tree α), Shape.mapAll g (shapeAll f ts) = shapeAll (g ∘ f) ts
  | [] => rfl
  | t :: ts => by rw [shapeAll, shapeAll, Shape.mapAll, map_shape f g t, mapAll_shapeAll f g ts]

end

mutual

theorem values_shape (f : α → β) : ∀ t : Tree α, (shape f t).values = t.pairs.map (fun e => f e.2)
  | mk id value children => by rw [shape, Shape.values, pairs, List.map_cons, valuesAll_shapeAll f children]

theorem valuesAll_shapeAll (f : α → β) : ∀ ts : List (Tree α), Shape.valuesAll (shapeAll f ts) = (pairsAll ts).map (fun e => f e.2)
  | [] => rfl
  | t :: ts => by rw [shapeAll, Shape.valuesAll, pairsAll, List.map_append, values_shape f t, valuesAll_shapeAll f ts]

end

theorem values_children (f : α → β) (ts : List (Tree α)) : (shapeAll f ts).map Shape.value = ts.map fun t => f t.value := by
  induction ts with
  | nil => rfl
  | cons t ts ih =>
    obtain ⟨id, value, children⟩ := t
    rw [shapeAll, List.map_cons, List.map_cons, ih]
    rfl

end Tree

namespace Draft

variable (name : Nat → String) (classAttribute : String)

def shapes (ts : List (Tree Draft)) : List (Shape (Option Node)) := Tree.shapeAll (·.record.node?) ts

theorem shapes_append (ts us : List (Tree Draft)) : shapes (ts ++ us) = shapes ts ++ shapes us := Tree.shapeAll_append ..

mutual

theorem node_shape (inMarkup : Bool) (c : Count) : ∀ n : Node, shapes (node name classAttribute inMarkup c n).1 = Shape.ofNode inMarkup n
  | .element loc tag attributes children selfClosing =>
    congrArg (fun below => [Shape.mk (some (Node.element loc tag attributes children selfClosing)) below])
      (nodes_shape ⟨c.ids + 1, c.elements + 1 + elementsIn attributes⟩ children)
  | .fragment loc children => congrArg (fun below => [Shape.mk (some (Node.fragment loc children)) below]) (nodes_shape c.nextId children)
  | .text loc value => by
    cases inMarkup <;> rfl
  | .wrapper loc spread expression => by
    cases inMarkup with
    | false => exact parts_shape c expression
    | true => exact congrArg (fun below => [Shape.mk (some (Node.wrapper loc spread expression)) below]) (parts_shape c.nextId expression)
  | .other loc ps => parts_shape c ps

theorem nodes_shape (c : Count) : ∀ ns : List Node, shapes (nodes name classAttribute c ns).1 = Shape.ofNodes ns
  | [] => rfl
  | n :: ns => by
    rw [nodes, Shape.ofNodes, ← node_shape true c n, ← nodes_shape (node name classAttribute true c n).2 ns]
    exact shapes_append ..

theorem part_shape (c : Count) : ∀ p : Part, shapes (part name classAttribute c p).1 = Shape.ofPart p
  | .code _ => rfl
  | .node n => node_shape false c n

theorem parts_shape (c : Count) : ∀ ps : List Part, shapes (parts name classAttribute c ps).1 = Shape.ofParts ps
  | [] => rfl
  | p :: ps => by
    rw [parts, Shape.ofParts, ← part_shape c p, ← parts_shape (part name classAttribute c p).2 ps]
    exact shapes_append ..

end

theorem statement_shape (c : Count) (n : Node) : shapes (statement name classAttribute c n).1 = Shape.ofStatement n := by
  cases n with
  | other loc ps =>
    have below := parts_shape name classAttribute c.nextId ps
    have same : (parts name classAttribute c.nextId ps).1.isEmpty = (Shape.ofParts ps).isEmpty := by
      rw [← below]
      cases (parts name classAttribute c.nextId ps).1 <;> rfl
    rw [statement, Shape.ofStatement]
    dsimp only
    rw [same]
    split
    · rfl
    · exact congrArg (fun below => [Shape.mk (some (Node.other loc ps)) below]) below
  | element | fragment | text | wrapper => exact node_shape name classAttribute false c _

theorem ofTree_shape (t : SourceTree) : shapes (ofTree name classAttribute t) = Shape.ofTree t := by
  have all : ∀ c ns, shapes (statements name classAttribute c ns).1 = ns.flatMap Shape.ofStatement := by
    intro c ns
    induction ns generalizing c with
    | nil => rfl
    | cons n ns ih =>
      rw [statements, List.flatMap_cons, ← statement_shape name classAttribute c n, ← ih (statement name classAttribute c n).2]
      exact shapes_append ..
  exact all {} t.statements

variable (s : Store Record)

mutual

theorem shape_lay (parent : String) (order : Option String) : ∀ t : Tree Draft, (lay s parent order t).shape Record.node? = t.shape (·.record.node?)
  | .mk id d children => congrArg (Shape.mk d.record.node?) (shape_layAll id _ children)

theorem shape_layAll (parent : String) : ∀ (keys : List String) (ts : List (Tree Draft)),
    Tree.shapeAll Record.node? (layAll s parent keys ts) = shapes ts
  | _, [] => rfl
  | keys, t :: ts => congrArg₂ List.cons (shape_lay parent keys.head? t) (shape_layAll parent keys.tail ts)

end

end Draft

namespace Document

theorem shape_fileTree (d : Document) (path : String) (tree : SourceTree) (generation : Nat) :
    Tree.shapeAll Record.node? (d.fileTree path tree generation).children = Shape.ofTree tree :=
  (Draft.shape_layAll ..).trans (Draft.ofTree_shape ..)

end Document

end MarkupEditor
