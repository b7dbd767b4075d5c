import MarkupEditor.Document.Draft
import MarkupEditor.Proofs.Markup.Nesting
import MarkupEditor.Proofs.Store.Layout

namespace MarkupEditor

namespace Tree

variable {α : Type}

theorem pairsAll_append (ts us : List (Tree α)) : pairsAll (ts ++ us) = pairsAll ts ++ pairsAll us := by
  simp [pairsAll_eq]

end Tree

namespace Draft

-- Drafts whose ids are the names of ascending numbers after one count and up to another.
def Numbered (name : Nat → String) (c next : Count) (ts : List (Tree Draft)) : Prop :=
  c.ids ≤ next.ids ∧ ∃ numbers : List Nat, (Tree.pairsAll ts).map Prod.fst = numbers.map name ∧ numbers.Pairwise (· < ·) ∧
    ∀ k ∈ numbers, c.ids < k ∧ k ≤ next.ids

-- Drafts made from nodes of a list that are no statements.
def MadeFrom (nodes : List Node) (ts : List (Tree Draft)) : Prop :=
  ∀ e ∈ Tree.pairsAll ts, ∃ n ∈ nodes, e.2.record.origin = .node n ∧ n.kind ≠ .other

section

variable {name : Nat → String} {c c' next : Count} {ts us : List (Tree Draft)} {nodes nodes' : List Node}

theorem Numbered.nil (within : c.ids ≤ next.ids) : Numbered name c next [] := ⟨within, [], rfl, .nil, by simp⟩

theorem Numbered.append (first : Numbered name c c' ts) (second : Numbered name c' next us) : Numbered name c next (ts ++ us) := by
  obtain ⟨within, numbers, ids, ascending, range⟩ := first
  obtain ⟨within', numbers', ids', ascending', range'⟩ := second
  refine ⟨within.trans within', numbers ++ numbers', ?_, ?_, ?_⟩
  · rw [Tree.pairsAll_append, List.map_append, List.map_append, ids, ids']
  · refine List.pairwise_append.mpr ⟨ascending, ascending', fun k member k' member' => ?_⟩
    exact Nat.lt_of_le_of_lt (range k member).2 (range' k' member').1
  · intro k member
    rcases List.mem_append.mp member with member | member
    · exact ⟨(range k member).1, (range k member).2.trans within'⟩
    · exact ⟨Nat.lt_of_le_of_lt within (range' k member).1, (range' k member).2⟩

theorem Numbered.cons {draft : Draft} (below : Numbered name c' next ts) (taken : c'.ids = c.ids + 1) :
    Numbered name c next [.mk (name (c.ids + 1)) draft ts] := by
  obtain ⟨within, numbers, ids, ascending, range⟩ := below
  refine ⟨by omega, (c.ids + 1) :: numbers, ?_, ?_, ?_⟩
  · simp [Tree.pairsAll, Tree.pairs, ids]
  · refine List.pairwise_cons.mpr ⟨fun k member => ?_, ascending⟩
    have := (range k member).1
    omega
  · intro k member
    rcases List.mem_cons.mp member with rfl | member
    · omega
    · have := range k member
      omega

theorem MadeFrom.nil : MadeFrom nodes [] := by
  intro e member
  cases member

theorem MadeFrom.mono (made : MadeFrom nodes ts) (more : nodes ⊆ nodes') : MadeFrom nodes' ts := by
  intro e member
  obtain ⟨n, listed, rest⟩ := made e member
  exact ⟨n, more listed, rest⟩

theorem MadeFrom.append (first : MadeFrom nodes ts) (second : MadeFrom nodes' us) : MadeFrom (nodes ++ nodes') (ts ++ us) := by
  intro e member
  rw [Tree.pairsAll_append, List.mem_append] at member
  rcases member with member | member
  · exact (first.mono (List.subset_append_left ..)) e member
  · exact (second.mono (List.subset_append_right ..)) e member

theorem MadeFrom.cons {n : Node} {id : String} {draft : Draft} (below : MadeFrom nodes ts) (origin : draft.record.origin = .node n)
    (kind : n.kind ≠ .other) : MadeFrom (n :: nodes) [.mk id draft ts] := by
  intro e member
  simp only [Tree.pairsAll, Tree.pairs, List.append_nil, List.mem_cons] at member
  rcases member with rfl | member
  · exact ⟨n, List.mem_cons_self, origin, kind⟩
  · exact (below.mono (List.subset_cons_self ..)) e member

end

variable (name : Nat → String) (classAttribute : String)

mutual

theorem node_drafts (inMarkup : Bool) (c : Count) : ∀ n : Node,
    Numbered name c (node name classAttribute inMarkup c n).2 (node name classAttribute inMarkup c n).1 ∧
      MadeFrom (Walk.node n) (node name classAttribute inMarkup c n).1
  | .element loc tag attributes children selfClosing => by
    obtain ⟨numbered, made⟩ := nodes_drafts ⟨c.ids + 1, c.elements + 1 + elementsIn attributes⟩ children
    refine ⟨numbered.cons rfl, .cons (made.mono ?_) rfl (by simp [Node.kind])⟩
    exact List.subset_append_right ..
  | .fragment loc children => by
    obtain ⟨numbered, made⟩ := nodes_drafts c.nextId children
    exact ⟨numbered.cons rfl, made.cons rfl (by simp [Node.kind])⟩
  | .text loc value => by
    rw [node]
    split
    · exact ⟨Numbered.cons (.nil (Nat.le_refl _)) rfl, MadeFrom.cons .nil rfl (by simp [Node.kind])⟩
    · exact ⟨.nil (Nat.le_refl _), .nil⟩
  | .wrapper loc spread expression => by
    rw [node]
    split
    · obtain ⟨numbered, made⟩ := parts_drafts c.nextId expression
      exact ⟨numbered.cons rfl, made.cons rfl (by simp [Node.kind])⟩
    · obtain ⟨numbered, made⟩ := parts_drafts c expression
      exact ⟨numbered, made.mono (List.subset_cons_self ..)⟩
  | .other loc ps => by
    obtain ⟨numbered, made⟩ := parts_drafts c ps
    exact ⟨numbered, made.mono (List.subset_cons_self ..)⟩

theorem nodes_drafts (c : Count) : ∀ ns : List Node,
    Numbered name c (nodes name classAttribute c ns).2 (nodes name classAttribute c ns).1 ∧
      MadeFrom (Walk.nodes ns) (nodes name classAttribute c ns).1
  | [] => ⟨.nil (Nat.le_refl _), .nil⟩
  | n :: ns => by
    obtain ⟨numbered, made⟩ := node_drafts true c n
    obtain ⟨numbered', made'⟩ := nodes_drafts (node name classAttribute true c n).2 ns
    exact ⟨numbered.append numbered', made.append made'⟩

theorem part_drafts (c : Count) : ∀ p : Part,
    Numbered name c (part name classAttribute c p).2 (part name classAttribute c p).1 ∧
      MadeFrom (Walk.part p) (part name classAttribute c p).1
  | .code _ => ⟨.nil (Nat.le_refl _), .nil⟩
  | .node n => node_drafts false c n

theorem parts_drafts (c : Count) : ∀ ps : List Part,
    Numbered name c (parts name classAttribute c ps).2 (parts name classAttribute c ps).1 ∧
      MadeFrom (Walk.parts ps) (parts name classAttribute c ps).1
  | [] => ⟨.nil (Nat.le_refl _), .nil⟩
  | p :: ps => by
    obtain ⟨numbered, made⟩ := part_drafts c p
    obtain ⟨numbered', made'⟩ := parts_drafts (part name classAttribute c p).2 ps
    exact ⟨numbered.append numbered', made.append made'⟩

end

-- The outermost drafts of a file: what is made from a statement stands nowhere else.
def MadeFromFile (nodes statements : List Node) (ts : List (Tree Draft)) : Prop :=
  ∀ t ∈ ts, (∃ n ∈ nodes, t.value.record.origin = .node n ∧ (n.kind = .other → n ∈ statements)) ∧ MadeFrom nodes t.children

theorem statement_drafts (c : Count) (n : Node) :
    Numbered name c (statement name classAttribute c n).2 (statement name classAttribute c n).1 ∧
      MadeFromFile (Walk.node n) [n] (statement name classAttribute c n).1 := by
  have inCode : Numbered name c (node name classAttribute false c n).2 (node name classAttribute false c n).1 ∧
      MadeFromFile (Walk.node n) [n] (node name classAttribute false c n).1 := by
    obtain ⟨numbered, made⟩ := node_drafts name classAttribute false c n
    refine ⟨numbered, fun t member => ⟨?_, fun e below => ?_⟩⟩
    · have listed : (t.id, t.value) ∈ Tree.pairsAll (node name classAttribute false c n).1 := by
        rw [Tree.pairsAll_eq, List.mem_flatMap]
        exact ⟨t, member, by rw [Tree.pairs_eq]; exact List.mem_cons_self⟩
      obtain ⟨m, inside, origin, kind⟩ := made _ listed
      exact ⟨m, inside, origin, fun other => absurd other kind⟩
    · apply made e
      rw [Tree.pairsAll_eq, List.mem_flatMap]
      exact ⟨t, member, by rw [Tree.pairs_eq]; exact List.mem_cons_of_mem _ below⟩
  cases n with
  | other loc ps =>
    obtain ⟨numbered, made⟩ := parts_drafts name classAttribute c.nextId ps
    simp only [statement]
    split
    · exact ⟨.nil ((Nat.le_succ _).trans numbered.1), by simp [MadeFromFile]⟩
    · refine ⟨numbered.cons rfl, fun t member => ?_⟩
      obtain rfl := List.mem_singleton.mp member
      exact ⟨⟨_, List.mem_cons_self, rfl, fun _ => List.mem_singleton_self _⟩, made.mono (List.subset_cons_self ..)⟩
  | element | fragment | text | wrapper => exact inCode

theorem statements_drafts (c : Count) (ns : List Node) :
    Numbered name c (statements name classAttribute c ns).2 (statements name classAttribute c ns).1 ∧
      MadeFromFile (Walk.nodes ns) ns (statements name classAttribute c ns).1 := by
  induction ns generalizing c with
  | nil => exact ⟨.nil (Nat.le_refl _), by simp [MadeFromFile, statements]⟩
  | cons n ns ih =>
    obtain ⟨numbered, made⟩ := statement_drafts name classAttribute c n
    obtain ⟨numbered', made'⟩ := ih (statement name classAttribute c n).2
    refine ⟨numbered.append numbered', fun t member => ?_⟩
    rcases List.mem_append.mp member with member | member
    · obtain ⟨⟨m, inside, origin, listed⟩, below⟩ := made t member
      refine ⟨⟨m, List.mem_append_left _ inside, origin, fun other => ?_⟩, below.mono (List.subset_append_left ..)⟩
      exact List.mem_singleton.mp (listed other) ▸ List.mem_cons_self
    · obtain ⟨⟨m, inside, origin, listed⟩, below⟩ := made' t member
      refine ⟨⟨m, List.mem_append_right _ inside, origin, fun other => List.mem_cons_of_mem _ (listed other)⟩, ?_⟩
      exact below.mono (List.subset_append_right ..)

section

variable (s : Store Record)

mutual

def lay (parent : String) (order : Option String) : Tree Draft → Tree Record
  | .mk id d children => .mk id (d.record.placed parent order) (layAll id (s.appendKeys (some id) children.length) children)

def layAll (parent : String) : List String → List (Tree Draft) → List (Tree Record)
  | _, [] => []
  | keys, t :: ts => lay parent keys.head? t :: layAll parent keys.tail ts

end

mutual

theorem entries_eq (parent : String) (order : Option String) : ∀ t : Tree Draft, entries s parent order t = (lay s parent order t).pairs
  | .mk id d children => by rw [entries, lay, Tree.pairs, entriesAll_eq id _ children]

theorem entriesAll_eq (parent : String) : ∀ (keys : List String) (ts : List (Tree Draft)),
    entriesAll s parent keys ts = Tree.pairsAll (layAll s parent keys ts)
  | _, [] => rfl
  | keys, t :: ts => by rw [entriesAll, layAll, Tree.pairsAll, entries_eq parent keys.head? t, entriesAll_eq parent keys.tail ts]

end

def PlacedAs (d : String × Draft) (e : String × Record) : Prop := e.1 = d.1 ∧ ∃ parent order, e.2 = d.2.record.placed parent order

mutual

theorem lay_pairs (parent : String) (order : Option String) : ∀ t : Tree Draft, List.Forall₂ PlacedAs t.pairs (lay s parent order t).pairs
  | .mk id _ children => .cons ⟨rfl, parent, order, rfl⟩ (layAll_pairs id _ children)

theorem layAll_pairs (parent : String) : ∀ (keys : List String) (ts : List (Tree Draft)),
    List.Forall₂ PlacedAs (Tree.pairsAll ts) (Tree.pairsAll (layAll s parent keys ts))
  | _, [] => .nil
  | keys, t :: ts => List.rel_append (lay_pairs parent keys.head? t) (layAll_pairs parent keys.tail ts)

end

theorem ids_layAll (parent : String) (keys : List String) (ts : List (Tree Draft)) :
    (Tree.pairsAll (layAll s parent keys ts)).map Prod.fst = (Tree.pairsAll ts).map Prod.fst := by
  have placed := layAll_pairs s parent keys ts
  generalize Tree.pairsAll (layAll s parent keys ts) = entries at placed
  generalize Tree.pairsAll ts = drafts at placed
  induction placed with
  | nil => rfl
  | cons first _ ih => rw [List.map_cons, List.map_cons, first.1, ih]

theorem mem_layAll {parent : String} {keys : List String} {ts : List (Tree Draft)} {u : Tree Record} (member : u ∈ layAll s parent keys ts) :
    ∃ t ∈ ts, ∃ order, u = lay s parent order t := by
  induction ts generalizing keys with
  | nil => cases member
  | cons t ts ih =>
    rcases List.mem_cons.mp member with rfl | member
    · exact ⟨t, List.mem_cons_self, keys.head?, rfl⟩
    · obtain ⟨t', listed, rest⟩ := ih member
      exact ⟨t', List.mem_cons_of_mem _ listed, rest⟩

theorem MadeFrom.layAll {nodes : List Node} {ts : List (Tree Draft)} (made : MadeFrom nodes ts) {parent : String} {keys : List String}
    {e : String × Record} (member : e ∈ Tree.pairsAll (layAll s parent keys ts)) :
    ∃ n ∈ nodes, e.2.origin = .node n ∧ n.kind ≠ .other := by
  have placed := layAll_pairs s parent keys ts
  unfold MadeFrom at made
  generalize Tree.pairsAll (Draft.layAll s parent keys ts) = entries at placed member
  generalize Tree.pairsAll ts = drafts at placed made
  induction placed with
  | nil => cases member
  | @cons d e' drafts entries first _ ih =>
    rcases List.mem_cons.mp member with rfl | member
    · obtain ⟨n, listed, origin, kind⟩ := made d List.mem_cons_self
      obtain ⟨_, _, _, same⟩ := first
      exact ⟨n, listed, by rw [same]; exact origin, kind⟩
    · exact ih member fun d listed => made d (List.mem_cons_of_mem _ listed)

theorem mem_entriesUnder {tree : SourceTree} {parent : String} {e : String × Record}
    (member : e ∈ entriesUnder s parent (ofTree name classAttribute tree)) :
    (∃ k, e.1 = name k) ∧ ∃ n ∈ tree.nodes, e.2.origin = .node n ∧ (n.kind = .other → n ∈ tree.statements ∧ e.2.parent = some parent) := by
  obtain ⟨⟨_, numbers, ids, _⟩, made⟩ := statements_drafts name classAttribute {} tree.statements
  have nodes : ∀ n ∈ Walk.nodes tree.statements, n ∈ tree.nodes := fun n inside => Walk.mem_parts.mpr (Walk.mem_nodes.mp inside)
  rw [entriesUnder, entriesAll_eq] at member
  constructor
  · have named : e.1 ∈ numbers.map name := by
      rw [← ids]
      have listed := List.mem_map_of_mem (f := Prod.fst) member
      rwa [ids_layAll] at listed
    obtain ⟨k, _, same⟩ := List.mem_map.mp named
    exact ⟨k, same.symm⟩
  · rw [Tree.pairsAll_eq, List.mem_flatMap] at member
    obtain ⟨u, listed, inside⟩ := member
    obtain ⟨⟨id, d, children⟩, drafted, order, rfl⟩ := mem_layAll s listed
    obtain ⟨⟨n, listed, origin, statement⟩, below⟩ := made _ drafted
    rcases List.mem_cons.mp inside with rfl | inside
    · exact ⟨n, nodes n listed, origin, fun other => ⟨statement other, rfl⟩⟩
    · obtain ⟨m, listed, origin, kind⟩ := below.layAll s inside
      exact ⟨m, nodes m listed, origin, fun other => absurd other kind⟩

end

end Draft

end MarkupEditor
