import MarkupEditor.Document.Numbering
import MarkupEditor.Proofs.Document.Assembly

namespace MarkupEditor

namespace Rebuild

variable (classAttribute : String)

mutual

-- The entries that show, with their forms. Files do not show, and nothing shows below a text.
def shown : Tree Record → List (Tree Node)
  | .mk id r children =>
    match r.node? with
    | some n => [.mk id (form classAttribute r (entries classAttribute children) n) (if n.kind = .text then [] else shownAll children)]
    | none => []

def shownAll : List (Tree Record) → List (Tree Node)
  | [] => []
  | t :: ts => shown t ++ shownAll ts

end

def topForm (t : Tree Record) (n : Node) : Node := form classAttribute t.value (entries classAttribute t.children) n

theorem entry_eq (t : Tree Record) : entry classAttribute t = t.value.node?.map fun n => (n, topForm classAttribute t n) := by
  obtain ⟨id, r, children⟩ := t
  rw [entry, Tree.value]
  cases r.node? <;> rfl

variable {classAttribute}

theorem shown_some {t : Tree Record} {n : Node} (node : t.value.node? = some n) :
    shown classAttribute t = [.mk t.id (topForm classAttribute t n) (if n.kind = .text then [] else shownAll classAttribute t.children)] := by
  obtain ⟨id, r, children⟩ := t
  have held : r.node? = some n := node
  rw [shown, held]
  rfl

theorem shown_none {t : Tree Record} (file : t.value.node? = none) : shown classAttribute t = [] := by
  obtain ⟨id, r, children⟩ := t
  have held : r.node? = none := file
  rw [shown, held]

theorem entries_cons (t : Tree Record) (ts : List (Tree Record)) :
    entries classAttribute (t :: ts) = (t.value.node?.map fun n => (n, topForm classAttribute t n)).toList ++ entries classAttribute ts := by
  rw [entries, entry_eq]
  cases t.value.node? <;> rfl

theorem sources_entries (ts : List (Tree Record)) : (entries classAttribute ts).map Prod.fst = ts.filterMap (·.value.node?) := by
  induction ts with
  | nil => rfl
  | cons t ts ih =>
    rw [entries_cons, List.map_append, ih, List.filterMap_cons]
    cases t.value.node? <;> rfl

theorem kind_entries {ts : List (Tree Record)} {q : Node × Node} (member : q ∈ entries classAttribute ts) : q.2.kind = q.1.kind := by
  obtain ⟨t, _, made⟩ := mem_entries.mp member
  rw [entry_eq] at made
  obtain ⟨n, _, rfl⟩ := Option.map_eq_some_iff.mp made
  exact form_kind ..

theorem sources_of_nodes (classAttribute : String) {ts : List (Tree Record)} {nodes : List Node} (from_ : ts.map (·.value.node?) = nodes.map some) :
    (entries classAttribute ts).map Prod.fst = nodes := by
  have same := congrArg (List.filterMap id) from_
  rw [List.filterMap_map, List.filterMap_map] at same
  rw [sources_entries]
  exact same.trans List.filterMap_some

theorem mem_of_node {ts : List (Tree Record)} {nodes : List Node} (from_ : ts.map (·.value.node?) = nodes.map some) {t : Tree Record}
    (listed : t ∈ ts) {n : Node} (node : t.value.node? = some n) : n ∈ nodes := by
  have member := List.mem_map_of_mem (f := fun t : Tree Record => t.value.node?) listed
  rw [from_, node] at member
  exact (List.mem_map_of_injective (Option.some_injective _)).mp member

theorem map_present {kids : List (Node × Node)} (apart : (kids.map Prod.fst).Pairwise fun a b => a.sameSource b = false) :
    (kids.map Prod.fst).map (present kids) = kids.map Prod.snd := by
  rw [List.map_map]
  apply List.map_congr_left
  intro q member
  have itself : q.1.sameSource q.1 = true := by simp [Node.sameSource]
  rw [Function.comp_apply, present]
  cases found : kids.find? (·.1.sameSource q.1) with
  | none => exact absurd itself (List.find?_eq_none.mp found q member)
  | some p =>
    have source : p.1.sameSource q.1 = true := by simpa using List.find?_some found
    rw [eq_of_sameSource apart (List.mem_of_find?_eq_some found) member source]
    rfl

-- What stands at an entry made from a node: the children of markup are no statements, and those of code are its nodes.
structure Sits (u : Tree Record) (n : Node) : Prop where
  regular : n.Regular
  listed : n.isMarkup → ∀ c ∈ u.children, ∀ m, c.value.node? = some m → m.kind ≠ .other
  code : n.HoldsCode → u.children.map (·.value.node?) = n.inner.map some

def Firm (t : Tree Record) : Prop := ∀ u, t.Within u → ∀ n, u.value.node? = some n → Sits u n

theorem Firm.child {t c : Tree Record} (firm : Firm t) (child : c ∈ t.children) : Firm c := fun u within => firm u (.inside child within)

theorem shape_entries {ts : List (Tree Record)} {f : Node → List (Shape (Option Node))}
    (each : ∀ t ∈ ts, ∀ n, t.value.node? = some n → f (topForm classAttribute t n) = Tree.shapeAll some (shown classAttribute t)) :
    ((entries classAttribute ts).map Prod.snd).flatMap f = Tree.shapeAll some (shownAll classAttribute ts) := by
  induction ts with
  | nil => rfl
  | cons t ts ih =>
    obtain ⟨first, later⟩ := List.forall_mem_cons.mp each
    rw [entries_cons, List.map_append, List.flatMap_append, ih later, shownAll, Tree.shapeAll_append]
    cases node : t.value.node? with
    | none =>
      rw [shown_none node]
      rfl
    | some n =>
      rw [← first n node]
      exact congrArg (· ++ _) (List.append_nil _)

theorem nodes_spliced {ps : List Part} {kids : List (Node × Node)} (sources : kids.map Prod.fst = ps.filterMap Part.node?)
    (distinct : Part.Distinct ps) : (ps.map (splice kids)).filterMap Part.node? = kids.map Prod.snd := by
  have apart : (kids.map Prod.fst).Pairwise fun a b => a.sameSource b = false := sources ▸ distinct
  rw [splice_eq, filterMap_mapNode, ← sources]
  exact map_present apart

theorem shape_topForm (t : Tree Record) (firm : Firm t) {n : Node} (node : t.value.node? = some n) (kind : n.kind ≠ .other) (inMarkup : Bool)
    (stands : n.isMarkup ∨ inMarkup = true) : Shape.ofNode inMarkup (topForm classAttribute t n) = Tree.shapeAll some (shown classAttribute t) := by
  induction t using Tree.children_induction generalizing n inMarkup with
  | step t ih =>
    have sits := firm t (.self t) n node
    have single : ∀ below, (if n.kind = .text then [] else shownAll classAttribute t.children) = below →
        Tree.shapeAll some (shown classAttribute t) = [.mk (some (topForm classAttribute t n)) (Tree.shapeAll some below)] := by
      intro below same
      rw [shown_some node, same]
      rfl
    have markup : n.isMarkup → Shape.ofNodes ((entries classAttribute t.children).map Prod.snd) = Tree.shapeAll some (shownAll classAttribute t.children) := by
      intro markup
      rw [Shape.ofNodes_eq]
      exact shape_entries fun c child m held => ih c child (firm.child child) held (sits.listed markup c child m held) true (.inr rfl)
    cases n with
    | element loc tag attributes children selfClosing =>
      rw [single _ rfl, topForm, form, Shape.ofNode, markup rfl]
      rfl
    | fragment loc children =>
      rw [single _ rfl, topForm, form, Shape.ofNode, markup rfl]
      rfl
    | text loc value =>
      obtain rfl : inMarkup = true := stands.elim (fun markup => by cases markup) id
      rw [single _ rfl]
      rfl
    | wrapper loc spread expression =>
      obtain rfl : inMarkup = true := stands.elim (fun markup => by cases markup) id
      obtain ⟨inCode, distinct⟩ := sits.regular.self
      have from_ := sits.code (.inl rfl)
      have below : Shape.ofParts (expression.map (splice (entries classAttribute t.children))) =
          Tree.shapeAll some (shownAll classAttribute t.children) := by
        rw [Shape.ofParts_eq, nodes_spliced (sources_of_nodes classAttribute from_) distinct]
        refine shape_entries fun c child m held => ?_
        have markup := inCode m (mem_of_node from_ child held)
        exact ih c child (firm.child child) held (kind_of_isMarkup markup) false (.inl markup)
      rw [single _ rfl, topForm, form, Shape.ofNode, if_pos rfl, below]
      rfl
    | other => exact absurd rfl kind

theorem shape_statement {t : Tree Record} (firm : Firm t) {n : Node} (node : t.value.node? = some n) (kind : n.kind = .other)
    (marked : n.inner ≠ []) : Shape.ofStatement (topForm classAttribute t n) = Tree.shapeAll some (shown classAttribute t) := by
  have sits := firm t (.self t) n node
  cases n with
  | other loc ps =>
    obtain ⟨inCode, distinct⟩ := sits.regular.self
    have from_ := sits.code (.inr rfl)
    have sources := sources_of_nodes classAttribute from_
    have nodes := nodes_spliced sources distinct
    have below : Shape.ofParts (ps.map (splice (entries classAttribute t.children))) = Tree.shapeAll some (shownAll classAttribute t.children) := by
      rw [Shape.ofParts_eq, nodes]
      refine shape_entries fun c child m held => ?_
      have markup := inCode m (mem_of_node from_ child held)
      exact shape_topForm c (firm.child child) held (kind_of_isMarkup markup) false (.inl markup)
    have filled : (Shape.ofParts (ps.map (splice (entries classAttribute t.children)))).isEmpty = false := by
      have markup : ∀ m ∈ (entries classAttribute t.children).map Prod.snd, m.isMarkup := by
        intro m member
        obtain ⟨q, listed, rfl⟩ := List.mem_map.mp member
        have inside : q.1 ∈ (Node.other loc ps).inner := sources ▸ List.mem_map_of_mem listed
        exact isMarkup_of_kind (kind_entries listed) (inCode q.1 inside)
      have values := congrArg List.length (Shape.values_code markup)
      have count := congrArg List.length sources
      rw [List.length_map, ← nodes, ← Shape.ofParts_eq, List.length_map, nodes, List.length_map] at values
      rw [List.length_map] at count
      rw [List.isEmpty_eq_false_iff, ← List.length_pos_iff, values, count]
      exact List.length_pos_iff.mpr marked
    rw [shown_some node, topForm, form, Shape.ofStatement, filled, below]
    rfl
  | element | fragment | text | wrapper => cases kind

theorem shape_file {source : SourceTree} (regular : source.Regular) {ts : List (Tree Record)} (firm : ∀ t ∈ ts, Firm t)
    (from_ : ts.map (·.value.node?) = source.marked.map some) :
    Shape.ofTree (file classAttribute source ts) = Tree.shapeAll some (shownAll classAttribute ts) := by
  have sources := sources_of_nodes classAttribute from_
  have distinct : source.statements.Pairwise fun a b => a.sameSource b = false := regular.distinct
  have apart : ((entries classAttribute ts).map Prod.fst).Pairwise fun a b => a.sameSource b = false := by
    rw [sources]
    exact distinct.sublist List.filter_sublist
  -- An entry made from another statement has another place, so a statement without entries is its own form.
  have unmarked : ∀ n ∈ source.statements, n.inner.isEmpty = true → Shape.ofStatement (present (entries classAttribute ts) n) = [] := by
    intro n listed empty
    obtain ⟨kind, whole⟩ := regular.statements n listed
    have itself : present (entries classAttribute ts) n = n := by
      rcases present_cases (entries classAttribute ts) n with same | ⟨q, member, same, _⟩
      · exact same
      · have marked : q.1 ∈ source.marked := sources ▸ List.mem_map_of_mem member
        obtain ⟨inside, filled⟩ := List.mem_filter.mp marked
        rw [regular.distinct.eq inside listed same, empty] at filled
        cases filled
    rw [itself, Shape.ofStatement_eq kind whole, if_pos empty]
  have left : ∀ ns : List Node, (∀ n ∈ ns, n ∈ source.statements) → ns.flatMap (fun n => Shape.ofStatement (present (entries classAttribute ts) n)) =
      (ns.filter (!·.inner.isEmpty)).flatMap fun n => Shape.ofStatement (present (entries classAttribute ts) n) := by
    intro ns inside
    induction ns with
    | nil => rfl
    | cons n ns ih =>
      obtain ⟨first, later⟩ := List.forall_mem_cons.mp inside
      rw [List.flatMap_cons, ih later, List.filter_cons]
      cases empty : n.inner.isEmpty with
      | true => rw [unmarked n first empty]; rfl
      | false => rfl
  rw [Shape.ofTree, SourceTree.statements, file, splice_eq, filterMap_mapNode, List.flatMap_map]
  refine (left source.statements fun n member => member).trans ?_
  show source.marked.flatMap (fun n => Shape.ofStatement (present (entries classAttribute ts) n)) = _
  rw [← List.flatMap_map, ← sources, map_present apart]
  refine shape_entries fun t listed n node => ?_
  obtain ⟨inside, filled⟩ := List.mem_filter.mp (mem_of_node from_ listed node)
  exact shape_statement (firm t listed) node (regular.statements n inside).1 (by simpa using filled)

end Rebuild

theorem Store.within_trees {s : Store Record} (wooded : Wooded s.get?) {id : String} {t u : Tree Record} (member : t ∈ s.trees id)
    (within : t.Within u) : s.get? u.id = some u.value ∧ u.children = s.trees u.id := by
  induction within generalizing id with
  | self t =>
    rw [trees_eq wooded] at member
    obtain ⟨child, _, made⟩ := List.mem_filterMap.mp member
    obtain ⟨r, found, rfl⟩ := Option.map_eq_some_iff.mp made
    exact ⟨found, rfl⟩
  | @inside t c u child _ ih =>
    rw [trees_eq wooded] at member
    obtain ⟨top, _, made⟩ := List.mem_filterMap.mp member
    obtain ⟨r, _, rfl⟩ := Option.map_eq_some_iff.mp made
    exact ih child

theorem Store.parentId_of_mem_trees {s : Store Record} (wooded : Wooded s.get?) {id : String} {t : Tree Record} (member : t ∈ s.trees id) :
    s.get? t.id = some t.value ∧ parentId t.value = id := by
  rw [trees_eq wooded] at member
  obtain ⟨child, listed, made⟩ := List.mem_filterMap.mp member
  obtain ⟨r, found, rfl⟩ := Option.map_eq_some_iff.mp made
  obtain ⟨r', same, under⟩ := mem_children.mp listed
  obtain rfl := Option.some.inj (found.symm.trans same)
  exact ⟨found, under⟩

namespace Document

variable {d : Document}

theorem Sturdy.firm (sturdy : d.Sturdy) {id : String} {t : Tree Record} (member : t ∈ d.store.trees id) : Rebuild.Firm t := by
  have wooded := sturdy.standing.planted.toWooded
  have orderly := sturdy.regular.present
  intro u within n node
  obtain ⟨live, children⟩ := Store.within_trees wooded member within
  refine ⟨orderly.origins u.id u.value n live node, ?_, ?_⟩
  · intro markup c child m held other
    rw [children] at child
    obtain ⟨found, under⟩ := Store.parentId_of_mem_trees wooded child
    obtain ⟨path, f, root, _, _, parent, top, isFile⟩ := orderly.statements c.id c.value m found held other
    have above : File.rootId path = u.id := by simpa [Store.parentId, Placed.parent, parent] using under
    have held : d.contents () u.id = some u.value := live
    rw [above, held] at top
    obtain rfl := Option.some.inj top
    simp [Record.isFile, node] at isFile
  · intro code
    rw [children]
    exact (sturdy.fixed.present.pinned u.id u.value n.inner live (.code node code)).trees wooded (wooded.named live)

theorem Sturdy.shape (sturdy : d.Sturdy) {path : String} {f : File} (found : d.file? path = some f) {r : Record}
    (live : d.store.get? (File.rootId path) = some r) :
    Shape.ofTree (Rebuild.file d.classAttribute f.tree (d.store.trees (File.rootId path))) =
      Tree.shapeAll some (Rebuild.shownAll d.classAttribute (d.store.trees (File.rootId path))) := by
  have wooded := sturdy.standing.planted.toWooded
  have fixed := sturdy.fixed.present
  have pins := fixed.pinned _ r _ live (.file found (fixed.roots path f r found live))
  exact Rebuild.shape_file (sturdy.files f (List.mem_of_find?_eq_some found)) (fun t member => sturdy.firm member)
    (pins.trees wooded (File.rootId_ne_empty path))

end Document

end MarkupEditor
