import MarkupEditor.Proofs.Document.Renumbering
import MarkupEditor.Proofs.Markup.Rewriting

namespace MarkupEditor

namespace Tree

variable {α : Type}

mutual

def alter (amend : String → α → α) : Tree α → Tree α
  | mk id value children => mk id (amend id value) (alterAll amend children)

def alterAll (amend : String → α → α) : List (Tree α) → List (Tree α)
  | [] => []
  | t :: ts => alter amend t :: alterAll amend ts

end

theorem alterAll_eq (amend : String → α → α) (ts : List (Tree α)) : alterAll amend ts = ts.map (alter amend) := by
  induction ts with
  | nil => rfl
  | cons t ts ih => rw [alterAll, ih, List.map_cons]

end Tree

namespace Store

variable {α : Type} [Placed α] {s s' : Store α} {amend : String → α → α}

theorem keyedChildren_alter (places : ∀ id a, Placed.parent (amend id a) = Placed.parent a ∧ Placed.order (amend id a) = Placed.order a)
    (altered : ∀ id, s'.get? id = (s.get? id).map (amend id)) (parent : String) : s'.keyedChildren parent = s.keyedChildren parent := by
  refine eq_of_sorted (sorted_keyedChildren ..) (sorted_keyedChildren ..) (nodup_keyedChildren ..) (nodup_keyedChildren ..) fun e => ?_
  rw [mem_keyedChildren, mem_keyedChildren, altered]
  have parents : ∀ a, parentId (amend e.2 a) = parentId a := fun a => congrArg (·.getD rootsId) (places e.2 a).1
  have keys : ∀ a, orderKey (amend e.2 a) = orderKey a := fun a => congrArg (·.getD OrderKey.default) (places e.2 a).2
  constructor
  · rintro ⟨r', found, under, key⟩
    obtain ⟨r, held, rfl⟩ := Option.map_eq_some_iff.mp found
    exact ⟨r, held, (parents r).symm.trans under, (keys r).symm.trans key⟩
  · rintro ⟨r, held, under, key⟩
    exact ⟨amend e.2 r, by rw [held]; rfl, (parents r).trans under, (keys r).trans key⟩

omit [Placed α] in
theorem size_alter (altered : ∀ id, s'.get? id = (s.get? id).map (amend id)) : s'.size = s.size := by
  have ids : ∀ id, id ∈ s'.ids ↔ id ∈ s.ids := by
    intro id
    rw [← get?_isSome_iff, ← get?_isSome_iff, altered, Option.isSome_map]
  have same := ((List.perm_ext_iff_of_nodup s'.nodup s.nodup).mpr ids).length_eq
  rwa [List.length_map, List.length_map] at same

theorem trees_alter (amend : String → α → α)
    (places : ∀ id a, Placed.parent (amend id a) = Placed.parent a ∧ Placed.order (amend id a) = Placed.order a)
    (altered : ∀ id, s'.get? id = (s.get? id).map (amend id)) (id : String) : s'.trees id = (s.trees id).map (Tree.alter amend) := by
  have upTo : ∀ levels id, s'.treesUpTo levels id = (s.treesUpTo levels id).map (Tree.alter amend) := by
    intro levels
    induction levels with
    | zero => exact fun _ => rfl
    | succ levels ih =>
      intro id
      rw [treesUpTo, treesUpTo, children, children, keyedChildren_alter places altered, List.map_filterMap]
      refine List.filterMap_congr fun child _ => ?_
      rw [altered, ih]
      cases s.get? child with
      | none => rfl
      | some r => simp only [Option.map_some, Tree.alter, Tree.alterAll_eq]
  rw [trees, trees, size_alter altered]
  exact upTo s.size id

end Store

namespace Rebuild

variable {classAttribute : String} {f : Node → Node} {amend : String → Record → Record}

theorem rewrite_form {r : Record} {kids : List (Node × Node)} {n : Node} (hidden : ∀ m ∈ Walk.attributes n.attributes, f m = m)
    (code : n.HoldsCode → kids.map Prod.fst = n.inner) :
    Rewrite.node f (form classAttribute r kids n) = f (form classAttribute r (kids.map fun q => (q.1, Rewrite.node f q.2)) n) := by
  have listed : Rewrite.nodes f (kids.map Prod.snd) = (kids.map fun q => (q.1, Rewrite.node f q.2)).map Prod.snd := by
    rw [Rewrite.nodes_eq, List.map_map, List.map_map]
    rfl
  have spliced : ∀ ps : List Part, kids.map Prod.fst = ps.filterMap Part.node? →
      Rewrite.parts f (ps.map (splice kids)) = ps.map (splice (kids.map fun q => (q.1, Rewrite.node f q.2))) := by
    intro ps sources
    rw [Rewrite.parts_eq, splice_eq, splice_eq, List.map_map]
    refine List.map_congr_left fun p member => ?_
    cases p with
    | code => rfl
    | node m =>
      have inside : m ∈ kids.map Prod.fst := sources ▸ List.mem_filterMap.mpr ⟨_, member, rfl⟩
      obtain ⟨q, held, rfl⟩ := List.mem_map.mp inside
      have itself : q.1.sameSource q.1 = true := by simp [Node.sameSource]
      refine congrArg Part.node ?_
      rw [present, present, List.find?_map]
      cases found : kids.find? (·.1.sameSource q.1) with
      | none => exact absurd itself (List.find?_eq_none.mp found q held)
      | some k =>
        have again : kids.find? ((fun k : Node × Node => k.1.sameSource q.1) ∘ fun q => (q.1, Rewrite.node f q.2)) = some k := found
        rw [again]
        rfl
  rw [Rewrite.node_eq]
  refine congrArg f ?_
  cases n with
  | element loc tag attrs _ selfClosing =>
    have tag : Rewrite.attributes f (withClass classAttribute r.className attrs) = withClass classAttribute r.className attrs := by
      exact Rewrite.attributes_same fun m held => hidden m (attributes_form r kids held)
    rw [form, Rewrite.within, tag, listed]
    rfl
  | fragment loc _ =>
    rw [form, Rewrite.within, listed]
    rfl
  | text => rfl
  | wrapper loc spread ps =>
    rw [form, Rewrite.within, spliced ps (code (.inl rfl))]
    rfl
  | other loc ps =>
    rw [form, Rewrite.within, spliced ps (code (.inr rfl))]
    rfl

-- Another record of an entry does to each of its forms, given what is below it, what a function does.
structure Matches (classAttribute : String) (amend : String → Record → Record) (f : Node → Node) (id : String) (r : Record) (n : Node) : Prop where
  hidden : ∀ m ∈ Walk.attributes n.attributes, f m = m
  own : ∀ kids, f (form classAttribute r kids n) = form classAttribute (amend id r) kids n

section

variable (sources : ∀ id r, (amend id r).node? = r.node?)

include sources

theorem entries_alter {ts : List (Tree Record)}
    (each : ∀ t ∈ ts, ∀ n, t.value.node? = some n → topForm classAttribute (t.alter amend) n = Rewrite.node f (topForm classAttribute t n)) :
    entries classAttribute (ts.map (Tree.alter amend)) = (entries classAttribute ts).map fun q => (q.1, Rewrite.node f q.2) := by
  induction ts with
  | nil => rfl
  | cons t ts ih =>
    obtain ⟨first, later⟩ := List.forall_mem_cons.mp each
    have kept : (t.alter amend).value.node? = t.value.node? := by
      cases t
      exact sources ..
    rw [List.map_cons, entries_cons, entries_cons, ih later, List.map_append, kept]
    cases node : t.value.node? with
    | none => rfl
    | some n =>
      rw [Option.map_some, first n node]
      rfl

theorem topForm_alter (t : Tree Record) (firm : Firm t)
    (matched : ∀ u, t.Within u → ∀ n, u.value.node? = some n → Matches classAttribute amend f u.id u.value n) {n : Node}
    (node : t.value.node? = some n) : topForm classAttribute (t.alter amend) n = Rewrite.node f (topForm classAttribute t n) := by
  induction t using Tree.children_induction generalizing n with
  | step t ih =>
    have below := entries_alter sources fun c child m held =>
      ih c child (firm.child child) (fun u within => matched u (.inside child within)) held
    have here := matched t (.self t) n node
    have code : n.HoldsCode → (entries classAttribute t.children).map Prod.fst = n.inner :=
      fun holds => sources_of_nodes classAttribute ((firm t (.self t) n node).code holds)
    have altered : topForm classAttribute (t.alter amend) n =
        form classAttribute (amend t.id t.value) (entries classAttribute (t.children.map (Tree.alter amend))) n := by
      obtain ⟨id, r, children⟩ := t
      rw [topForm, Tree.alter, Tree.alterAll_eq]
      rfl
    rw [altered, below, topForm, rewrite_form here.hidden code, here.own]

theorem file_alter (faithful : Rewrite.Faithful f) {source : SourceTree} (regular : source.Regular) {ts : List (Tree Record)}
    (firm : ∀ t ∈ ts, Firm t) (from_ : ts.map (·.value.node?) = source.marked.map some)
    (matched : ∀ t ∈ ts, ∀ u, t.Within u → ∀ n, u.value.node? = some n → Matches classAttribute amend f u.id u.value n) :
    file classAttribute source (ts.map (Tree.alter amend)) = (file classAttribute source ts).rewrite f := by
  have pairs := entries_alter sources fun t member n node => topForm_alter sources t (firm t member) (matched t member) node
  have sourced := sources_of_nodes classAttribute from_
  rw [file, file, SourceTree.rewrite, pairs, Rewrite.parts_eq, splice_eq, splice_eq, List.map_map]
  refine congrArg SourceTree.mk (List.map_congr_left fun p member => ?_)
  cases p with
  | code => rfl
  | node n =>
    have listed : n ∈ source.statements := List.mem_filterMap.mpr ⟨_, member, rfl⟩
    refine congrArg Part.node ?_
    rw [present, present, List.find?_map]
    have again : (entries classAttribute ts).find? ((fun k : Node × Node => k.1.sameSource n) ∘ fun q => (q.1, Rewrite.node f q.2)) =
        (entries classAttribute ts).find? (·.1.sameSource n) := rfl
    rw [again]
    cases found : (entries classAttribute ts).find? (·.1.sameSource n) with
    | some q => rfl
    | none =>
      have unmarked : n.inner = [] := by
        by_contra filled
        have marked : n ∈ (entries classAttribute ts).map Prod.fst := by
          rw [sourced]
          exact List.mem_filter.mpr ⟨listed, by simpa using filled⟩
        obtain ⟨q, held, rfl⟩ := List.mem_map.mp marked
        exact List.find?_eq_none.mp found q held (by simp [Node.sameSource])
      have alone : n.Throughout fun m => f m = m := by
        refine .of_inner (faithful.statement n (regular.statements n listed).1) fun m held => ?_
        rw [unmarked] at held
        cases held
      exact (Rewrite.node_same alone).symm

end

end Rebuild

-- Of all entries one was made from the source of a node, and no attribute value holds that source.
structure Alone (get : String → Option Record) (id : String) (n : Node) : Prop where
  own : ∀ key r m, get key = some r → r.node? = some m → n.sameSource m = true → key = id
  hidden : ∀ key r e, get key = some r → r.node? = some e → ∀ m ∈ Walk.attributes e.attributes, n.sameSource m = false

namespace Document

variable {d : Document}

theorem get?_update (d : Document) (id : String) (g : Record → Record) (key : String) :
    (d.update id g).store.get? key = (d.store.get? key).map fun r => if key = id then g r else r := by
  show (d.update id g).contents () key = (d.contents () key).map fun r => if key = id then g r else r
  cases held : d.store.get? id with
  | none =>
    have same : d.update id g = d := by rw [update, held]
    have nothing : d.contents () id = none := held
    rw [same]
    by_cases here : key = id
    · rw [here, nothing, Option.map_none]
    · simp only [here, if_false, Option.map_id']
  | some r =>
    have written : (d.update id g).contents = d.contents.put () id (some (g r)) := by rw [update, held, write_contents]
    have live : d.contents () id = some r := held
    rw [written, Contents.put]
    by_cases here : key = id
    · rw [if_pos ⟨rfl, here⟩, here, live, Option.map_some, if_pos rfl]
    · simp only [here, and_false, if_false, Option.map_id']

theorem modifiedTree_update (sturdy : d.Sturdy) {id : String} {r : Record} {n : Node} (live : d.store.get? id = some r)
    (node : r.node? = some n) (alone : Alone d.store.get? id n) (g : Record → Record)
    (kept : ∀ r, (g r).parent = r.parent ∧ (g r).order = r.order ∧ (g r).origin = r.origin) {change : Node → Node} (faithful : Rewrite.Faithful change)
    (own : ∀ kids, change (Rebuild.form d.classAttribute r kids n) = Rebuild.form d.classAttribute (g r) kids n) {path : String}
    {root : Record} (rooted : d.store.get? (File.rootId path) = some root) {u : SourceTree} (present : d.modifiedTree path = .ok u) :
    (d.update id g).modifiedTree path = .ok (u.rewrite (n.only change)) := by
  let amend : String → Record → Record := fun key r => if key = id then g r else r
  have places : ∀ key r, Placed.parent (amend key r) = Placed.parent r ∧ Placed.order (amend key r) = Placed.order r := by
    intro key r
    by_cases here : key = id
    · simp only [amend, if_pos here]
      exact ⟨(kept r).1, (kept r).2.1⟩
    · simp only [amend, if_neg here, and_self]
  have sources : ∀ key r, (amend key r).node? = r.node? := by
    intro key r
    by_cases here : key = id
    · simp only [amend, if_pos here]
      exact Record.node?_eq (kept r).2.2
    · simp only [amend, if_neg here]
  have wooded := sturdy.standing.planted.toWooded
  have fixed := sturdy.fixed.present
  have edited : (d.update id g).files = d.files ∧ (d.update id g).classAttribute = d.classAttribute := by
    unfold update
    split
    · exact ⟨(Edited.write .nothing _ _).files, (Edited.write .nothing _ _).classAttribute⟩
    · exact ⟨rfl, rfl⟩
  unfold modifiedTree at present ⊢
  rw [file?, edited.1, edited.2]
  rw [file?] at present
  cases found : File.find? d.files path with
  | none =>
    rw [found] at present
    cases present
  | some f =>
    rw [found] at present
    obtain rfl := Except.ok.inj present
    have pins := fixed.pinned _ root _ rooted (.file found (fixed.roots path f root found rooted))
    have regular := sturdy.files f (List.mem_of_find?_eq_some found)
    refine congrArg Except.ok ?_
    rw [Store.trees_alter amend places (d.get?_update id g)]
    refine Rebuild.file_alter sources (faithful.only n) regular (fun t member => sturdy.firm member)
      (pins.trees wooded (File.rootId_ne_empty path)) fun t member v within m source => ?_
    obtain ⟨found', _⟩ := Store.within_trees wooded member within
    constructor
    · intro k held
      rw [Node.only, alone.hidden v.id v.value m found' source k held, if_neg Bool.false_ne_true]
    · intro kids
      have sees : n.sameSource (Rebuild.form d.classAttribute v.value kids m) = n.sameSource m := by
        rw [Node.sameSource, Node.sameSource, Rebuild.form_loc, Rebuild.form_kind]
      rw [Node.only, sees]
      -- Only the entry that was made from `n` has another record, and only its source is the same as `n`.
      by_cases here : v.id = id
      · rw [here, live] at found'
        obtain rfl := Option.some.inj found'
        obtain rfl := Option.some.inj (node.symm.trans source)
        have itself : n.sameSource n = true := by simp [Node.sameSource]
        simp only [amend, if_pos here, if_pos itself]
        exact own kids
      · have apart : ¬ n.sameSource m = true := fun same => here (alone.own v.id v.value m found' source same)
        simp only [amend, if_neg here, if_neg apart]

end Document

end MarkupEditor
