import MarkupEditor.Proofs.Document.Loading
import MarkupEditor.Proofs.OrderKeys

namespace MarkupEditor

theorem File.nodeId_injective {path : String} {generation count count' : Nat}
    (same : nodeId path generation count = nodeId path generation count') : count = count' := by
  have lists := congrArg String.toList same
  simp only [nodeId, String.toList_append, List.append_cancel_left_eq, Text.decimal, String.toList_ofList] at lists
  rw [← Text.ofDigits_digits count, lists, Text.ofDigits_digits]

theorem File.nodeId_ne_empty (path : String) (generation count : Nat) : nodeId path generation count ≠ "" := by
  intro same
  have lists := congrArg String.toList same
  simp [nodeId] at lists

theorem File.rootId_ne_empty (path : String) : rootId path ≠ "" := by
  intro same
  have lists := congrArg String.toList same
  simp [rootId, Record.fileMark] at lists

namespace Draft

-- Every entry names the one above it, and siblings have ascending keys.
def Arranged (t : Tree Record) : Prop :=
  ∀ u, t.Within u → (∀ c ∈ u.children, Store.parentId c.value = u.id) ∧
    u.children.Pairwise fun a b => Store.orderKey a.value < Store.orderKey b.value

theorem value_lay (s : Store Record) (parent : String) (order : Option String) (t : Tree Draft) :
    (lay s parent order t).value = t.value.record.placed parent order := by
  cases t
  rfl

theorem orderKeys_layAll (s : Store Record) (parent : String) {keys : List String} {ts : List (Tree Draft)} (enough : keys.length = ts.length) :
    (layAll s parent keys ts).map (fun u => Store.orderKey u.value) = keys := by
  induction ts generalizing keys with
  | nil => exact (List.length_eq_zero_iff.mp enough).symm
  | cons t ts ih =>
    cases keys with
    | nil => cases enough
    | cons key keys =>
      rw [layAll, List.map_cons, List.tail_cons, ih (Nat.succ.inj enough), value_lay]
      rfl

def Childless (s : Store Record) : Prop := ∀ id, id ≠ "" → s.keyedChildren id = []

variable {s : Store Record}

theorem arranged_children (childless : Childless s) {parent : String} (named : parent ≠ "") (ts : List (Tree Draft)) :
    (∀ c ∈ layAll s parent (s.appendKeys (some parent) ts.length) ts, Store.parentId c.value = parent) ∧
      (layAll s parent (s.appendKeys (some parent) ts.length) ts).Pairwise fun a b => Store.orderKey a.value < Store.orderKey b.value := by
  have keys : s.appendKeys (some parent) ts.length = OrderKey.batch none none ts.length := by
    rw [Store.appendKeys, Option.getD_some, childless parent named]
    rfl
  obtain ⟨ascending, length⟩ := OrderKey.batch_none ts.length
  rw [keys]
  constructor
  · intro c member
    obtain ⟨t, _, order, rfl⟩ := mem_layAll s member
    rw [value_lay]
    rfl
  · rw [← orderKeys_layAll s parent length] at ascending
    exact List.pairwise_map.mp ascending

theorem arranged_lay (childless : Childless s) (t : Tree Draft) (named : ∀ e ∈ t.pairs, e.1 ≠ "") (parent : String) (order : Option String) :
    Arranged (lay s parent order t) := by
  induction t using Tree.children_induction generalizing parent order with
  | step t ih =>
    obtain ⟨id, d, children⟩ := t
    intro u within
    cases within with
    | self => exact arranged_children childless (named (id, d) List.mem_cons_self) children
    | inside child within =>
      obtain ⟨t', listed, order', rfl⟩ := mem_layAll s child
      refine ih t' listed (fun e member => named e (List.mem_cons_of_mem _ ?_)) id order' u within
      rw [Tree.pairsAll_eq]
      exact List.mem_flatMap.mpr ⟨t', listed, member⟩

end Draft

namespace Document

theorem filled_mem {d : Document} {entries : List (String × Record)} (nodup : (entries.map Prod.fst).Nodup) {e : String × Record}
    (member : e ∈ entries) : (d.filled entries).contents () e.1 = some e.2 := by
  induction entries generalizing d with
  | nil => cases member
  | cons first entries ih =>
    obtain ⟨absent, nodup⟩ := List.nodup_cons.mp nodup
    rcases List.mem_cons.mp member with rfl | member
    · have kept := ((d.write e.1 (some e.2)).filled_contents entries e.1).1 absent
      rw [write_contents] at kept
      exact kept.trans (by simp [Contents.put])
    · exact ih nodup member

def fileTree (d : Document) (path : String) (tree : SourceTree) (generation : Nat) : Tree Record :=
  .mk (File.rootId path) (d.rootRecord path tree)
    (Draft.layAll (d.rooted path tree).store (File.rootId path)
      ((d.rooted path tree).store.appendKeys (some (File.rootId path)) ((d.rooted path tree).drafts path tree generation).length)
      ((d.rooted path tree).drafts path tree generation))

section

variable {d : Document} (blank : d.store = Store.empty) (path : String) (tree : SourceTree) (generation : Nat)

include blank

theorem rooted_contents (id : String) :
    (d.rooted path tree).contents () id = if id = File.rootId path then some (d.rootRecord path tree) else none := by
  have nothing : d.contents () id = none := by
    rw [contents, blank]
    rfl
  have written : (d.rooted path tree).contents = d.contents.put () (File.rootId path) (some (d.rootRecord path tree)) := write_contents ..
  rw [written, Contents.put, nothing]
  simp

theorem childless_rooted : Draft.Childless (d.rooted path tree).store := by
  intro id named
  apply Store.keyedChildren_eq List.Pairwise.nil
  intro e
  constructor
  · intro member
    cases member
  · rintro ⟨r, found, parent, _⟩
    have held : (d.rooted path tree).contents () e.2 = some r := found
    rw [rooted_contents blank] at held
    split at held
    · obtain rfl := Option.some.inj held
      exact absurd parent.symm named
    · cases held

omit blank

theorem ids_drafts : ∃ numbers : List Nat, numbers.Pairwise (· < ·) ∧
    (Tree.pairsAll (d.drafts path tree generation)).map Prod.fst = numbers.map (File.nodeId path generation) := by
  obtain ⟨⟨_, numbers, ids, ascending, _⟩, _⟩ := Draft.statements_drafts (File.nodeId path generation) d.classAttribute {} tree.statements
  exact ⟨numbers, ascending, ids⟩

theorem ids_fileTree : ∃ numbers : List Nat, numbers.Pairwise (· < ·) ∧
    (d.fileTree path tree generation).pairs.map Prod.fst = File.rootId path :: numbers.map (File.nodeId path generation) := by
  obtain ⟨numbers, ascending, ids⟩ := @ids_drafts (d.rooted path tree) path tree generation
  refine ⟨numbers, ascending, ?_⟩
  rw [fileTree, Tree.pairs, List.map_cons, Draft.ids_layAll, ids]

theorem nodup_fileTree : ((d.fileTree path tree generation).pairs.map Prod.fst).Nodup := by
  obtain ⟨numbers, ascending, ids⟩ := @ids_fileTree d path tree generation
  rw [ids, List.nodup_cons]
  constructor
  · intro member
    obtain ⟨k, _, same⟩ := List.mem_map.mp member
    exact File.nodeId_ne_rootId _ _ _ _ same
  · have nodup : numbers.Nodup := ascending.imp fun less => Nat.ne_of_lt less
    exact nodup.map fun _ _ same => File.nodeId_injective same

theorem build_contents (id : String) (r : Record) :
    (d.build path tree generation).contents () id = some r ↔
      (id, r) ∈ (d.fileTree path tree generation).pairs ∨
        id ∉ (d.fileTree path tree generation).pairs.map Prod.fst ∧ d.contents () id = some r := by
  have nodup := @nodup_fileTree d path tree generation
  have written : (d.rooted path tree).contents = d.contents.put () (File.rootId path) (some (d.rootRecord path tree)) := write_contents ..
  have filled := (d.rooted path tree).filled_contents
    (Draft.entriesUnder (d.rooted path tree).store (File.rootId path) ((d.rooted path tree).drafts path tree generation)) id
  show (d.placed path tree generation).contents () id = some r ↔ _
  rw [fileTree, Tree.pairs, List.map_cons, List.nodup_cons] at nodup
  rw [written] at filled
  rw [placed, fileTree, Tree.pairs, List.map_cons, List.mem_cons, List.mem_cons]
  rw [Draft.entriesUnder, Draft.entriesAll_eq] at filled ⊢
  constructor
  · intro held
    by_cases listed : id ∈ (Tree.pairsAll (Draft.layAll (d.rooted path tree).store (File.rootId path)
        ((d.rooted path tree).store.appendKeys (some (File.rootId path)) ((d.rooted path tree).drafts path tree generation).length)
        ((d.rooted path tree).drafts path tree generation))).map Prod.fst
    · obtain ⟨e, member, rfl⟩ := List.mem_map.mp listed
      have same := Option.some.inj ((filled_mem nodup.2 member).symm.trans held)
      exact .inl (.inr (same ▸ member))
    · rw [filled.1 listed, Contents.put] at held
      by_cases here : id = File.rootId path
      · rw [if_pos ⟨rfl, here⟩] at held
        exact .inl (.inl (by rw [here, Option.some.inj held]))
      · rw [if_neg fun same => here same.2] at held
        exact .inr ⟨not_or.mpr ⟨here, listed⟩, held⟩
  · intro either
    rcases either with (same | member) | ⟨absent, held⟩
    · obtain ⟨rfl, rfl⟩ := Prod.mk.inj same
      rw [filled.1 nodup.1, Contents.put, if_pos ⟨rfl, rfl⟩]
    · exact filled_mem nodup.2 member
    · obtain ⟨other, unlisted⟩ := not_or.mp absent
      rw [filled.1 unlisted, Contents.put, if_neg fun same => other same.2]
      exact held

theorem rootsId_not_mem_fileTree : "" ∉ (d.fileTree path tree generation).pairs.map Prod.fst := by
  obtain ⟨numbers, _, ids⟩ := @ids_fileTree d path tree generation
  rw [ids]
  intro member
  rcases List.mem_cons.mp member with same | member
  · exact File.rootId_ne_empty path same.symm
  · obtain ⟨k, _, same⟩ := List.mem_map.mp member
    exact File.nodeId_ne_empty path generation k same

include blank

theorem build_get? (id : String) (r : Record) :
    (d.build path tree generation).store.get? id = some r ↔ (id, r) ∈ (d.fileTree path tree generation).pairs := by
  have nothing : ¬ d.contents () id = some r := by
    intro held
    rw [contents, blank] at held
    cases held
  refine (build_contents path tree generation id r).trans (or_iff_left ?_)
  exact fun old => nothing old.2

theorem layout_build : Store.Layout (d.build path tree generation).store (d.fileTree path tree generation) := by
  obtain ⟨numbers', _, ids'⟩ := @ids_drafts (d.rooted path tree) path tree generation
  have childless := childless_rooted blank path tree
  have named : ∀ t ∈ (d.rooted path tree).drafts path tree generation, ∀ e ∈ t.pairs, e.1 ≠ "" := by
    intro t listed e member
    have inside : e.1 ∈ numbers'.map (File.nodeId path generation) := by
      rw [← ids', Tree.pairsAll_eq]
      exact List.mem_map_of_mem (List.mem_flatMap.mpr ⟨t, listed, member⟩)
    obtain ⟨k, _, same⟩ := List.mem_map.mp inside
    exact same ▸ File.nodeId_ne_empty path generation k
  have arranged : Draft.Arranged (d.fileTree path tree generation) := by
    intro u within
    cases within with
    | self => exact Draft.arranged_children childless (File.rootId_ne_empty path) _
    | inside child within =>
      obtain ⟨t, listed, order, rfl⟩ := Draft.mem_layAll _ child
      exact Draft.arranged_lay childless t (named t listed) _ order u within
  refine ⟨fun e => ?_, nodup_fileTree path tree generation, ?_, fun u within => (arranged u within).1, fun u within => (arranged u within).2⟩
  · rw [← build_get? blank path tree generation e.1 e.2, Store.get?_eq_some_iff]
  · exact rootsId_not_mem_fileTree path tree generation

theorem trees_build : (d.build path tree generation).store.trees (File.rootId path) = (d.fileTree path tree generation).children :=
  (layout_build blank path tree generation).trees

end

end Document

end MarkupEditor
