import MarkupEditor.Proofs.Document.Restoring
import MarkupEditor.Proofs.Document.Rows

namespace MarkupEditor

section

variable {α β : Type} [Preorder β] [DecidableLT β] (key : α → β)

theorem filter_greater {before after : List α} {x : α} (ascending : (before ++ x :: after).Pairwise fun a b => key a < key b) :
    (before ++ x :: after).filter (fun y => decide (key x < key y)) = after := by
  obtain ⟨_, tail, across⟩ := List.pairwise_append.mp ascending
  obtain ⟨above, _⟩ := List.pairwise_cons.mp tail
  have none : before.filter (fun y => decide (key x < key y)) = [] := by
    apply List.filter_eq_nil_iff.mpr
    intro y member greater
    exact lt_asymm (across y member x List.mem_cons_self) (of_decide_eq_true greater)
  rw [List.filter_append, none, List.nil_append, List.filter_cons_of_neg (by simp), List.filter_eq_self]
  exact fun y member => decide_eq_true (above y member)

end

namespace Document

variable {d : Document} {classAttribute : String}

-- All that an entry stands below is expanded, but for what the first entry stands below as well.
def isShownFrom (d : Document) (first id : String) : Bool :=
  (d.store.ancestors id).all fun a => d.isOpen a || (d.store.ancestors first).contains a

theorem isShownFrom_self (d : Document) (first : String) : d.isShownFrom first first = true := by
  apply List.all_eq_true.mpr
  intro a above
  rw [List.contains_iff_mem.mpr above, Bool.or_true]

section

variable (standing : d.Standing) (first : String)

include standing

theorem isOpen_expandAncestors (id : String) :
    (d.expandAncestors first).isOpen id = (d.isOpen id || (d.store.ancestors first).contains id) := by
  rw [Bool.eq_iff_iff, Bool.or_eq_true, isOpen_iff, isOpen_iff, List.contains_iff_mem, (viewed_expandAncestors d first).handle?, expandAncestors]
  constructor
  · intro opened
    obtain ⟨h, held, expanded⟩ := opened
    cases mem_expandAll.mp expanded with
    | inl before => exact .inl ⟨h, held, before⟩
    | inr above =>
      obtain ⟨h', member, same⟩ := above
      obtain ⟨a, listed, held'⟩ := List.mem_filterMap.mp member
      have serial := (handle?_eq_some.mp held').2
      rw [same] at serial
      exact .inr (standing.serves.apart.id_unique (handle?_eq_some.mp held).2 serial ▸ listed)
  · intro either
    cases either with
    | inl opened =>
      obtain ⟨h, held, expanded⟩ := opened
      exact ⟨h, held, mem_expandAll.mpr (.inl expanded)⟩
    | inr listed =>
      obtain ⟨r, found⟩ := Option.isSome_iff_exists.mp ((Store.get?_isSome_iff d.store id).mpr (Store.mem_ancestorsUpTo listed).2)
      obtain ⟨h, held⟩ := handle?_of_live standing.serves found
      exact ⟨h, held, mem_expandAll.mpr (.inr ⟨h, List.mem_filterMap.mpr ⟨id, listed, held⟩, rfl⟩)⟩

theorem isShown_expandAncestors : (d.expandAncestors first).isShown = d.isShownFrom first := by
  funext id
  rw [isShown, isShownFrom, (viewed_expandAncestors d first).store]
  exact congrArg _ (funext fun a => isOpen_expandAncestors standing first a)

theorem nextRow?_expandAncestors {h : Handle} (held : d.handle? h.id = some h) (apart : h.id ∉ d.store.ancestors first) :
    (d.expandAncestors first).nextRow? h = d.nextRow? h := by
  have viewed := viewed_expandAncestors d first
  have handles : (d.expandAncestors first).handle? = d.handle? := funext viewed.handle?
  have closed : (d.store.ancestors first).contains h.id = false := by simpa using apart
  rw [nextRow?_eq held, nextRow?_eq (by rw [handles]; exact held), handles, rowBelow?, rowBelow?, rowAfter?, rowAfter?, viewed.store,
    isOpen_expandAncestors standing, closed, Bool.or_false]

theorem path_above {h : Handle} (held : d.handle? h.id = some h) (above : h.id ∈ d.store.ancestors first) :
    d.store.indexPath h.id < d.store.indexPath first := by
  have wooded : Store.Wooded d.store.get? := standing.planted.toWooded
  obtain ⟨r, found⟩ := standing.record held
  have named := wooded.named found
  exact Store.indexPath_lt wooded named ((Store.below_iff wooded named).mpr ((Store.mem_ancestors wooded).mp above))

theorem nextRow?_onward {h : Handle} (held : d.handle? h.id = some h) (onward : d.store.indexPath first ≤ d.store.indexPath h.id) :
    (d.expandAncestors first).nextRow? h = d.nextRow? h :=
  nextRow?_expandAncestors standing first held fun above => not_lt_of_ge onward (path_above standing first held above)

end

theorem upTo_of_mem {β : Type} [Preorder β] [DecidableLE β] (key : Handle → β) {rows : List Handle} {last : Handle}
    (ascending : rows.Pairwise fun a b => key a < key b) (member : last ∈ rows) :
    upTo (some last) rows = rows.filter fun h => decide (key h ≤ key last) := by
  induction rows with
  | nil => cases member
  | cons h rows ih =>
    obtain ⟨above, ascending⟩ := List.pairwise_cons.mp ascending
    rw [upTo]
    split
    · rename_i same
      obtain rfl := Option.some.inj same
      have none : rows.filter (fun h => decide (key h ≤ key last)) = [] :=
        List.filter_eq_nil_iff.mpr fun x later least => not_lt_of_ge (of_decide_eq_true least) (above x later)
      rw [List.filter_cons_of_pos (by simp), none]
    · rename_i other
      have later : last ∈ rows := (List.mem_cons.mp member).resolve_left fun same => other (congrArg some same)
      have least : decide (key h ≤ key last) = true := decide_eq_true (above last later).le
      rw [List.filter_cons, if_pos least, ih ascending later]

theorem upTo_of_not_mem {rows : List Handle} {last : Handle} (absent : last ∉ rows) : upTo (some last) rows = rows := by
  induction rows with
  | nil => rfl
  | cons h rows ih =>
    rw [List.mem_cons, not_or] at absent
    rw [upTo, if_neg fun same => absent.1 (Option.some.inj same), ih absent.2]

theorem upTo_sublist (last : Option Handle) (rows : List Handle) : (upTo last rows).Sublist rows := by
  induction rows with
  | nil => exact .slnil
  | cons h rows ih =>
    rw [upTo]
    split
    · exact .cons_cons h (List.nil_sublist rows)
    · exact .cons_cons h ih

def rowsAfter (d : Document) (top first : String) : List String :=
  (d.store.descendants top).filter fun id => decide (d.store.indexPath first < d.store.indexPath id) && d.isShownFrom first id

structure Walked (d : Document) (root first : Handle) (rest : List Handle) : Prop where
  ids : rest.map Handle.id = d.rowsAfter root.id first.id
  held : ∀ h ∈ first :: rest, d.handle? h.id = some h
  ascending : (first :: rest).Pairwise fun a b => d.store.indexPath a.id < d.store.indexPath b.id
  walk : ∀ last, d.rowsUpTo last d.store.size first = upTo last (first :: rest)

section

variable (standing : d.Standing) {root : Handle} (heldRoot : d.handle? root.id = some root)

include standing heldRoot

theorem tree_ascending : (root.id :: d.store.descendants root.id).Pairwise fun a b => d.store.indexPath a < d.store.indexPath b := by
  have wooded : Store.Wooded d.store.get? := standing.planted.toWooded
  obtain ⟨r, found⟩ := standing.record heldRoot
  have named := wooded.named found
  exact List.pairwise_cons.mpr ⟨fun x listed => Store.indexPath_lt wooded named (Store.mem_descendants.mp listed),
    Store.descendants_ascending wooded named⟩

theorem rows_ascending {first : Handle} {before rest : List Handle}
    (ids : (before ++ first :: rest).map Handle.id = (root.id :: d.store.descendants root.id).filter (d.isShownFrom first.id)) :
    (before ++ first :: rest).Pairwise fun a b => d.store.indexPath a.id < d.store.indexPath b.id := by
  have ascending := (tree_ascending standing heldRoot).filter (d.isShownFrom first.id)
  rw [← ids] at ascending
  exact List.pairwise_map (f := Handle.id).mp ascending

variable (top : d.store.parent? root.id = none)

include top

theorem mem_tree {id : String} : id ∈ root.id :: d.store.descendants root.id ↔ d.store.root id = root.id := by
  have wooded : Store.Wooded d.store.get? := standing.planted.toWooded
  obtain ⟨r, found⟩ := standing.record heldRoot
  rw [List.mem_cons, Store.mem_descendants_root wooded (wooded.named found) top]
  constructor
  · intro either
    cases either with
    | inl same =>
      rw [same, Store.root, Store.ancestors_eq wooded, top]
      rfl
    | inr below => exact below.2
  · intro under
    exact (em (id = root.id)).imp_right fun other => ⟨other, under⟩

theorem mem_rowsAfter {first id : String} (under : d.store.root id = root.id) (later : d.store.indexPath first < d.store.indexPath id)
    (shown : d.isShownFrom first id = true) : id ∈ d.rowsAfter root.id first := by
  have other : id ≠ root.id := by
    intro same
    rw [same, Store.indexPath_top standing.planted.toWooded top] at later
    exact List.not_lt_nil _ later
  have below := (List.mem_cons.mp ((mem_tree standing heldRoot top).mpr under)).resolve_left other
  exact List.mem_filter.mpr ⟨below, by rw [decide_eq_true later, shown]; rfl⟩

theorem ids_rest {first : Handle} {before rest : List Handle}
    (ids : (before ++ first :: rest).map Handle.id = (root.id :: d.store.descendants root.id).filter (d.isShownFrom first.id)) :
    rest.map Handle.id = d.rowsAfter root.id first.id := by
  have start : ¬ d.store.indexPath first.id < d.store.indexPath root.id := by
    rw [Store.indexPath_top standing.planted.toWooded top]
    exact List.not_lt_nil _
  have split := filter_greater (fun h : Handle => d.store.indexPath h.id) (rows_ascending standing heldRoot ids)
  calc rest.map Handle.id
      = ((before ++ first :: rest).filter fun h => decide (d.store.indexPath first.id < d.store.indexPath h.id)).map Handle.id := by rw [split]
    _ = ((before ++ first :: rest).map Handle.id).filter fun id => decide (d.store.indexPath first.id < d.store.indexPath id) :=
        (List.filter_map (p := fun id => decide (d.store.indexPath first.id < d.store.indexPath id))).symm
    _ = d.rowsAfter root.id first.id := by
        rw [ids, List.filter_filter, List.filter_cons_of_neg (by simp [start]), rowsAfter]

variable {first : Handle} (held : d.handle? first.id = some first) (under : d.store.root first.id = root.id)

include held under

theorem rows_split : ∃ before rest, (d.expandAncestors first.id).handles ((d.expandAncestors first.id).rowsUnder root.id) = before ++ first :: rest ∧
    (before ++ first :: rest).map Handle.id = (root.id :: d.store.descendants root.id).filter (d.isShownFrom first.id) := by
  have viewed := viewed_expandAncestors d first.id
  have heldRoot' : (d.expandAncestors first.id).handle? root.id = some root := (viewed.handle? root.id).trans heldRoot
  have ids := ids_rows (standing.viewed viewed) heldRoot'
  have shown : (d.expandAncestors first.id).rowsUnder root.id = (root.id :: d.store.descendants root.id).filter (d.isShownFrom first.id) := by
    rw [rowsUnder, isShown_expandAncestors standing, viewed.store]
  have listed : first.id ∈ (d.expandAncestors first.id).rowsUnder root.id := by
    rw [shown, List.mem_filter]
    exact ⟨(mem_tree standing heldRoot top).mpr under, isShownFrom_self d first.id⟩
  rw [← ids] at listed
  obtain ⟨h, member, same⟩ := List.mem_map.mp listed
  obtain rfl : h = first := Option.some.inj ((held_of_handles h member).symm.trans ((viewed.handle? h.id).trans (same ▸ held)))
  obtain ⟨before, rest, split⟩ := List.append_of_mem member
  exact ⟨before, rest, split, by rw [← split, ids, shown]⟩

theorem walked : ∃ rest, d.Walked root first rest := by
  have viewed := viewed_expandAncestors d first.id
  have standing' := standing.viewed viewed
  have heldRoot' : (d.expandAncestors first.id).handle? root.id = some root := (viewed.handle? root.id).trans heldRoot
  have top' : (d.expandAncestors first.id).store.parent? root.id = none := viewed.store ▸ top
  have chain := rows_chain standing' heldRoot' top'
  have ended := rows_ended standing' heldRoot' top'
  have enough := rows_enough standing' heldRoot'
  obtain ⟨before, rest, split, ids⟩ := rows_split standing heldRoot top held under
  rw [split] at chain ended enough
  have own : ∀ h ∈ first :: rest, d.handle? h.id = some h := by
    intro h member
    exact (viewed.handle? h.id).symm.trans (held_of_handles h (split ▸ List.mem_append_right _ member))
  have ascending := (List.pairwise_append.mp (rows_ascending standing heldRoot ids)).2.1
  -- Expanding what is above the first node changes no step from there on.
  have same : ∀ h ∈ first :: rest, (d.expandAncestors first.id).nextRow? h = d.nextRow? h := by
    intro h member
    apply nextRow?_onward standing first.id (own h member)
    cases List.mem_cons.mp member with
    | inl equal => rw [equal]
    | inr later => exact ((List.pairwise_cons.mp ascending).1 h later).le
  refine ⟨rest, ids_rest standing heldRoot top ids, own, ascending, fun last => ?_⟩
  apply rowsUpTo_eq (chain.right_of_append.imp_of_mem_imp fun a b member _ next => same a member ▸ next)
  · intro x final
    rw [← same x (List.mem_of_getLast? final)]
    exact ended x (by rw [List.getLast?_append, final]; rfl)
  · rw [viewed.store, List.length_append, List.length_cons] at enough
    omega

theorem Walked.mem_iff {rest : List Handle} (walked : d.Walked root first rest) {last : Handle} (heldLast : d.handle? last.id = some last)
    (underLast : d.store.root last.id = root.id) (later : d.store.indexPath first.id ≤ d.store.indexPath last.id) :
    last ∈ first :: rest ↔ d.isShownFrom first.id last.id = true := by
  have ids := walked.ids
  constructor
  · intro member
    cases List.mem_cons.mp member with
    | inl same => exact same ▸ isShownFrom_self d first.id
    | inr after =>
      have listed : last.id ∈ d.rowsAfter root.id first.id := ids ▸ List.mem_map_of_mem after
      exact (Bool.and_eq_true_iff.mp (List.mem_filter.mp listed).2).2
  · intro shown
    cases later.eq_or_lt with
    | inl equal => exact standing.address_unique heldLast held (underLast.trans under.symm) equal.symm ▸ List.mem_cons_self
    | inr less =>
      have listed := mem_rowsAfter standing heldRoot top underLast less shown
      rw [← ids] at listed
      obtain ⟨h, member, same⟩ := List.mem_map.mp listed
      have here := walked.held h (List.mem_cons_of_mem _ member)
      exact Option.some.inj (here.symm.trans (same ▸ heldLast)) ▸ List.mem_cons_of_mem _ member

end

theorem selected_in_order (hs : List Handle) (d : Document) (apart : hs.Pairwise fun a b => a.id ≠ b.id ∧ ¬ d.store.Below b.id a.id)
    (clear : ∀ x ∈ d.selection.ids, ∀ h ∈ hs, x ≠ h.id ∧ ¬ d.store.Below h.id x) :
    (hs.foldl (fun d h => d.select h.id) d).selection.ids = d.selection.ids ++ hs.map Handle.id := by
  induction hs generalizing d with
  | nil => rw [List.foldl_nil, List.map_nil, List.append_nil]
  | cons h hs ih =>
    obtain ⟨above, apart⟩ := List.pairwise_cons.mp apart
    have kept : (d.selection.eraseAll (d.store.descendants h.id)).ids = d.selection.ids := by
      apply List.filter_eq_self.mpr
      intro x member
      simpa [Store.mem_descendants] using (clear x member h List.mem_cons_self).2
    have selected : (d.select h.id).selection.ids = d.selection.ids ++ [h.id] := by
      have new : h.id ∉ (d.selection.eraseAll (d.store.descendants h.id)).ids := by
        rw [kept]
        exact fun member => (clear h.id member h List.mem_cons_self).1 rfl
      rw [select, IdSet.insert, dif_neg new]
      exact congrArg (· ++ [h.id]) kept
    rw [List.foldl_cons, ih (d.select h.id) apart, selected, List.append_assoc, List.map_cons, List.singleton_append]
    intro x member h' later
    rw [selected] at member
    cases List.mem_append.mp member with
    | inl before => exact clear x before h' (List.mem_cons_of_mem _ later)
    | inr last => exact List.mem_singleton.mp last ▸ above h' later

theorem mem_inOrder_iff {hs : List Handle} {h : Handle} : h ∈ d.inOrder hs ↔ h ∈ hs := by
  refine ⟨mem_inOrder, fun listed => ?_⟩
  simp only [inOrder, List.mem_map, List.mem_mergeSort]
  exact ⟨_, ⟨h, listed, rfl⟩, rfl⟩

theorem inOrder_ordered (hs : List Handle) : (d.inOrder hs).Pairwise fun a b => d.store.indexPath a.id ≤ d.store.indexPath b.id := by
  let before (a b : List Nat × Handle) : Bool := !(b.1 < a.1)
  have before_iff : ∀ a b, before a b = true ↔ a.1 ≤ b.1 := fun a b => by simp [before]
  have transitive : ∀ a b c, before a b = true → before b c = true → before a c = true := by
    intro a b c first second
    rw [before_iff] at first second ⊢
    exact first.trans second
  have total : ∀ a b, (before a b || before b a) = true := by
    intro a b
    rw [Bool.or_eq_true, before_iff, before_iff]
    exact le_total a.1 b.1
  apply List.pairwise_map.mpr
  apply (List.pairwise_mergeSort transitive total (hs.map fun h => (d.store.indexPath h.id, h))).imp_of_mem
  intro a b first second ordered
  obtain ⟨x, _, rfl⟩ := List.mem_map.mp (List.mem_mergeSort.mp first)
  obtain ⟨y, _, rfl⟩ := List.mem_map.mp (List.mem_mergeSort.mp second)
  exact (before_iff _ _).mp ordered

theorem inOrder_ends {hs : List Handle} (some : hs ≠ []) : ∃ first ∈ hs, ∃ last ∈ hs, (d.inOrder hs).head? = .some first ∧
    (d.inOrder hs).getLast? = .some last ∧
    ∀ h ∈ hs, d.store.indexPath first.id ≤ d.store.indexPath h.id ∧ d.store.indexPath h.id ≤ d.store.indexPath last.id := by
  have ordered := d.inOrder_ordered hs
  obtain ⟨h, member⟩ := List.exists_mem_of_ne_nil hs some
  have listed : d.inOrder hs ≠ [] := List.ne_nil_of_mem (mem_inOrder_iff.mpr member)
  obtain ⟨first, rest, front⟩ := List.exists_cons_of_ne_nil listed
  obtain ⟨before, last, back⟩ := (List.eq_nil_or_concat' (d.inOrder hs)).resolve_left listed
  refine ⟨first, mem_inOrder_iff.mp (front ▸ List.mem_cons_self), last, mem_inOrder_iff.mp (by rw [back]; simp), by rw [front]; rfl,
    by rw [back, List.getLast?_concat], fun h member => ⟨?_, ?_⟩⟩
  · have here : h ∈ d.inOrder hs := mem_inOrder_iff.mpr member
    rw [front] at ordered here
    cases List.mem_cons.mp here with
    | inl same => rw [same]
    | inr later => exact (List.pairwise_cons.mp ordered).1 h later
  · have here : h ∈ d.inOrder hs := mem_inOrder_iff.mpr member
    rw [back] at ordered here
    cases List.mem_append.mp here with
    | inl earlier => exact (List.pairwise_append.mp ordered).2.2 h earlier last List.mem_cons_self
    | inr same => rw [List.mem_singleton.mp same]

-- The selection runs from the first to the last node where the walk meets the last, and to the end of the tree where it does not.
theorem selectBetween_ids (standing : d.Standing) {hs : List Handle} {top : String} (some : hs ≠ []) (held : ∀ h ∈ hs, d.handle? h.id = .some h)
    (together : ∀ h ∈ hs, d.store.root h.id = top) : ∃ first ∈ hs, ∃ last ∈ hs,
      (∀ h ∈ hs, d.store.indexPath first.id ≤ d.store.indexPath h.id ∧ d.store.indexPath h.id ≤ d.store.indexPath last.id) ∧
      (d.selectBetween hs).selection.ids = first.id :: (d.rowsAfter top first.id).filter fun id =>
        decide (d.store.indexPath id ≤ d.store.indexPath last.id) || !d.isShownFrom first.id last.id := by
  have wooded : Store.Wooded d.store.get? := standing.planted.toWooded
  obtain ⟨first, inFirst, last, inLast, head, ending, between⟩ := d.inOrder_ends some
  obtain ⟨root, _, same, heldRoot, _⟩ := standing.rooted (held first inFirst)
  obtain rfl := (together first inFirst).symm.trans same.symm
  have parentless : d.store.parent? root.id = none := same ▸ Store.parent?_root wooded first.id
  obtain ⟨rest, walked⟩ := walked standing heldRoot parentless (held first inFirst) (together first inFirst)
  have met := walked.mem_iff standing heldRoot parentless (held first inFirst) (together first inFirst) (held last inLast) (together last inLast)
    (between last inLast).1
  have apart : (first :: rest).Pairwise fun a b => a.id ≠ b.id ∧ ¬ d.store.Below b.id a.id := by
    apply walked.ascending.imp_of_mem
    intro a b _ member less
    obtain ⟨q, there⟩ := standing.record (walked.held b member)
    exact ⟨fun same => lt_irrefl _ (same ▸ less), fun below => lt_asymm less (Store.indexPath_lt wooded (wooded.named there) below)⟩
  have selected : (d.selectBetween hs).selection.ids = (upTo (.some last) (first :: rest)).map Handle.id := by
    have inOrder := selected_in_order (upTo (.some last) (first :: rest)) d.clearSelection (apart.sublist (upTo_sublist _ _)) nofun
    rw [selectBetween, head, ending]
    dsimp only
    rw [walked.walk]
    exact inOrder
  refine ⟨first, inFirst, last, inLast, between, ?_⟩
  rw [selected]
  -- The walk meets the last node exactly if it shows from the first one on.
  cases shown : d.isShownFrom first.id last.id with
  | true =>
    have least : decide (d.store.indexPath first.id ≤ d.store.indexPath last.id) = true := decide_eq_true (between last inLast).1
    rw [upTo_of_mem (fun h => d.store.indexPath h.id) walked.ascending (met.mpr shown), List.filter_cons, if_pos least,
      List.map_cons, ← walked.ids, List.filter_map]
    simp [Function.comp_def]
  | false =>
    rw [upTo_of_not_mem (by rw [met, shown]; exact Bool.false_ne_true), List.map_cons, walked.ids]
    simp

-- The selection starts with the first of the nodes in document order. Of the nodes that show after it, it has those up to the
-- last of the nodes if that shows as well. If the last node is hidden in what is collapsed, it has all of them.
theorem select_between_walks_on (used : d.Used classAttribute) {hs : List Handle} {top : String} (some : hs ≠ [])
    (held : ∀ h ∈ hs, d.handle? h.id = .some h) (together : ∀ h ∈ hs, d.store.root h.id = top) : ∃ first ∈ hs, ∃ last ∈ hs,
      (∀ h ∈ hs, d.store.indexPath first.id ≤ d.store.indexPath h.id ∧ d.store.indexPath h.id ≤ d.store.indexPath last.id) ∧
      (d.selectBetween hs).selection.ids = first.id :: (d.store.descendants top).filter fun id =>
        decide (d.store.indexPath first.id < d.store.indexPath id) && d.isShownFrom first.id id &&
          (decide (d.store.indexPath id ≤ d.store.indexPath last.id) || !d.isShownFrom first.id last.id) := by
  obtain ⟨first, inFirst, last, inLast, between, selected⟩ := selectBetween_ids used.standing some held together
  refine ⟨first, inFirst, last, inLast, between, ?_⟩
  rw [selected, rowsAfter, List.filter_filter]
  congr 1
  apply List.filter_congr
  intro id _
  exact Bool.and_comm _ _

theorem selected_past_last (standing : d.Standing) {first last : Handle} {id : String} (held : ∀ h ∈ [first, last], d.handle? h.id = some h)
    (together : d.store.root first.id = d.store.root last.id) (under : d.store.root id = d.store.root first.id)
    (ordered : d.store.indexPath first.id < d.store.indexPath last.id) (hidden : d.isShownFrom first.id last.id = false)
    (past : d.store.indexPath last.id < d.store.indexPath id) (shown : d.isShownFrom first.id id = true) :
    id ∈ (d.selectBetween [first, last]).selection.ids := by
  have roots : ∀ h ∈ [first, last], d.store.root h.id = d.store.root first.id :=
    List.forall_mem_cons.mpr ⟨rfl, List.forall_mem_singleton.mpr together.symm⟩
  obtain ⟨a, inA, b, inB, between, selected⟩ := selectBetween_ids standing (List.cons_ne_nil _ _) held roots
  obtain rfl : first = a := by
    cases List.mem_cons.mp inA with
    | inl same => exact same.symm
    | inr same => exact absurd (between first List.mem_cons_self).1 (not_le_of_gt (List.mem_singleton.mp same ▸ ordered))
  obtain rfl : last = b := by
    cases List.mem_cons.mp inB with
    | inl same => exact absurd (between last (by simp)).2 (not_le_of_gt (same ▸ ordered))
    | inr same => exact (List.mem_singleton.mp same).symm
  obtain ⟨root, _, same, heldRoot, _⟩ := standing.rooted (held first List.mem_cons_self)
  have top : d.store.parent? root.id = none := same ▸ Store.parent?_root standing.planted.toWooded first.id
  have listed := mem_rowsAfter standing heldRoot top (under.trans same.symm) (ordered.trans past) shown
  rw [selected, hidden, ← same]
  exact List.mem_cons_of_mem _ (List.mem_filter.mpr ⟨listed, Bool.or_true _⟩)

theorem select_between_walks_on_nested :
    ∃ tree, parse "x = <div><p><b /></p></div>;" = .ok tree ∧
      let d := ((new "className" 1000 100).perform [(0, .load "f" tree)]).expandAncestors (File.nodeId "f" 0 4)
      let hs : List Handle := [⟨File.nodeId "f" 0 4, 5⟩, ⟨File.nodeId "f" 0 3, 4⟩]
      d.Used "className" ∧ (∀ h ∈ hs, d.handle? h.id = some h) ∧ (∀ h ∈ hs, d.store.root h.id = File.rootId "f") ∧
        ∃ first ∈ hs, ∃ last ∈ hs, (d.selectBetween hs).selection.ids = first.id :: (d.store.descendants (File.rootId "f")).filter fun id =>
          decide (d.store.indexPath first.id < d.store.indexPath id) && d.isShownFrom first.id id &&
            (decide (d.store.indexPath id ≤ d.store.indexPath last.id) || !d.isShownFrom first.id last.id) := by
  have ran : ((parse "x = <div><p><b /></p></div>;").toOption.map fun tree =>
      let d := ((new "className" 1000 100).perform [(0, .load "f" tree)]).expandAncestors (File.nodeId "f" 0 4)
      let hs : List Handle := [⟨File.nodeId "f" 0 4, 5⟩, ⟨File.nodeId "f" 0 3, 4⟩]
      (decide (∀ h ∈ hs, d.handle? h.id = some h), decide (∀ h ∈ hs, d.store.root h.id = File.rootId "f"))) = some (true, true) := by
    decide +kernel
  simp only [Option.map_eq_some_iff, Prod.mk.injEq, decide_eq_true_iff] at ran
  obtain ⟨tree, parsed, held, together⟩ := ran
  have used := (Used.of_acts "className" 1000 100 [(0, .load "f" tree)]).viewed
    (viewed_expandAncestors _ (File.nodeId "f" 0 4))
  obtain ⟨first, inFirst, last, inLast, _, selected⟩ := select_between_walks_on used (List.cons_ne_nil _ _) held together
  exact ⟨tree, eq_ok_of_toOption parsed, used, held, together, first, inFirst, last, inLast, selected⟩

-- The last node stands in an element that is collapsed, and what comes after it is selected.
theorem select_between_passes_last :
    ∃ tree, parse "x = <div><p><b /></p><i /></div>;" = .ok tree ∧
      let d := (new "className" 1000 100).perform [(0, .load "f" tree)]
      let first : Handle := ⟨File.nodeId "f" 0 3, 4⟩
      let last : Handle := ⟨File.nodeId "f" 0 4, 5⟩
      d.Used "className" ∧ d.handle? first.id = some first ∧ d.handle? last.id = some last ∧
        d.store.root first.id = File.rootId "f" ∧ d.store.root last.id = File.rootId "f" ∧
        d.store.indexPath first.id ≤ d.store.indexPath last.id ∧
        (d.selectBetween [first, last]).selection.ids ≠ first.id :: (d.store.descendants (File.rootId "f")).filter fun id =>
          decide (d.store.indexPath first.id < d.store.indexPath id) && decide (d.store.indexPath id ≤ d.store.indexPath last.id) &&
            d.isShownFrom first.id id := by
  have ran : ((parse "x = <div><p><b /></p><i /></div>;").toOption.map fun tree =>
      let d := (new "className" 1000 100).perform [(0, .load "f" tree)]
      let hs : List Handle := [⟨File.nodeId "f" 0 3, 4⟩, ⟨File.nodeId "f" 0 4, 5⟩]
      (decide (∀ h ∈ hs, d.handle? h.id = some h), [3, 4, 5].map fun k => d.store.root (File.nodeId "f" 0 k),
        [4, 5].map fun k => d.isShownFrom (File.nodeId "f" 0 3) (File.nodeId "f" 0 k), d.store.children (File.nodeId "f" 0 3))) =
      some (true, [File.rootId "f", File.rootId "f", File.rootId "f"], [false, true], [File.nodeId "f" 0 4]) := by
    decide +kernel
  have written : ((parse "x = <div><p><b /></p><i /></div>;").toOption.map fun tree =>
      let entries := ((new "className" 1000 100).perform [(0, .load "f" tree)]).store.entries.filter fun e =>
        Store.parentId e.2 == File.nodeId "f" 0 2
      (entries.map Prod.fst, decide ((entries.map fun e => (Store.orderKey e.2, e.1)).Pairwise fun a b => Store.precedes a b = true))) =
      some ([File.nodeId "f" 0 3, File.nodeId "f" 0 5], true) := by
    decide +kernel
  simp only [Option.map_eq_some_iff, Prod.mk.injEq, List.map_cons, List.map_nil, List.cons.injEq, and_true, decide_eq_true_iff] at ran written
  obtain ⟨tree, parsed, held, roots, shown, inside⟩ := ran
  obtain ⟨_, parsed', siblings, ordered⟩ := written
  obtain rfl := Option.some.inj (parsed.symm.trans parsed')
  have used := Used.of_acts "className" 1000 100 [(0, .load "f" tree)]
  refine ⟨tree, eq_ok_of_toOption parsed, ?_⟩
  generalize (new "className" 1000 100).perform [(0, .load "f" tree)] = d at *
  have named : ∀ {k}, File.nodeId "f" 0 k ≠ Store.rootsId := File.nodeId_ne_empty "f" 0 _
  have children := (Store.children_of_ordered ordered).trans siblings
  have outer : d.store.indexPath (File.nodeId "f" 0 3) = d.store.indexPath (File.nodeId "f" 0 2) ++ [0] :=
    Store.indexPath_childAt used.wooded named (by rw [Store.childAt?, children]; rfl)
  have after : d.store.indexPath (File.nodeId "f" 0 5) = d.store.indexPath (File.nodeId "f" 0 2) ++ [1] :=
    Store.indexPath_childAt used.wooded named (by rw [Store.childAt?, children]; rfl)
  have inner : d.store.indexPath (File.nodeId "f" 0 4) = d.store.indexPath (File.nodeId "f" 0 3) ++ [0] :=
    Store.indexPath_childAt used.wooded named (by rw [Store.childAt?, inside]; rfl)
  have down : d.store.indexPath (File.nodeId "f" 0 3) < d.store.indexPath (File.nodeId "f" 0 4) := by
    rw [inner, outer, List.append_assoc]
    exact List.append_left_lt (List.cons_lt_cons_iff.mpr (.inr ⟨rfl, List.nil_lt_cons _ _⟩))
  have past : d.store.indexPath (File.nodeId "f" 0 4) < d.store.indexPath (File.nodeId "f" 0 5) := by
    rw [inner, outer, after, List.append_assoc]
    exact List.append_left_lt (List.cons_lt_cons_iff.mpr (.inl Nat.zero_lt_one))
  have selected : File.nodeId "f" 0 5 ∈ (d.selectBetween [⟨File.nodeId "f" 0 3, 4⟩, ⟨File.nodeId "f" 0 4, 5⟩]).selection.ids :=
    selected_past_last used.standing held (roots.1.trans roots.2.1.symm) (roots.2.2.trans roots.1.symm) down shown.1 past shown.2
  refine ⟨used, (List.forall_mem_cons.mp held).1, held _ (by simp), roots.1, roots.2.1, le_of_lt down, fun same => ?_⟩
  rw [same] at selected
  cases List.mem_cons.mp selected with
  | inl equal =>
    have loop := down.trans past
    rw [equal] at loop
    exact lt_irrefl _ loop
  | inr listed =>
    simp only [List.mem_filter, Bool.and_eq_true, decide_eq_true_iff] at listed
    exact not_le_of_gt past listed.2.1.2

end Document

end MarkupEditor
