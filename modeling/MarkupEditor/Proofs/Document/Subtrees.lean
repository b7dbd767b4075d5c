import MarkupEditor.Proofs.Document.Usage

namespace MarkupEditor

namespace IdSet

variable {s s' : IdSet}

theorem eq_of_ids (same : s.ids = s'.ids) : s = s' := by
  cases s
  cases s'
  cases same
  rfl

theorem eraseAll_eraseAll (s : IdSet) (first later : List String) : (s.eraseAll first).eraseAll later = s.eraseAll (first ++ later) := by
  apply eq_of_ids
  simp only [eraseAll, List.filter_filter]
  exact List.filter_congr fun x _ => by simp [Bool.and_comm]

theorem erase_eq (s : IdSet) (id : String) : s.erase id = s.eraseAll [id] := by
  apply eq_of_ids
  exact List.filter_congr fun x _ => by simp

theorem insert_of_mem {id : String} (held : id ∈ s.ids) : s.insert id = s := dif_pos held

theorem insert_ids (s : IdSet) (id : String) : (s.insert id).ids = s.ids ++ if id ∈ s.ids then [] else [id] := by
  by_cases held : id ∈ s.ids
  · rw [insert_of_mem held, if_pos held, List.append_nil]
  · rw [insert, dif_neg held, if_neg held]

theorem eraseAll_of_absent {ids : List String} (absent : ∀ x ∈ s.ids, x ∉ ids) : s.eraseAll ids = s :=
  eq_of_ids (List.filter_eq_self.mpr fun x member => by simpa using absent x member)

end IdSet

namespace Document

variable {d : Document} {classAttribute : String}

theorem foldl_deselect (d : Document) (ids : List String) :
    ids.foldl deselect d = { d with selection := d.selection.eraseAll (ids.flatMap fun id => id :: d.store.descendants id) } := by
  induction ids generalizing d with
  | nil => rw [List.foldl_nil, List.flatMap_nil, IdSet.eraseAll_of_absent fun _ _ => List.not_mem_nil]
  | cons id ids ih =>
    rw [List.foldl_cons, ih, List.flatMap_cons, ← IdSet.eraseAll_eraseAll]
    rfl

theorem deselect_deselect (d : Document) (id : String) : (d.deselect id).deselect id = d.deselect id := by
  have absent : ∀ x ∈ (d.deselect id).selection.ids, x ∉ id :: d.store.descendants id := fun x member => (IdSet.mem_eraseAll.mp member).2
  exact congrArg (fun selection => { d with selection }) (IdSet.eraseAll_of_absent absent)

theorem selected_below {id x : String} (inside : x = id ∨ d.store.isAncestor id x = true) : (d.select id).isAncestorSelected x = true := by
  refine List.any_eq_true.mpr ⟨id, ?_, isSelected_iff.mpr (mem_select.mpr (.inl rfl))⟩
  cases inside with
  | inl same => exact same ▸ List.mem_cons_self
  | inr below => exact List.mem_cons_of_mem _ (List.contains_iff_mem.mp below)

section

variable (wooded : Store.Wooded d.store.get?)

include wooded

theorem children_deselected (id : String) :
    (d.store.children id).foldl deselect d = { d with selection := d.selection.eraseAll (d.store.descendants id) } := by
  rw [foldl_deselect, ← Store.descendants_eq wooded]

theorem deselect_eq (id : String) : d.deselect id = (d.store.children id).foldl deselect { d with selection := d.selection.erase id } := by
  have later := children_deselected (d := { d with selection := d.selection.erase id }) wooded id
  rw [later, IdSet.erase_eq, IdSet.eraseAll_eraseAll]
  rfl

theorem select_eq (id : String) :
    d.select id = { (d.store.children id).foldl deselect d with selection := ((d.store.children id).foldl deselect d).selection.insert id } := by
  rw [children_deselected wooded]
  rfl

variable {id : String} (named : id ≠ Store.rootsId)

include named

theorem isAncestor_iff {x : String} : d.store.isAncestor id x = true ↔ x ∈ d.store.descendants id := by
  rw [Store.isAncestor, List.contains_iff_mem, Store.mem_ancestors wooded, Store.mem_descendants, Store.below_iff wooded named]

theorem not_mem_descendants : id ∉ d.store.descendants id := fun member =>
  Store.not_below_self wooded named (Store.mem_descendants.mp member)

theorem select_ids :
    (d.select id).selection.ids = d.selection.ids.filter (fun x => !d.store.isAncestor id x) ++ if id ∈ d.selection.ids then [] else [id] := by
  have kept : (d.selection.eraseAll (d.store.descendants id)).ids = d.selection.ids.filter fun x => !d.store.isAncestor id x :=
    List.filter_congr fun x _ => by
      rw [Bool.eq_iff_iff, Bool.not_eq_true', Bool.not_eq_true', ← Bool.not_eq_true, ← Bool.not_eq_true, isAncestor_iff wooded named,
        List.contains_iff_mem]
  have own : id ∈ d.selection.ids.filter (fun x => !d.store.isAncestor id x) ↔ id ∈ d.selection.ids := by
    rw [← kept, IdSet.mem_eraseAll, and_iff_left (not_mem_descendants wooded named)]
  rw [select, IdSet.insert_ids, kept]
  simp only [own]

theorem deselect_ids : (d.deselect id).selection.ids = d.selection.ids.filter fun x => x ≠ id && !d.store.isAncestor id x := by
  refine List.filter_congr fun x _ => ?_
  rw [Bool.eq_iff_iff]
  simp [isAncestor_iff wooded named, ← Bool.not_eq_true]

theorem select_select : (d.select id).select id = d.select id := by
  have absent : ∀ x ∈ (d.select id).selection.ids, x ∉ d.store.descendants id := by
    intro x member
    cases mem_select.mp member with
    | inl same =>
      rw [same]
      exact not_mem_descendants wooded named
    | inr kept => exact mt Store.mem_descendants.mp kept.2
  have settled : ((d.select id).selection.eraseAll (d.store.descendants id)).insert id = (d.select id).selection := by
    rw [IdSet.eraseAll_of_absent absent, IdSet.insert_of_mem (mem_select.mpr (.inl rfl))]
  exact congrArg (fun selection => { d with selection }) settled

theorem deselected_below (clear : ∀ a ∈ d.store.ancestors id, d.isSelected a = false) {x : String}
    (inside : x = id ∨ d.store.isAncestor id x = true) : (d.deselect id).isAncestorSelected x = false := by
  have above : ∀ {a x}, Relation.ReflTransGen (Store.Names d.store.get?) a x ↔ a ∈ x :: d.store.ancestors x := by
    intro a x
    rw [Relation.reflTransGen_iff_eq_or_transGen, List.mem_cons, Store.mem_ancestors wooded, eq_comm]
  refine List.any_eq_false.mpr fun a member selected => ?_
  obtain ⟨was, kept⟩ := IdSet.mem_eraseAll.mp (isSelected_iff.mp selected)
  have top : id ∈ x :: d.store.ancestors x := by
    cases inside with
    | inl same => exact same ▸ List.mem_cons_self
    | inr below => exact List.mem_cons_of_mem _ (List.contains_iff_mem.mp below)
  cases Store.above_total (above.mpr member) (above.mpr top) with
  | inl higher =>
    cases List.mem_cons.mp (above.mp higher) with
    | inl same => exact kept (same ▸ List.mem_cons_self)
    | inr listed => exact Bool.false_ne_true ((clear a listed).symm.trans (isSelected_iff.mpr was))
  | inr lower =>
    cases List.mem_cons.mp (above.mp lower) with
    | inl same => exact kept (same ▸ List.mem_cons_self)
    | inr listed => exact kept (List.mem_cons_of_mem _ ((isAncestor_iff wooded named).mp (List.contains_iff_mem.mpr listed)))

end

-- Selecting and deselecting a node walk down from child to child. Selecting takes everything below the node out of the selection
-- and adds the node at the end unless it is there; deselecting takes the node out too. Nothing else changes its place, and doing
-- either once more changes nothing. Everything below a selected node counts as selected, and nothing below a deselected one does
-- unless something above it is.
theorem selection_acts_on_subtree (used : d.Used classAttribute) {id : String} {r : Record} (live : d.store.get? id = some r) :
    (d.select id = { (d.store.children id).foldl deselect d with selection := ((d.store.children id).foldl deselect d).selection.insert id } ∧
      d.deselect id = (d.store.children id).foldl deselect { d with selection := d.selection.erase id }) ∧
    d.store.isAncestor id id = false ∧
    ((d.select id).selection.ids = d.selection.ids.filter (fun x => !d.store.isAncestor id x) ++ (if id ∈ d.selection.ids then [] else [id]) ∧
      (d.deselect id).selection.ids = d.selection.ids.filter fun x => x ≠ id && !d.store.isAncestor id x) ∧
    ((d.select id).select id = d.select id ∧ (d.deselect id).deselect id = d.deselect id) ∧
    (∀ x, x = id ∨ d.store.isAncestor id x = true → (d.select id).isAncestorSelected x = true) ∧
    ((∀ a ∈ d.store.ancestors id, d.isSelected a = false) →
      ∀ x, x = id ∨ d.store.isAncestor id x = true → (d.deselect id).isAncestorSelected x = false) := by
  have wooded := used.wooded
  have named := wooded.named live
  have apart : d.store.isAncestor id id = false := Bool.not_eq_true _ ▸ mt (isAncestor_iff wooded named).mp (not_mem_descendants wooded named)
  exact ⟨⟨select_eq wooded id, deselect_eq wooded id⟩, apart, ⟨select_ids wooded named, deselect_ids wooded named⟩,
    ⟨select_select wooded named, deselect_deselect d id⟩, fun x => selected_below, fun clear x => deselected_below wooded named clear⟩

def nested (d : Document) : Document :=
  { d with selection := IdSet.insertAll {} [File.nodeId "f" 0 5, File.nodeId "f" 0 4, File.nodeId "f" 0 3] }

theorem viewed_nested (d : Document) : Viewed d d.nested := ⟨rfl, rfl, rfl, rfl, rfl⟩

theorem selection_acts_on_subtree_nested :
    ∃ tree, parse "x = <div><p><b /></p><i /></div>;" = .ok tree ∧
      let d := ((new "className" 1000 100).perform [(0, .load "f" tree)]).nested
      let id := File.nodeId "f" 0 3
      d.Used "className" ∧ (d.store.get? id).isSome = true ∧
        d.selection.ids = [File.nodeId "f" 0 5, File.nodeId "f" 0 4, id] ∧
        (d.select id).selection.ids = [File.nodeId "f" 0 5, id] ∧ (d.select id).select id = d.select id ∧
        (d.select id).isAncestorSelected (File.nodeId "f" 0 4) = true ∧
        (∀ a ∈ d.store.ancestors id, d.isSelected a = false) ∧ (d.deselect id).selection.ids = [File.nodeId "f" 0 5] ∧
        (d.deselect id).isAncestorSelected (File.nodeId "f" 0 4) = false := by
  have ran : ((parse "x = <div><p><b /></p><i /></div>;").toOption.map fun tree =>
      let d := ((new "className" 1000 100).perform [(0, .load "f" tree)]).nested
      let id := File.nodeId "f" 0 3
      ((d.store.get? id).isSome, d.selection.ids, decide (∀ a ∈ d.store.ancestors id, d.isSelected a = false),
        d.store.isAncestor id (File.nodeId "f" 0 4), d.selection.ids.map (d.store.isAncestor id))) =
      some (true, [File.nodeId "f" 0 5, File.nodeId "f" 0 4, File.nodeId "f" 0 3], true, true, [false, true, false]) := by
    decide +kernel
  simp only [Option.map_eq_some_iff, Prod.mk.injEq, decide_eq_true_iff] at ran
  obtain ⟨tree, parsed, live, marked, clear, below, rows⟩ := ran
  have used := (Used.of_acts "className" 1000 100 [(0, .load "f" tree)]).viewed (viewed_nested _)
  refine ⟨tree, eq_ok_of_toOption parsed, ?_⟩
  generalize ((new "className" 1000 100).perform [(0, .load "f" tree)]).nested = d at *
  obtain ⟨r, found⟩ := Option.isSome_iff_exists.mp live
  obtain ⟨_, _, ⟨selected, deselected⟩, ⟨again, _⟩, shown, hidden⟩ := selection_acts_on_subtree used found
  rw [marked] at selected deselected rows
  obtain ⟨beside, inside, own⟩ : d.store.isAncestor (File.nodeId "f" 0 3) (File.nodeId "f" 0 5) = false ∧
      d.store.isAncestor (File.nodeId "f" 0 3) (File.nodeId "f" 0 4) = true ∧
      d.store.isAncestor (File.nodeId "f" 0 3) (File.nodeId "f" 0 3) = false := by
    simpa using rows
  have apart : File.nodeId "f" 0 5 ≠ File.nodeId "f" 0 3 := by decide +kernel
  refine ⟨used, live, marked, ?_, again, shown _ (.inr below), clear, ?_, hidden clear _ (.inr below)⟩
  · simpa [beside, inside, own] using selected
  · simpa [beside, inside, own, apart] using deselected

end Document

end MarkupEditor
