import MarkupEditor.Document.InPlace
import MarkupEditor.Proofs.Document.Selecting
import MarkupEditor.Proofs.Store.ChildIndex
import MarkupEditor.Proofs.Store.Paths

namespace MarkupEditor

namespace IdSet

theorem mem_eraseAll {s : IdSet} {ids : List String} {x : String} : x ∈ (s.eraseAll ids).ids ↔ x ∈ s.ids ∧ x ∉ ids := by
  simp [eraseAll]

end IdSet

namespace Document

variable {d d' d'' : Document}

theorem isSelected_iff {id : String} : d.isSelected id = true ↔ id ∈ d.selection.ids := List.contains_iff_mem

theorem isOpen_iff {id : String} : d.isOpen id = true ↔ ∃ h, d.handle? id = some h ∧ h.serial ∈ d.expanded := by
  rw [isOpen, Option.any_eq_true]
  simp only [isExpanded, List.contains_iff_mem]

theorem mem_select {id x : String} : x ∈ (d.select id).selection.ids ↔ x = id ∨ x ∈ d.selection.ids ∧ ¬ d.store.Below id x := by
  rw [select, IdSet.mem_insert, IdSet.mem_eraseAll, Store.mem_descendants, or_comm]

theorem mem_setExpanded {h : Handle} {serial : Nat} :
    serial ∈ (d.setExpanded h true).expanded ↔ serial ∈ d.expanded ∨ h.serial = serial := by
  rw [setExpanded, if_pos rfl]
  split
  · rename_i already
    rw [isExpanded, List.contains_iff_mem] at already
    exact (or_iff_left_of_imp fun same => same ▸ already).symm
  · rw [List.mem_append, List.mem_singleton, eq_comm]

theorem mem_expandAll {hs : List Handle} {serial : Nat} :
    serial ∈ (d.expandAll hs).expanded ↔ serial ∈ d.expanded ∨ ∃ h ∈ hs, h.serial = serial := by
  unfold expandAll
  induction hs generalizing d with
  | nil => simp
  | cons h hs ih => rw [List.foldl_cons, ih, mem_setExpanded, or_assoc, List.exists_mem_cons_iff]

theorem setExpanded_selection (d : Document) (h : Handle) (value : Bool) : (d.setExpanded h value).selection = d.selection := by
  unfold setExpanded
  split
  · split <;> rfl
  · rfl

theorem expandAll_selection (d : Document) (hs : List Handle) : (d.expandAll hs).selection = d.selection := by
  unfold expandAll
  induction hs generalizing d with
  | nil => rfl
  | cons h hs ih => exact (ih (d.setExpanded h true)).trans (d.setExpanded_selection h true)

theorem viewed_expandAll (d : Document) (hs : List Handle) : Viewed d (d.expandAll hs) := .foldl (fun d h => viewed_setExpanded d h true) hs d

theorem selected_foldl (hs : List Handle) (d : Document) {x : String} (selected : x ∈ (hs.foldl (fun d h => d.select h.id) d).selection.ids) :
    x ∈ d.selection.ids ∨ ∃ h ∈ hs, h.id = x := by
  induction hs generalizing d with
  | nil => exact .inl selected
  | cons h hs ih =>
    cases ih (d.select h.id) selected with
    | inl before =>
      cases mem_select.mp before with
      | inl same => exact .inr ⟨h, List.mem_cons_self, same.symm⟩
      | inr kept => exact .inl kept.1
    | inr later =>
      obtain ⟨h', member, same⟩ := later
      exact .inr ⟨h', List.mem_cons_of_mem _ member, same⟩

theorem expanded_foldl (hs : List Handle) (d : Document) : (hs.foldl (fun d h => d.select h.id) d).expanded = d.expanded := by
  induction hs generalizing d with
  | nil => rfl
  | cons h hs ih => exact ih (d.select h.id)

theorem replay_instances (d : Document) (id : String) (value : Option Record) :
    (d.replay id value).instances = d.instances ∨ (d.replay id value).instances = d.instances.note ⟨id, d.store.get? id, value⟩ := by
  have change := d.store.write_eq id value
  unfold replay
  split
  · exact .inl rfl
  · rename_i store c same
    rw [same] at change
    split at change
    · cases change
    · obtain rfl := Option.some.inj (Prod.mk.inj change).2
      exact .inr rfl

theorem handle?_write {id key : String} {value : Option Record} {h : Handle} (held : d.handle? key = some h)
    (keeps : key = id → value.isSome = true) : (d.write id value).handle? key = some h := by
  have replayed : (d.replay id value).handle? key = some h := by
    obtain ⟨same, live⟩ := handle?_eq_some.mp held
    rw [handle?_eq_some]
    cases d.replay_instances id value with
    | inl kept => exact ⟨same, kept ▸ live⟩
    | inr noted =>
      rw [noted, Instances.note_get?]
      split
      · rename_i here
        obtain ⟨r, rfl⟩ := Option.isSome_iff_exists.mp (keeps here)
        exact ⟨same, by rw [live]; rfl⟩
      · exact ⟨same, live⟩
  unfold write
  split
  · exact held
  · exact replayed

theorem handle?_removeEntry {id key : String} {h : Handle} (held : d.handle? key = some h) (other : key ≠ id) :
    (d.removeEntry id).handle? key = some h := by
  unfold removeEntry
  exact handle?_write (d := { d with selection := d.selection.erase id, hovered := _ }) held fun same => absurd same other

theorem removeEntry_selection (d : Document) (id : String) : (d.removeEntry id).selection = d.selection.erase id := by
  unfold removeEntry
  rw [write_selection]

-- Nothing is selected or expanded, and the instances that are made have later numbers.
structure Onward (d d' : Document) : Prop where
  selected : d'.selection.ids ⊆ d.selection.ids
  expanded : d'.expanded = d.expanded
  later : d.instances.Later d'.instances

namespace Onward

theorem refl (d : Document) : d.Onward d := ⟨List.Subset.refl _, rfl, .refl _⟩

theorem trans (first : d.Onward d') (second : d'.Onward d'') : d.Onward d'' :=
  ⟨List.Subset.trans second.selected first.selected, second.expanded.trans first.expanded, first.later.trans second.later⟩

theorem foldl {β : Type} {step : Document → β → Document} (each : ∀ (d : Document) b, d.Onward (step d b)) (bs : List β) (d : Document) :
    d.Onward (bs.foldl step d) := by
  induction bs generalizing d with
  | nil => exact refl d
  | cons b bs ih => exact (each d b).trans (ih (step d b))

theorem of_replay (d : Document) (id : String) (value : Option Record) : d.Onward (d.replay id value) := by
  refine ⟨d.replay_selection id value ▸ List.Subset.refl _, ?_, ?_⟩
  · unfold replay
    split <;> rfl
  · cases d.replay_instances id value with
    | inl kept => exact kept ▸ .refl _
    | inr noted => exact noted ▸ .note _ _

theorem of_write (d : Document) (id : String) (value : Option Record) : d.Onward (d.write id value) := by
  have replayed := of_replay d id value
  unfold write
  split
  · exact refl d
  · exact ⟨replayed.selected, replayed.expanded, replayed.later⟩

theorem of_update (d : Document) (id : String) (f : Record → Record) : d.Onward (d.update id f) := by
  unfold update
  split
  · exact of_write d id _
  · exact refl d

theorem of_removeEntry (d : Document) (id : String) : d.Onward (d.removeEntry id) := by
  have written := of_write { d with selection := d.selection.erase id, hovered := if d.hovered = some id then none else d.hovered } id none
  exact ⟨fun x selected => (IdSet.mem_erase.mp (written.selected selected)).1, written.expanded, written.later⟩

theorem of_removeBelow (d : Document) (id : String) : d.Onward (d.removeBelow id) := foldl of_removeEntry _ d

theorem of_replayAll (d : Document) (writes : List (Write Unit Record)) : d.Onward (d.replayAll writes) :=
  foldl (fun d (w : Write Unit Record) => of_replay d w.id w.value) writes d

theorem of_edit (d : Document) (e : Edit) : d.Onward (e.apply d) := by
  rcases d.edit_cases e with ⟨updates, same⟩ | ⟨id, same⟩ | rfl | rfl
  · rw [same]
    exact foldl (fun d u => of_update d u.1 u.2) updates d
  · rw [same]
    exact (of_removeBelow d id).trans (of_removeEntry _ id)
  · show d.Onward d.undo.2
    unfold undo
    split
    · rename_i writes history _
      have replayed := of_replayAll { d with history } writes
      exact ⟨replayed.selected, replayed.expanded, replayed.later⟩
    · exact ⟨List.Subset.refl _, rfl, .refl _⟩
  · show d.Onward d.redo.2
    unfold redo
    split
    · rename_i writes history _
      have replayed := of_replayAll { d with history } writes
      exact ⟨replayed.selected, replayed.expanded, replayed.later⟩
    · exact ⟨List.Subset.refl _, rfl, .refl _⟩

theorem of_emptied (d : Document) (path : String) : d.Onward (d.emptied path) := by
  have removed := of_removeBelow { d with history := d.history.pause } (File.rootId path)
  exact ⟨removed.selected, removed.expanded, removed.later⟩

theorem of_build (d : Document) (path : String) (tree : SourceTree) (generation : Nat) : d.Onward (d.build path tree generation) := by
  have rooted := of_write { d with history := d.history.pause } (File.rootId path) (some (d.rootRecord path tree))
  have placed : Onward _ (d.placed path tree generation) :=
    rooted.trans (foldl (fun d (e : String × Record) => of_write d e.1 (some e.2)) _ _)
  exact ⟨placed.selected, placed.expanded, placed.later⟩

end Onward

theorem viewed_selectPlaces (d : Document) (root : Handle) (places : List (List Nat)) :
    Viewed d (places.foldl (·.selectPlace root) d) ∧ (places.foldl (·.selectPlace root) d).expanded = d.expanded := by
  induction places generalizing d with
  | nil => exact ⟨⟨rfl, rfl, rfl, rfl, rfl⟩, rfl⟩
  | cons place places ih =>
    have first : Viewed d (d.selectPlace root place) ∧ (d.selectPlace root place).expanded = d.expanded := by
      unfold selectPlace
      split <;> exact ⟨⟨rfl, rfl, rfl, rfl, rfl⟩, rfl⟩
    obtain ⟨viewed, expanded⟩ := ih (d.selectPlace root place)
    exact ⟨first.1.trans viewed, expanded.trans first.2⟩

section

variable {root : Handle} {place : List Nat} {h : Handle}

theorem descendantAt?_found (found : d.descendantAt? root place = some h) :
    d.store.descendantAt? root.id place = some h.id ∧ (place ≠ [] → d.handle? h.id = some h) := by
  unfold descendantAt? at found
  split at found
  · rename_i empty
    rw [List.isEmpty_iff] at empty
    obtain rfl := Option.some.inj found
    exact ⟨empty ▸ rfl, fun other => absurd empty other⟩
  · obtain ⟨id, reached, held⟩ := Option.bind_eq_some_iff.mp found
    obtain ⟨rfl, _⟩ := handle?_eq_some.mp held
    exact ⟨reached, fun _ => held⟩

variable (wooded : Store.Wooded d.store.get?) {r : Record} (live : d.store.get? root.id = some r) (orphan : r.parent = none)

include wooded live orphan

theorem place_of_found (found : d.descendantAt? root place = some h) :
    Relation.ReflTransGen (Store.Names d.store.get?) root.id h.id ∧ d.store.indexPath h.id = place :=
  (Store.descendantAt?_iff wooded live orphan).mp (descendantAt?_found found).1

theorem below_of_found (found : d.descendantAt? root place = some h) (nonempty : place ≠ []) : d.store.Below root.id h.id := by
  obtain ⟨above, path⟩ := place_of_found wooded live orphan found
  cases Relation.reflTransGen_iff_eq_or_transGen.mp above with
  | inl same => exact absurd (path.symm.trans (same ▸ Store.indexPath_orphan wooded live orphan)) nonempty
  | inr below => exact (Store.below_iff wooded (wooded.named live)).mpr below

theorem found_of_below (serves : d.instances.Serves d.store) {id : String} (below : d.store.Below root.id id) :
    ∃ h, d.descendantAt? root (d.store.indexPath id) = some h ∧ d.handle? id = some h := by
  have named := wooded.named live
  have above := ((Store.below_iff wooded named).mp below).to_reflTransGen
  obtain ⟨q, there⟩ := below.live
  obtain ⟨h, held⟩ := handle?_of_live serves there
  refine ⟨h, ?_, held⟩
  rw [descendantAt?, if_neg (by simpa using Store.indexPath_ne_nil wooded below named),
    (Store.descendantAt?_iff wooded live orphan).mpr ⟨above, rfl⟩]
  exact held

theorem begins_of_below {place' : List Nat} {h' : Handle} (found : d.descendantAt? root place = some h) (found' : d.descendantAt? root place' = some h')
    (below : d.store.Below h'.id h.id) : place' <+: place := by
  obtain ⟨_, path⟩ := place_of_found wooded live orphan found
  obtain ⟨above, path'⟩ := place_of_found wooded live orphan found'
  have named := Store.named_of_above wooded (wooded.named live) above
  rw [← path, ← path']
  exact Store.begins_of_above wooded named ((Store.below_iff wooded named).mp below).to_reflTransGen

theorem mem_selectPlaces {places : List (List Nat)} (ordered : places.Pairwise fun p q => ¬ q <+: p) {x : String} :
    x ∈ (places.foldl (·.selectPlace root) d).selection.ids ↔
      (∃ place ∈ places, ∃ h, d.descendantAt? root place = some h ∧ h.id = x) ∨
        x ∈ d.selection.ids ∧ ∀ place ∈ places, ∀ h, d.descendantAt? root place = some h → ¬ d.store.Below h.id x := by
  induction places generalizing d with
  | nil => simp
  | cons place places ih =>
    obtain ⟨first, ordered⟩ := List.pairwise_cons.mp ordered
    rw [List.foldl_cons, selectPlace, List.exists_mem_cons_iff, List.forall_mem_cons]
    cases found : d.descendantAt? root place with
    | none => simpa using ih wooded live ordered
    | some h =>
      have later : x ∈ (places.foldl (·.selectPlace root) (d.select h.id)).selection.ids ↔
          (∃ place ∈ places, ∃ h, d.descendantAt? root place = some h ∧ h.id = x) ∨
            x ∈ (d.select h.id).selection.ids ∧ ∀ place ∈ places, ∀ h, d.descendantAt? root place = some h → ¬ d.store.Below h.id x :=
        ih (d := d.select h.id) wooded live ordered
      rw [later, mem_select]
      constructor
      · intro selected
        cases selected with
        | inl chosen => exact .inl (.inr chosen)
        | inr kept =>
          obtain ⟨either, clear⟩ := kept
          cases either with
          | inl same => exact .inl (.inl ⟨h, rfl, same.symm⟩)
          | inr before => exact .inr ⟨before.1, fun h' same => Option.some.inj same ▸ before.2, clear⟩
      · intro selected
        cases selected with
        | inl chosen =>
          cases chosen with
          | inl own =>
            obtain ⟨h', same, rfl⟩ := own
            obtain rfl := Option.some.inj same
            exact .inr ⟨.inl rfl, fun place' member h' found' below =>
              first place' member (begins_of_below wooded live orphan found found' below)⟩
          | inr further => exact .inl further
        | inr kept => exact .inr ⟨.inr ⟨kept.1, kept.2.1 h rfl⟩, kept.2.2⟩

end

theorem reload_stages {path : String} {tree : SourceTree} {root : Handle} (reloaded : d.reload path tree = .ok (root, d')) :
    ∃ f, d.file? path = some f ∧ d.handle? (File.rootId path) = some root ∧
      let shown := (d.placesOf root.id d.isSelected).foldl (·.selectPlace root) ((d.emptied path).build path tree (f.generation + 1))
      d' = shown.expandAll ((d.placesOf root.id d.isOpen).filterMap (shown.descendantAt? root)) := by
  unfold reload at reloaded
  split at reloaded
  · cases reloaded
  · rename_i f opened
    split at reloaded
    · cases reloaded
    · rename_i root' found
      obtain ⟨rfl, rfl⟩ := Prod.mk.inj (Except.ok.inj reloaded)
      have named := id_of_node found
      unfold node at found
      split at found
      · rename_i h held
        obtain rfl := Except.ok.inj found
        refine ⟨f, opened, held, ?_⟩
        dsimp only
        rw [emptied, ← named]
        rfl
      · cases found

end Document

end MarkupEditor
