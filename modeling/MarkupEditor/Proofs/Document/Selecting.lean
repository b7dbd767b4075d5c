import Mathlib.Data.List.Induction
import MarkupEditor.Proofs.Document.Histories

namespace MarkupEditor

section

variable {κ α : Type}

namespace Command

def OnEntries (command : Command κ α) : Prop := ∀ sheet ∈ command, ∀ c ∈ sheet.changes, c.before.isSome = true

theorem before_stageChange {c : Change α} (there : c.before.isSome = true) {changes : List (Change α)}
    (entries : ∀ e ∈ changes, e.before.isSome = true) : ∀ e ∈ stageChange c changes, e.before.isSome = true := by
  induction changes with
  | nil => exact List.forall_mem_singleton.mpr there
  | cons first rest ih =>
    obtain ⟨own, later⟩ := List.forall_mem_cons.mp entries
    rw [stageChange]
    split
    · exact List.forall_mem_cons.mpr ⟨own, later⟩
    · exact List.forall_mem_cons.mpr ⟨own, ih later⟩

theorem OnEntries.stage [DecidableEq κ] {command : Command κ α} (entries : command.OnEntries) {c : Change α} (there : c.before.isSome = true)
    (store : κ) : (command.stage store c).OnEntries := by
  induction command with
  | nil => exact List.forall_mem_singleton.mpr (List.forall_mem_singleton.mpr there)
  | cons sheet rest ih =>
    obtain ⟨own, later⟩ := List.forall_mem_cons.mp entries
    rw [Command.stage]
    split
    · exact List.forall_mem_cons.mpr ⟨before_stageChange there own, later⟩
    · exact List.forall_mem_cons.mpr ⟨own, ih later⟩

theorem OnEntries.reverting {command : Command κ α} (entries : command.OnEntries) : ∀ w ∈ command.reverting, w.value.isSome = true := by
  intro w member
  obtain ⟨c, ⟨sheet, listed, _, held⟩, _, value⟩ := mem_reverting.mp member
  rw [value]
  exact entries sheet listed c held

end Command

namespace History

def OnEntries (h : History κ α) : Prop := ∀ c ∈ h.stack.done ++ h.stack.undone, c.command.OnEntries

variable {h : History κ α}

theorem onEntries_clear (h : History κ α) : h.clear.OnEntries := nofun

theorem OnEntries.stage [DecidableEq κ] (entries : h.OnEntries) {c : Change α} (there : c.before.isSome = true) (now : Nat) (store : κ) :
    (h.stage now store c).OnEntries := by
  have pushed : ∀ e ∈ (h.stack.push []).done ++ (h.stack.push []).undone, e.command.OnEntries := by
    intro e member
    have listed : e ∈ (⟨[], none⟩ : TitledCommand (Command κ α)) :: h.stack.done := by
      simp only [UndoStack.push, UndoStack.limited, List.append_nil] at member
      split at member
      · exact member
      · exact List.mem_of_mem_take member
    rcases List.mem_cons.mp listed with rfl | listed
    · exact nofun
    · exact entries e (List.mem_append_left _ listed)
  have amended : ∀ stack : UndoStack (Command κ α), (∀ e ∈ stack.done ++ stack.undone, e.command.OnEntries) →
      ∀ e ∈ (stack.amend (Command.stage store c)).done ++ (stack.amend (Command.stage store c)).undone, e.command.OnEntries := by
    intro stack entries
    unfold UndoStack.amend
    split
    · exact entries
    · rename_i newest older same
      rw [same, List.cons_append] at entries
      obtain ⟨first, rest⟩ := List.forall_mem_cons.mp entries
      exact List.forall_mem_cons.mpr ⟨first.stage there store, rest⟩
  unfold History.stage
  split
  · dsimp only
    split
    · exact amended _ entries
    · exact amended _ pushed
  · exact entries

theorem OnEntries.undo (entries : h.OnEntries) : h.undo.2.OnEntries ∧ ∀ w ∈ h.undo.1.getD [], w.value.isSome = true := by
  unfold History.undo UndoStack.undo?
  cases done : h.stack.done with
  | nil => exact ⟨entries, nofun⟩
  | cons newest older =>
    unfold OnEntries at entries
    rw [done] at entries
    refine ⟨fun c member => entries c ?_, (entries newest List.mem_cons_self).reverting⟩
    exact (List.perm_middle.mem_iff).mp member

theorem OnEntries.redo (entries : h.OnEntries) : h.redo.2.OnEntries := by
  unfold History.redo UndoStack.redo?
  cases undone : h.stack.undone with
  | nil => exact entries
  | cons newest older =>
    unfold OnEntries at entries
    rw [undone] at entries
    exact fun c member => entries c ((List.perm_middle.mem_iff).mpr member)

end History

end

namespace Document

variable {d d' d'' : Document}

def Lost (d : Document) (id : String) : Prop := id ∈ d.selection.ids ∧ d.store.get? id = none

def LosesNone (d d' : Document) : Prop := ∀ id, d'.Lost id → d.Lost id

namespace LosesNone

theorem refl (d : Document) : d.LosesNone d := fun _ => id

theorem trans (first : d.LosesNone d') (second : d'.LosesNone d'') : d.LosesNone d'' := fun id lost => first id (second id lost)

theorem foldl {β : Type} {step : Document → β → Document} (each : ∀ (d : Document) b, d.LosesNone (step d b)) (bs : List β) (d : Document) :
    d.LosesNone (bs.foldl step d) := by
  induction bs generalizing d with
  | nil => exact refl d
  | cons b bs ih => exact (each d b).trans (ih (step d b))

end LosesNone

theorem replay_selection (d : Document) (id : String) (value : Option Record) : (d.replay id value).selection = d.selection := by
  unfold replay
  split <;> rfl

theorem write_selection (d : Document) (id : String) (value : Option Record) : (d.write id value).selection = d.selection := by
  unfold write
  split
  · rfl
  · exact d.replay_selection id value

theorem replay_get? (d : Document) (id : String) (value : Option Record) (key : String) :
    (d.replay id value).store.get? key = if key = id then value else d.store.get? key := by
  have contents := congrFun (congrFun (d.replay_eq id value).1 ()) key
  simpa [Document.contents, Contents.put] using contents

theorem write_get? (d : Document) (id : String) (value : Option Record) (key : String) :
    (d.write id value).store.get? key = if key = id then value else d.store.get? key := by
  have contents := congrFun (congrFun (d.write_contents id value) ()) key
  simpa [Document.contents, Contents.put] using contents

theorem losesNone_of_put {id : String} {r : Record} (same : d'.selection = d.selection)
    (written : ∀ key, d'.store.get? key = if key = id then some r else d.store.get? key) : d.LosesNone d' := by
  intro key ⟨selected, gone⟩
  rw [same] at selected
  rw [written key] at gone
  split at gone
  · cases gone
  · exact ⟨selected, gone⟩

theorem losesNone_write (d : Document) (id : String) (r : Record) : d.LosesNone (d.write id (some r)) :=
  losesNone_of_put (d.write_selection id _) (d.write_get? id _)

theorem losesNone_update (d : Document) (id : String) (f : Record → Record) : d.LosesNone (d.update id f) := by
  unfold update
  split
  · exact d.losesNone_write id _
  · exact .refl d

theorem losesNone_removeEntry (d : Document) (id : String) : d.LosesNone (d.removeEntry id) := by
  intro key ⟨selected, gone⟩
  unfold removeEntry at selected gone
  rw [write_selection] at selected
  rw [write_get?] at gone
  obtain ⟨selected, other⟩ := List.mem_filter.mp selected
  rw [if_neg (by simpa using other)] at gone
  exact ⟨selected, gone⟩

theorem losesNone_removeBelow (d : Document) (id : String) : d.LosesNone (d.removeBelow id) := .foldl losesNone_removeEntry _ d

theorem losesNone_remove (d : Document) (id : String) : d.LosesNone (d.remove id) :=
  (d.losesNone_removeBelow id).trans (losesNone_removeEntry _ id)

theorem losesNone_replayAll (writes : List (Write Unit Record)) (keeping : ∀ w ∈ writes, w.value.isSome = true) (d : Document) :
    d.LosesNone (d.replayAll writes) := by
  unfold replayAll
  induction writes generalizing d with
  | nil => exact .refl d
  | cons w writes ih =>
    obtain ⟨kept, later⟩ := List.forall_mem_cons.mp keeping
    obtain ⟨r, value⟩ := Option.isSome_iff_exists.mp kept
    have first : d.LosesNone (d.replay w.id w.value) := by
      rw [value]
      exact losesNone_of_put (d.replay_selection w.id _) (d.replay_get? w.id _)
    exact first.trans (ih later _)

theorem losesNone_select {id : String} (live : d.store.get? id ≠ none) : d.LosesNone (d.select id) := by
  intro key ⟨selected, gone⟩
  have either : key ∈ d.selection.ids ∨ key = id := by
    simp only [select, IdSet.insert] at selected
    split at selected
    · exact .inl (List.mem_of_mem_filter selected)
    · rcases List.mem_append.mp selected with selected | last
      · exact .inl (List.mem_of_mem_filter selected)
      · exact .inr (List.mem_singleton.mp last)
  rcases either with selected | rfl
  · exact ⟨selected, gone⟩
  · exact absurd gone live

theorem losesNone_deselect (d : Document) (id : String) : d.LosesNone (d.deselect id) :=
  fun _ lost => ⟨List.mem_of_mem_filter lost.1, lost.2⟩

theorem viewed_selectBetween (d : Document) (hs : List Handle) : Viewed d (d.selectBetween hs) := by
  unfold selectBetween
  dsimp only
  split
  · have selected : ∀ (d : Document) (h : Handle), Viewed d (d.select h.id) := fun _ _ => ⟨rfl, rfl, rfl, rfl, rfl⟩
    have cleared : Viewed d d.clearSelection := ⟨rfl, rfl, rfl, rfl, rfl⟩
    exact cleared.trans (.foldl selected _ _)
  · exact ⟨rfl, rfl, rfl, rfl, rfl⟩

theorem forall_rows {P : Handle → Prop} (looked : ∀ id h, d.handle? id = some h → P h) (last : Option Handle) (steps : Nat) {first : Handle}
    (start : P first) : ∀ h ∈ d.rowsUpTo last steps first, P h := by
  induction steps generalizing first with
  | zero => exact List.forall_mem_singleton.mpr start
  | succ steps ih =>
    rw [rowsUpTo]
    split
    · exact List.forall_mem_singleton.mpr start
    · split
      · rename_i next found
        obtain ⟨id, _, held⟩ := Option.bind_eq_some_iff.mp found
        exact List.forall_mem_cons.mpr ⟨start, ih (looked id next held)⟩
      · exact List.forall_mem_singleton.mpr start

theorem mem_inOrder {hs : List Handle} {h : Handle} (member : h ∈ d.inOrder hs) : h ∈ hs := by
  simp only [inOrder, List.mem_map, List.mem_mergeSort] at member
  obtain ⟨_, ⟨h, listed, rfl⟩, rfl⟩ := member
  exact listed

section

variable (serves : d.instances.Serves d.store)

include serves

theorem live_of_handle {id : String} {h : Handle} (held : d.handle? id = some h) : d.store.get? h.id ≠ none := by
  have found : d.node id = .ok h := by rw [node, held]
  obtain ⟨r, live⟩ := live_of_node serves found
  rw [id_of_node found, live]
  exact Option.some_ne_none r

theorem losesNone_selectBetween (ids : List String) : d.LosesNone (d.selectBetween (d.handles ids)) := by
  have cleared : d.LosesNone d.clearSelection := fun _ lost => absurd lost.1 List.not_mem_nil
  have selected : ∀ (hs : List Handle) (d' : Document), (∀ h ∈ hs, d'.store.get? h.id ≠ none) →
      d'.LosesNone (hs.foldl (fun d h => d.select h.id) d') := by
    intro hs
    induction hs with
    | nil => exact fun d' _ => .refl d'
    | cons h hs ih =>
      intro d' live
      obtain ⟨first, later⟩ := List.forall_mem_cons.mp live
      exact (losesNone_select first).trans (ih (d'.select h.id) later)
  unfold selectBetween
  dsimp only
  split
  · rename_i first last head _
    obtain ⟨id, _, held⟩ := List.mem_filterMap.mp (mem_inOrder (List.mem_of_mem_head? head))
    have live := forall_rows (fun _ _ looked => live_of_handle serves looked) (some last) d.store.size (live_of_handle serves held)
    exact cleared.trans (selected _ _ live)
  · exact .refl d

end

theorem losesNone_build (d : Document) (path : String) (tree : SourceTree) (generation : Nat) :
    d.LosesNone (d.build path tree generation) := by
  have rooted : d.LosesNone (d.rooted path tree) := losesNone_write { d with history := d.history.pause } _ _
  exact rooted.trans (.foldl (fun d (e : String × Record) => d.losesNone_write e.1 e.2) _ _)

theorem live_root_build (d : Document) (path : String) (tree : SourceTree) (generation : Nat) :
    (d.build path tree generation).store.get? (File.rootId path) ≠ none := by
  have root := (d.build_contents path tree generation (File.rootId path) (d.rootRecord path tree)).mpr (.inl List.mem_cons_self)
  exact Option.ne_none_iff_exists'.mpr ⟨_, root⟩

theorem losesNone_setExpanded (d : Document) (h : Handle) (value : Bool) : d.LosesNone (d.setExpanded h value) := by
  unfold setExpanded
  split
  · split <;> exact .refl d
  · exact .refl d

theorem losesNone_expandAll (d : Document) (hs : List Handle) : d.LosesNone (d.expandAll hs) :=
  .foldl (fun d h => d.losesNone_setExpanded h true) hs d

theorem losesNone_places (places : List (List Nat)) {root : Handle} {d : Document} (serves : d.instances.Serves d.store)
    (live : d.store.get? root.id ≠ none) :
    d.LosesNone (places.foldl (fun d place => match d.descendantAt? root place with
      | some h => d.select h.id
      | none => d) d) := by
  induction places generalizing d with
  | nil => exact .refl d
  | cons place places ih =>
    rw [List.foldl_cons]
    split
    · rename_i h found
      have there : d.store.get? h.id ≠ none := by
        unfold descendantAt? at found
        split at found
        · obtain rfl := Option.some.inj found
          exact live
        · obtain ⟨id, _, held⟩ := Option.bind_eq_some_iff.mp found
          exact live_of_handle serves held
      exact (losesNone_select there).trans (ih (d := d.select h.id) serves live)
    · exact ih serves live

variable {path : String} {tree : SourceTree} {root : Handle}

theorem losesNone_reload (serves : d.instances.Serves d.store) (loaded : d.reload path tree = .ok (root, d')) : d.LosesNone d' := by
  unfold reload at loaded
  split at loaded
  · cases loaded
  · rename_i f _
    split at loaded
    · cases loaded
    · rename_i root' held
      obtain ⟨_, rfl⟩ := Prod.mk.inj (Except.ok.inj loaded)
      have named := id_of_node held
      have emptied : d.LosesNone (d.emptied path) := losesNone_removeBelow { d with history := d.history.pause } (File.rootId path)
      have built := losesNone_build (d.emptied path) path tree (f.generation + 1)
      have again := serves_build (serves_emptied serves path) path tree (f.generation + 1)
      have live := live_root_build (d.emptied path) path tree (f.generation + 1)
      rw [← named] at live
      simp only [named]
      exact ((emptied.trans built).trans (losesNone_places _ again live)).trans (losesNone_expandAll _ _)

theorem losesNone_load (serves : d.instances.Serves d.store) (loaded : d.load path tree = .ok (root, d')) : d.LosesNone d' := by
  unfold load at loaded
  split at loaded
  · exact losesNone_reload serves loaded
  · dsimp only at loaded
    split at loaded
    · obtain ⟨_, rfl⟩ := Prod.mk.inj (Except.ok.inj loaded)
      exact losesNone_build d path tree 0
    · cases loaded

theorem losesNone_close (closed : d.close path = .ok d') : d.LosesNone d' := by
  unfold close at closed
  split at closed
  · cases closed
  · rename_i h _
    obtain rfl := Except.ok.inj closed
    exact losesNone_remove { d with history := d.history.pause } h.id

theorem losesNone_turn {a : Act} (serves : d.instances.Serves d.store) (here : a.file? = some path) : d.LosesNone (a.apply d) := by
  cases a with
  | load path tree =>
    rw [Act.apply]
    split
    · rename_i loaded
      exact losesNone_load serves loaded
    · exact .refl d
  | reload path tree =>
    rw [Act.apply]
    split
    · rename_i loaded
      exact losesNone_reload serves loaded
    · exact .refl d
  | close path =>
    rw [Act.apply]
    split
    · rename_i closed
      exact losesNone_close closed
    · exact .refl d
  | _ => cases here

theorem losesNone_undo (entries : d.history.OnEntries) : d.LosesNone d.undo.2 := by
  have kept := entries.undo.2
  unfold undo
  split
  · rename_i writes history same
    rw [same] at kept
    exact losesNone_replayAll writes kept { d with history }
  · exact .refl d

theorem losesNone_edit {e : Edit} (entries : d.history.OnEntries) (other : e ≠ .redo) : d.LosesNone (e.apply d) := by
  rcases d.edit_cases e with ⟨updates, same⟩ | ⟨id, same⟩ | rfl | rfl
  · rw [same]
    exact .foldl (fun d u => d.losesNone_update u.1 u.2) updates d
  · rw [same]
    exact d.losesNone_remove id
  · exact losesNone_undo entries
  · exact absurd rfl other

theorem redo_selection (d : Document) : d.redo.2.selection = d.selection := by
  have replayed : ∀ (writes : List (Write Unit Record)) (d : Document), (d.replayAll writes).selection = d.selection := by
    intro writes
    unfold replayAll
    induction writes with
    | nil => exact fun _ => rfl
    | cons w writes ih => exact fun d => (ih (d.replay w.id w.value)).trans (d.replay_selection w.id w.value)
  unfold redo
  split
  · rename_i writes history _
    exact replayed writes { d with history }
  · rfl

theorem onEntries_write (entries : d.history.OnEntries) (id : String) {value : Option Record} (there : value = none ∨ d.store.get? id ≠ none) :
    (d.write id value).history.OnEntries := by
  have change := d.store.write_eq id value
  unfold write
  split
  · exact entries
  · rename_i store c same
    rw [same] at change
    split at change
    · cases change
    · rename_i effective
      obtain rfl := Option.some.inj (Prod.mk.inj change).2
      have before : d.store.get? id ≠ none := by
        rcases there with rfl | live
        · exact fun absent => effective ⟨absent, rfl⟩
        · exact live
      exact entries.stage (Option.isSome_iff_ne_none.mpr before) d.now ()

theorem onEntries_update (entries : d.history.OnEntries) (id : String) (f : Record → Record) : (d.update id f).history.OnEntries := by
  unfold update
  split
  · rename_i r held
    exact onEntries_write entries id (.inr (by rw [held]; exact Option.some_ne_none r))
  · exact entries

theorem onEntries_removeEntry (entries : d.history.OnEntries) (id : String) : (d.removeEntry id).history.OnEntries := by
  unfold removeEntry
  exact onEntries_write (d := { d with selection := d.selection.erase id, hovered := _ }) entries id (.inl rfl)

theorem onEntries_foldl {β : Type} {step : Document → β → Document}
    (each : ∀ (d : Document) b, d.history.OnEntries → (step d b).history.OnEntries) (bs : List β) (entries : d.history.OnEntries) :
    (bs.foldl step d).history.OnEntries := by
  induction bs generalizing d with
  | nil => exact entries
  | cons b bs ih => exact ih (each d b entries)

theorem onEntries_remove (entries : d.history.OnEntries) (id : String) : (d.remove id).history.OnEntries :=
  onEntries_removeEntry (onEntries_foldl (fun _ id entries => onEntries_removeEntry entries id) _ entries) id

theorem onEntries_edit (entries : d.history.OnEntries) (e : Edit) : (e.apply d).history.OnEntries := by
  rcases d.edit_cases e with ⟨updates, same⟩ | ⟨id, same⟩ | rfl | rfl
  · rw [same]
    exact onEntries_foldl (fun _ u entries => onEntries_update entries u.1 u.2) updates entries
  · rw [same]
    exact onEntries_remove entries id
  · rw [Edit.apply, d.undo_eq.2.1]
    exact entries.undo.1
  · rw [Edit.apply, d.redo_eq.2.1]
    exact entries.redo

theorem serves_edit (serves : d.instances.Serves d.store) (e : Edit) : (e.apply d).instances.Serves (e.apply d).store := by
  rcases d.edit_cases e with ⟨updates, same⟩ | ⟨id, same⟩ | rfl | rfl
  · rw [same]
    exact serves_edited serves (.foldl (fun d u => .of_update d u.1 u.2) updates d)
  · rw [same]
    exact serves_edited serves (.of_remove d id)
  · exact serves_undo serves
  · exact serves_redo serves

end Document

-- What a user does: files are opened, read again and closed, nodes that were looked up at any time are edited, and nodes that
-- are there are selected, deselected and expanded.
inductive Gesture where
  | load (path : String) (tree : SourceTree)
  | reload (path : String) (tree : SourceTree)
  | close (path : String)
  | edit (e : Edit)
  | select (id : String)
  | deselect (id : String)
  | selectBetween (ids : List String)
  | expand (id : String) (value : Bool)

def Gesture.apply (d : Document) : Gesture → Document
  | load path tree => (Act.load path tree).apply d
  | reload path tree => (Act.reload path tree).apply d
  | close path => (Act.close path).apply d
  | edit e => e.apply d
  | select id =>
    match d.node id with
    | .ok h => d.select h.id
    | .error _ => d
  | deselect id =>
    match d.node id with
    | .ok h => d.deselect h.id
    | .error _ => d
  | selectBetween ids => d.selectBetween (d.handles ids)
  | expand id value =>
    match d.node id with
    | .ok h => d.setExpanded h value
    | .error _ => d

def Document.play (d : Document) (gestures : List (Nat × Gesture)) : Document :=
  gestures.foldl (fun d g => g.2.apply { d with now := g.1 }) d

namespace Document

variable {d d' : Document}

-- There is an instance for each entry, and only changes to entries are recorded.
structure Steady (d : Document) : Prop where
  serves : d.instances.Serves d.store
  entries : d.history.OnEntries

namespace Steady

theorem new (classAttribute : String) (undoWindow maxLevels : Nat) : (Document.new classAttribute undoWindow maxLevels).Steady :=
  ⟨(Standing.new classAttribute undoWindow maxLevels).serves, nofun⟩

theorem turn (steady : d.Steady) {a : Act} {path : String} (here : a.file? = some path) : (a.apply d).Steady := by
  refine ⟨serves_turned steady.serves here, ?_⟩
  rcases turns_apply d here with same | turned
  · rw [same]
    exact steady.entries
  · rw [turned.history]
    exact History.onEntries_clear _

theorem viewed (steady : d.Steady) (viewed : Viewed d d') : d'.Steady := by
  refine ⟨?_, viewed.history ▸ steady.entries⟩
  rw [viewed.store, viewed.instances]
  exact steady.serves

theorem apply (steady : d.Steady) (g : Gesture) : (g.apply d).Steady := by
  have looked : ∀ {id : String} {f : Handle → Document}, (∀ h, Viewed d (f h)) →
      (match d.node id with
        | .ok h => f h
        | .error _ => d).Steady := by
    intro id f each
    split
    · exact steady.viewed (each _)
    · exact steady
  cases g with
  | load path tree => exact steady.turn (a := .load path tree) rfl
  | reload path tree => exact steady.turn (a := .reload path tree) rfl
  | close path => exact steady.turn (a := .close path) rfl
  | edit e => exact ⟨serves_edit steady.serves e, onEntries_edit steady.entries e⟩
  | select | deselect => exact looked fun _ => ⟨rfl, rfl, rfl, rfl, rfl⟩
  | selectBetween ids => exact steady.viewed (viewed_selectBetween d _)
  | expand id value => exact looked fun h => viewed_setExpanded d h value

theorem losesNone (steady : d.Steady) {g : Gesture} (other : g ≠ .edit .redo) : d.LosesNone (g.apply d) := by
  cases g with
  | load path tree => exact losesNone_turn (a := .load path tree) steady.serves rfl
  | reload path tree => exact losesNone_turn (a := .reload path tree) steady.serves rfl
  | close path => exact losesNone_turn (a := .close path) steady.serves rfl
  | edit e => exact losesNone_edit steady.entries fun same => other (congrArg Gesture.edit same)
  | select id =>
    rw [Gesture.apply]
    split
    · rename_i h found
      obtain ⟨r, live⟩ := live_of_node steady.serves found
      rw [id_of_node found]
      exact losesNone_select (by rw [live]; exact Option.some_ne_none r)
    · exact .refl d
  | deselect id =>
    rw [Gesture.apply]
    split
    · exact d.losesNone_deselect _
    · exact .refl d
  | selectBetween ids => exact losesNone_selectBetween steady.serves ids
  | expand id value =>
    rw [Gesture.apply]
    split
    · exact d.losesNone_setExpanded _ value
    · exact .refl d

theorem at_time (steady : d.Steady) (now : Nat) : ({ d with now } : Document).Steady := ⟨steady.serves, steady.entries⟩

theorem play (steady : d.Steady) (gestures : List (Nat × Gesture)) : (d.play gestures).Steady := by
  unfold Document.play
  induction gestures generalizing d with
  | nil => exact steady
  | cons g gestures ih => exact ih ((steady.at_time g.1).apply g.2)

end Steady

theorem play_snoc (d : Document) (gestures : List (Nat × Gesture)) (g : Nat × Gesture) :
    d.play (gestures ++ [g]) = g.2.apply { d.play gestures with now := g.1 } := by
  unfold play
  rw [List.foldl_append]
  rfl

theorem lost_by_redo (steady : d.Steady) (started : d.selection.ids = []) (gestures : List (Nat × Gesture)) {id : String}
    (lost : (d.play gestures).Lost id) :
    ∃ before now after, gestures = before ++ (now, .edit .redo) :: after ∧ id ∈ (d.play before).selection.ids ∧
      ((d.play before).store.get? id).isSome = true ∧ ∀ more, more <+: after → (d.play (before ++ (now, .edit .redo) :: more)).Lost id := by
  induction gestures using List.reverseRecOn with
  | nil =>
    have nothing : id ∈ d.selection.ids := lost.1
    rw [started] at nothing
    cases nothing
  | append_singleton gestures g ih =>
    obtain ⟨now, g⟩ := g
    have late := lost
    rw [play_snoc] at lost
    by_cases before : (d.play gestures).Lost id
    · obtain ⟨head, then_, after, rfl, selected, live, since⟩ := ih before
      refine ⟨head, then_, after ++ [(now, g)], by simp, selected, live, fun more beginning => ?_⟩
      rcases List.prefix_concat_iff.mp beginning with rfl | beginning
      · simpa using late
      · exact since more beginning
    · have redone : g = .edit .redo := by
        by_contra other
        exact before (((steady.play gestures).at_time now).losesNone other id lost)
      subst redone
      have selected : id ∈ (d.play gestures).selection.ids := by
        have same := ({ d.play gestures with now } : Document).redo_selection
        exact same ▸ lost.1
      have live : (d.play gestures).store.get? id ≠ none := fun gone => before ⟨selected, gone⟩
      refine ⟨gestures, now, [], rfl, selected, Option.isSome_iff_ne_none.mpr live, fun more beginning => ?_⟩
      rw [List.prefix_nil.mp beginning]
      exact late

-- What is selected is there, whatever was done, unless a redo erased it while it was selected and it has been gone since.
theorem selected_unless_redone (classAttribute : String) (undoWindow maxLevels : Nat) (gestures : List (Nat × Gesture)) :
    let played := (Document.new classAttribute undoWindow maxLevels).play
    ∀ id ∈ (played gestures).selection.ids, ((played gestures).store.get? id).isSome = true ∨
      ∃ before now after, gestures = before ++ (now, .edit .redo) :: after ∧ id ∈ (played before).selection.ids ∧
        ((played before).store.get? id).isSome = true ∧
        ∀ more, more <+: after → (played (before ++ (now, .edit .redo) :: more)).Lost id := by
  intro played id selected
  cases held : (played gestures).store.get? id with
  | some r => exact .inl rfl
  | none => exact .inr (lost_by_redo (Steady.new classAttribute undoWindow maxLevels) rfl gestures ⟨selected, held⟩)

def reselecting (tree : SourceTree) : List (Nat × Gesture) :=
  [(0, .load "t.jsx" tree), (1, .edit (.delete (File.nodeId "t.jsx" 0 3))), (2, .edit .undo), (3, .select (File.nodeId "t.jsx" 0 3)),
    (4, .edit .redo)]

theorem selected_unless_redone_restored :
    ∃ tree, parse "x = <p><b /></p>;" = .ok tree ∧
      let played := (Document.new "className" 1000 100).play
      let gestures := reselecting tree ++ [(5, .edit .undo)]
      File.nodeId "t.jsx" 0 3 ∈ (played gestures).selection.ids ∧ (((played gestures).store.get? (File.nodeId "t.jsx" 0 3)).isSome = true ∨
        ∃ before now after, gestures = before ++ (now, .edit .redo) :: after ∧ File.nodeId "t.jsx" 0 3 ∈ (played before).selection.ids ∧
          ((played before).store.get? (File.nodeId "t.jsx" 0 3)).isSome = true ∧
          ∀ more, more <+: after → (played (before ++ (now, .edit .redo) :: more)).Lost (File.nodeId "t.jsx" 0 3)) := by
  have ran : (parse "x = <p><b /></p>;").toOption.map (fun tree =>
      ((new "className" 1000 100).play (reselecting tree ++ [(5, .edit .undo)])).selection.ids) = some [File.nodeId "t.jsx" 0 3] := by
    decide +kernel
  obtain ⟨tree, parsed, ids⟩ := Option.map_eq_some_iff.mp ran
  have selected : File.nodeId "t.jsx" 0 3 ∈ ((new "className" 1000 100).play (reselecting tree ++ [(5, .edit .undo)])).selection.ids := by
    rw [ids]
    exact List.mem_singleton_self _
  exact ⟨tree, eq_ok_of_toOption parsed, selected, selected_unless_redone "className" 1000 100 _ _ selected⟩

-- Redoing the deletion leaves the id of the element in the selection.
theorem redo_leaves_selected :
    ¬ ∀ (gestures : List (Nat × Gesture)), ∀ id ∈ ((new "className" 1000 100).play gestures).selection.ids,
      (((new "className" 1000 100).play gestures).store.get? id).isSome = true := by
  intro live
  have ran : (parse "x = <p><b /></p>;").toOption.map (fun tree =>
      let d := (new "className" 1000 100).play (reselecting tree)
      (d.selection.ids, (d.store.get? (File.nodeId "t.jsx" 0 3)).isSome)) = some ([File.nodeId "t.jsx" 0 3], false) := by
    decide +kernel
  obtain ⟨tree, _, ended⟩ := Option.map_eq_some_iff.mp ran
  obtain ⟨ids, gone⟩ := Prod.mk.inj ended
  have held := live (reselecting tree) (File.nodeId "t.jsx" 0 3) (by rw [ids]; exact List.mem_singleton_self _)
  rw [gone] at held
  cases held

end Document

end MarkupEditor
