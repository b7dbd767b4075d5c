import MarkupEditor.Proofs.Document.Homes

namespace MarkupEditor

-- What a document writes to: its store, and the files that were touched on the way.
structure Trail where
  store : Store Record
  touched : List String

namespace Trail

def write (t : Trail) (w : Write Unit Record) : Trail :=
  match t.store.write w.id w.value with
  | (_, none) => t
  | (store, some c) => ⟨store, t.touched ++ (Document.owner? store c).toList⟩

def run (t : Trail) (ws : List (Write Unit Record)) : Trail := ws.foldl write t

variable {t : Trail} {w : Write Unit Record} {ws : List (Write Unit Record)} {path : String}

theorem get?_write (t : Trail) (w : Write Unit Record) (id : String) : (t.write w).store.get? id = if id = w.id then w.value else t.store.get? id := by
  have written := t.store.get?_write w.id w.value id
  have change := t.store.write_eq w.id w.value
  unfold write
  split
  · rename_i store same
    rw [same] at change
    split at change
    · rename_i absent
      split
      · rename_i here
        rw [here, absent.1, absent.2]
      · rfl
    · cases change
  · rename_i store c same
    rw [same] at written
    exact written

theorem touched_write (t : Trail) (w : Write Unit Record) : t.touched ⊆ (t.write w).touched := by
  unfold write
  split
  · exact List.Subset.refl _
  · exact List.subset_append_left _ _

theorem touched_run (t : Trail) (ws : List (Write Unit Record)) : t.touched ⊆ (t.run ws).touched := by
  induction ws generalizing t with
  | nil => exact List.Subset.refl _
  | cons w ws ih => exact List.Subset.trans (touched_write t w) (ih (t.write w))

theorem mem_touched_write {r : Record} (held : w.value.or (t.store.get? w.id) = some r)
    (place : r.parent = none ∧ w.id = File.rootId path ∧ r.isFile = true ∨
      ∃ parent, r.parent = some parent ∧ Sheltered path (t.write w).store.get? parent) : path ∈ (t.write w).touched := by
  have change := t.store.write_eq w.id w.value
  have effective : ¬ (t.store.get? w.id = none ∧ w.value = none) := by
    rintro ⟨absent, nothing⟩
    rw [absent, nothing] at held
    cases held
  rw [if_neg effective] at change
  have after : t.write w = ⟨t.store.put w.id w.value, t.touched ++ (Document.owner? (t.store.put w.id w.value) ⟨w.id, t.store.get? w.id, w.value⟩).toList⟩ := by
    rw [write, change]
  rw [after] at place ⊢
  rw [Document.owner?_eq held place]
  exact List.mem_append_right _ List.mem_cons_self

theorem get?_of_run {id : String} {r : Record} (found : (t.run ws).store.get? id = some r)
    (unwritten : ∀ w ∈ ws, w.id = id → w.value = none) : t.store.get? id = some r := by
  induction ws generalizing t with
  | nil => exact found
  | cons w ws ih =>
    obtain ⟨first, later⟩ := List.forall_mem_cons.mp unwritten
    have next := ih (t := t.write w) found later
    rw [get?_write] at next
    split at next
    · rename_i here
      rw [first here.symm] at next
      cases next
    · exact next

theorem touched_of_writing (lasting : ∀ w ∈ ws, w.value.isSome = true → ∃ r, (t.run ws).store.get? w.id = some r)
    (gathered : Gathered path (t.run ws).store.get?) (writing : ∃ w ∈ ws, File.Homed path w.id ∧ w.value.isSome = true) :
    path ∈ (t.run ws).touched := by
  induction ws generalizing t with
  | nil =>
    obtain ⟨_, member, _⟩ := writing
    cases member
  | cons w ws ih =>
    obtain ⟨lasts, later⟩ := List.forall_mem_cons.mp lasting
    by_cases more : ∃ v ∈ ws, File.Homed path v.id ∧ v.value.isSome = true
    · exact ih later gathered more
    · -- The last record: nothing of the file that is there at the end is written after it.
      have last : ∀ v ∈ ws, File.Homed path v.id → v.value = none := by
        intro v member homed
        rw [← Option.not_isSome_iff_eq_none]
        exact fun written => more ⟨v, member, homed, written⟩
      have kept : ∀ key r, File.Homed path key → ((t.write w).run ws).store.get? key = some r → (t.write w).store.get? key = some r :=
        fun key r homed found => get?_of_run found fun v member here => last v member (here ▸ homed)
      obtain ⟨homed, written⟩ : File.Homed path w.id ∧ w.value.isSome = true := by
        obtain ⟨v, member, homed, written⟩ := writing
        rcases List.mem_cons.mp member with rfl | member
        · exact ⟨homed, written⟩
        · rw [last v member homed] at written
          cases written
      obtain ⟨r, value⟩ := Option.isSome_iff_exists.mp written
      obtain ⟨r', found⟩ := lasts written
      obtain rfl : r = r' := by
        have here := kept w.id r' homed found
        rw [get?_write, if_pos rfl, value] at here
        exact Option.some.inj here
      apply touched_run (t.write w) ws
      apply mem_touched_write (r := r)
      · rw [value]
        rfl
      · exact ((gathered w.id r homed found).cases_of found).imp_right fun ⟨parent, named, above⟩ => ⟨parent, named, above.transfer kept⟩

theorem touched_of_erasing (erasing : ∀ w ∈ ws, File.Homed path w.id → w.value = none) (gathered : Gathered path t.store.get?) {id : String}
    (homed : File.Homed path id) (differs : (t.run ws).store.get? id ≠ t.store.get? id) : path ∈ (t.run ws).touched := by
  induction ws generalizing t with
  | nil => exact absurd rfl differs
  | cons w ws ih =>
    obtain ⟨first, later⟩ := List.forall_mem_cons.mp erasing
    by_cases here : File.Homed path w.id ∧ ∃ r, t.store.get? w.id = some r
    · obtain ⟨homed', r, found⟩ := here
      have gone := first homed'
      apply touched_run (t.write w) ws
      apply mem_touched_write (r := r)
      · rw [gone, found]
        rfl
      · refine ((gathered w.id r homed' found).cases_of found).imp_right fun ⟨parent, named, above⟩ => ⟨parent, named, ?_⟩
        refine above.erase w.id (fun key r other held => ?_) fun between => ?_
        · rw [get?_write, if_neg other]
          exact held
        · exact (gathered w.id r homed' found).anchored.acyclic (.tail' between ⟨r, found, named⟩)
    · have same : ∀ key, File.Homed path key → (t.write w).store.get? key = t.store.get? key := by
        intro key homed'
        rw [get?_write]
        split
        · rename_i own
          subst own
          rw [first homed']
          exact (Option.eq_none_iff_forall_ne_some.mpr fun r found => here ⟨homed', r, found⟩).symm
        · rfl
      refine ih later (gathered.congr same) ?_
      rw [same id homed]
      exact differs

theorem touched_of_change (lasting : ∀ w ∈ ws, w.value.isSome = true → ∃ r, (t.run ws).store.get? w.id = some r)
    (before : Gathered path t.store.get?) (after : Gathered path (t.run ws).store.get?) {id : String} (homed : File.Homed path id)
    (differs : (t.run ws).store.get? id ≠ t.store.get? id) : path ∈ (t.run ws).touched := by
  -- A write into the file is put down to it at the end. Where all writes erase, the first erasure is put down to it as
  -- it stood.
  by_cases writing : ∃ w ∈ ws, File.Homed path w.id ∧ w.value.isSome = true
  · exact touched_of_writing lasting after writing
  · refine touched_of_erasing (fun w member homed => ?_) before homed differs
    rw [← Option.not_isSome_iff_eq_none]
    exact fun written => writing ⟨w, member, homed, written⟩

end Trail

namespace Document

def trail (d : Document) : Trail := ⟨d.store, d.touched⟩

theorem trail_replay (d : Document) (id : String) (value : Option Record) : (d.replay id value).trail = d.trail.write ⟨(), id, value⟩ := by
  unfold replay Trail.write trail
  cases d.store.write id value with
  | mk store c => cases c <;> rfl

theorem trail_write (d : Document) (id : String) (value : Option Record) : (d.write id value).trail = d.trail.write ⟨(), id, value⟩ := by
  rw [← trail_replay]
  unfold write
  split
  · rename_i same
    rw [replay, same]
  · rfl

theorem trail_replayAll (d : Document) (ws : List (Write Unit Record)) : (d.replayAll ws).trail = d.trail.run ws := by
  unfold replayAll Trail.run
  induction ws generalizing d with
  | nil => rfl
  | cons w ws ih =>
    rw [List.foldl_cons, ih, trail_replay]
    rfl

-- The second document comes from the first by writes, and each record that was written is the record of an entry at the end.
def Treads (d d' : Document) : Prop :=
  ∃ ws, d'.trail = d.trail.run ws ∧ ∀ w ∈ ws, w.value.isSome = true → ∃ r, d'.store.get? w.id = some r

namespace Treads

variable {d d' d'' : Document}

theorem nothing (d : Document) : Treads d d := ⟨[], rfl, fun _ member => by cases member⟩

theorem trans (first : Treads d d') (second : Treads d' d'') (kept : ∀ id r, d'.store.get? id = some r → ∃ r', d''.store.get? id = some r') :
    Treads d d'' := by
  obtain ⟨ws, trail, lasting⟩ := first
  obtain ⟨vs, trail', lasting'⟩ := second
  refine ⟨ws ++ vs, ?_, fun w member written => ?_⟩
  · rw [trail', trail, Trail.run, Trail.run, Trail.run, List.foldl_append]
  · rcases List.mem_append.mp member with member | member
    · obtain ⟨r, found⟩ := lasting w member written
      exact kept w.id r found
    · exact lasting' w member written

theorem of_update (d : Document) (id : String) (f : Record → Record) :
    Treads d (d.update id f) ∧ ∀ key r, d.store.get? key = some r → ∃ r', (d.update id f).store.get? key = some r' := by
  unfold update
  split
  · rename_i r found
    have written : ∀ key, (d.write id (some (f r))).store.get? key = if key = id then some (f r) else d.store.get? key := by
      intro key
      have trail := congrArg (fun t : Trail => t.store.get? key) (d.trail_write id (some (f r)))
      exact trail.trans (d.trail.get?_write _ key)
    refine ⟨⟨[⟨(), id, some (f r)⟩], d.trail_write .., fun w member _ => ?_⟩, fun key q held => ?_⟩
    · rw [List.mem_singleton.mp member]
      exact ⟨f r, (written id).trans (if_pos rfl)⟩
    · rw [written]
      split
      · exact ⟨_, rfl⟩
      · exact ⟨q, held⟩
  · exact ⟨nothing d, fun _ r held => ⟨r, held⟩⟩

theorem of_updates (updates : List (String × (Record → Record))) (d : Document) :
    Treads d (updates.foldl (fun d u => d.update u.1 u.2) d) ∧
      ∀ key r, d.store.get? key = some r → ∃ r', (updates.foldl (fun d u => d.update u.1 u.2) d).store.get? key = some r' := by
  induction updates generalizing d with
  | nil => exact ⟨nothing d, fun _ r held => ⟨r, held⟩⟩
  | cons u updates ih =>
    obtain ⟨first, kept⟩ := of_update d u.1 u.2
    obtain ⟨later, kept'⟩ := ih (d.update u.1 u.2)
    refine ⟨first.trans later kept', fun key r held => ?_⟩
    obtain ⟨r', held'⟩ := kept key r held
    exact kept' key r' held'

theorem of_removeAll (ids : List String) (d : Document) : ∃ ws, (ids.foldl removeEntry d).trail = d.trail.run ws ∧ ∀ w ∈ ws, w.value = none := by
  induction ids generalizing d with
  | nil => exact ⟨[], rfl, fun _ member => by cases member⟩
  | cons id ids ih =>
    obtain ⟨ws, trail, erasing⟩ := ih (d.removeEntry id)
    refine ⟨⟨(), id, none⟩ :: ws, ?_, List.forall_mem_cons.mpr ⟨rfl, erasing⟩⟩
    rw [List.foldl_cons, trail, removeEntry, trail_write]
    rfl

theorem of_remove (d : Document) (id : String) : Treads d (d.remove id) := by
  obtain ⟨ws, trail, erasing⟩ := of_removeAll (Tree.postorderAll (d.store.trees id) ++ [id]) d
  refine ⟨ws, ?_, fun w member written => ?_⟩
  · rw [← trail, List.foldl_append]
    rfl
  · rw [erasing w member] at written
    cases written

end Treads

theorem undo_writes {h : History Unit Record} {t : Timeline Unit Record} (records : h.Records t) :
    ∀ w ∈ h.undo.1.getD [], w.value = t.undo.2.current w.store w.id := by
  obtain ⟨_, _, past, _⟩ := records
  unfold History.undo UndoStack.undo? Timeline.undo
  cases done : h.stack.done with
  | nil =>
    intro w member
    cases member
  | cons c cs =>
    rw [done] at past
    obtain ⟨p, ps, spans, _, same⟩ := List.forall₂_cons_left_iff.mp past
    intro w member
    obtain ⟨change, held, id, value⟩ := Command.mem_reverting.mp member
    simp only [same, value, id]
    exact spans.starts _ change held

theorem redo_writes {h : History Unit Record} {t : Timeline Unit Record} (records : h.Records t) :
    ∀ w ∈ h.redo.1.getD [], w.value = t.redo.2.current w.store w.id := by
  obtain ⟨_, _, _, future, _⟩ := records
  unfold History.redo UndoStack.redo? Timeline.redo
  cases undone : h.stack.undone with
  | nil =>
    intro w member
    cases member
  | cons c cs =>
    rw [undone] at future
    obtain ⟨p, ps, spans, _, same⟩ := List.forall₂_cons_left_iff.mp future
    intro w member
    obtain ⟨change, held, id, value⟩ := Command.mem_repeating.mp member
    simp only [same, value, id]
    exact spans.ends _ change held

theorem Treads.of_writes {d d' : Document} {ws : List (Write Unit Record)} (trail : d'.trail = d.trail.run ws)
    (agree : ∀ w ∈ ws, w.value = d'.contents w.store w.id) : Treads d d' := by
  refine ⟨ws, trail, fun w member written => ?_⟩
  rw [agree w member] at written
  exact Option.isSome_iff_exists.mp written

variable {d : Document} {P : Contents Unit Record → Prop}

theorem treads_undo (follows : d.Follows P) : Treads d d.undo.2 := by
  obtain ⟨t, records, current, _⟩ := follows
  have after : d.undo.2.contents = t.undo.2.current := by
    rw [d.undo_eq.1, ← current, History.replay_undo records]
  refine .of_writes ?_ (after ▸ undo_writes records)
  unfold undo
  split <;> rename_i same <;> rw [same]
  · exact trail_replayAll _ _
  · rfl

theorem treads_redo (follows : d.Follows P) : Treads d d.redo.2 := by
  obtain ⟨t, records, current, _⟩ := follows
  have after : d.redo.2.contents = t.redo.2.current := by
    rw [d.redo_eq.1, ← current, History.replay_redo records]
  refine .of_writes ?_ (after ▸ redo_writes records)
  unfold redo
  split <;> rename_i same <;> rw [same]
  · exact trail_replayAll _ _
  · rfl

theorem treads_apply (follows : d.Follows P) {a : Act} (edits : a.isEdit = true) : Treads d (a.apply d) := by
  obtain ⟨e, same⟩ := apply_edit d edits
  rw [same]
  rcases d.edit_cases e with ⟨updates, updated⟩ | ⟨id, removed⟩ | rfl | rfl
  · rw [updated]
    exact (Treads.of_updates updates d).1
  · rw [removed]
    exact .of_remove d id
  · exact treads_undo follows
  · exact treads_redo follows

end Document

theorem Store.trees_congr {s s' : Store Record} (wooded : Wooded s.get?) (wooded' : Wooded s'.get?) {path : String}
    (closed : ∀ child r parent, s.get? child = some r → r.parent = some parent → File.Homed path parent → File.Homed path child)
    (closed' : ∀ child r parent, s'.get? child = some r → r.parent = some parent → File.Homed path parent → File.Homed path child)
    (same : ∀ id, File.Homed path id → s'.get? id = s.get? id) {id : String} (homed : File.Homed path id) : s'.trees id = s.trees id := by
  induction id using (wellFounded_children wooded).induction with
  | _ id ih =>
    have named : id ≠ rootsId := by
      rcases homed with rfl | ⟨generation, count, rfl⟩
      · exact File.rootId_ne_empty path
      · exact File.nodeId_ne_empty path generation count
    have keyed : s'.keyedChildren id = s.keyedChildren id := by
      apply eq_of_sorted (sorted_keyedChildren s' id) (sorted_keyedChildren s id) (nodup_keyedChildren s' id) (nodup_keyedChildren s id)
      intro e
      rw [mem_keyedChildren, mem_keyedChildren]
      constructor
      · rintro ⟨r, found, under, key⟩
        rw [same e.2 (closed' e.2 r id found (parent_of_parentId under named) homed)] at found
        exact ⟨r, found, under, key⟩
      · rintro ⟨r, found, under, key⟩
        rw [← same e.2 (closed e.2 r id found (parent_of_parentId under named) homed)] at found
        exact ⟨r, found, under, key⟩
    rw [trees_eq wooded', trees_eq wooded, children, children, keyed]
    apply List.filterMap_congr
    intro child member
    have names := names_of_child named (s := s) member
    obtain ⟨r, found, parent⟩ := names
    have inside := closed child r id found parent homed
    rw [same child inside, ih child ⟨r, found, parent⟩ inside]

namespace Document

variable {d d' : Document} {paths : List String}

theorem trees_kept {paths' : List String} (housed : Housed paths d.store.get?) (housed' : Housed paths' d'.store.get?) (differ : File.SeedsDiffer paths)
    (differ' : File.SeedsDiffer paths') (wooded : Store.Wooded d.store.get?) (wooded' : Store.Wooded d'.store.get?) {path : String}
    (member : path ∈ paths) (member' : path ∈ paths') (same : ∀ id, File.Homed path id → d'.store.get? id = d.store.get? id) :
    d'.store.trees (File.rootId path) = d.store.trees (File.rootId path) :=
  Store.trees_congr wooded wooded' (fun _ _ _ found named homed => housed.closed differ member found named homed)
    (fun _ _ _ found named homed => housed'.closed differ' member' found named homed) same (.inl rfl)

theorem touched_or_kept (follows : d.Follows fun m => Housed paths (m ())) (differ : File.SeedsDiffer paths) (standing : d.Standing) {a : Act}
    (edits : a.isEdit = true) (inside : d.StaysInside a) {path : String} (member : path ∈ paths) :
    path ∈ (a.apply d).touched ∨ (a.apply d).store.trees (File.rootId path) = d.store.trees (File.rootId path) := by
  have housed : Housed paths d.store.get? := follows.present
  have housed' : Housed paths (a.apply d).store.get? := (housed_apply follows differ standing edits inside).present
  have wooded := standing.planted.toWooded
  have wooded' := (standing.apply a).planted.toWooded
  by_cases differs : ∃ id, File.Homed path id ∧ (a.apply d).store.get? id ≠ d.store.get? id
  · left
    obtain ⟨id, homed, differs⟩ := differs
    obtain ⟨ws, trail, lasting⟩ := treads_apply follows edits
    have store : (a.apply d).store = (d.trail.run ws).store := congrArg Trail.store trail
    have touched : (a.apply d).touched = (d.trail.run ws).touched := congrArg Trail.touched trail
    have after := housed'.gathered differ wooded' member
    rw [store] at lasting after differs
    rw [touched]
    exact Trail.touched_of_change lasting (housed.gathered differ wooded member) after homed differs
  · right
    push Not at differs
    exact trees_kept housed housed' differ differ wooded wooded' member member differs

end Document

end MarkupEditor
