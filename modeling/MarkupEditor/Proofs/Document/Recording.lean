import MarkupEditor.Document.Edit
import MarkupEditor.Proofs.History.Timeline
import MarkupEditor.Proofs.Store.Below
import MarkupEditor.Proofs.Store.Instances

namespace MarkupEditor

namespace Document

def contents (d : Document) : Contents Unit Record := fun _ => d.store.get?

theorem replay_eq (d : Document) (id : String) (value : Option Record) :
    (d.replay id value).contents = d.contents.put () id value ∧ (d.replay id value).history = d.history ∧
      (d.replay id value).files = d.files ∧ (d.replay id value).classAttribute = d.classAttribute ∧ (d.replay id value).now = d.now := by
  have written : ∀ key, (d.store.write id value).1.get? key = if key = id then value else d.store.get? key := d.store.get?_write id value
  unfold replay
  split
  · rename_i store same
    refine ⟨?_, rfl, rfl, rfl, rfl⟩
    have nothing := d.store.write_eq id value
    rw [same] at nothing
    split at nothing
    · rename_i absent
      funext k key
      by_cases here : key = id <;> simp [contents, Contents.put, here, absent]
    · cases nothing
  · rename_i store c same
    refine ⟨?_, rfl, rfl, rfl, rfl⟩
    rw [same] at written
    funext k key
    simp [contents, Contents.put, written]

theorem write_eq (d : Document) (id : String) (value : Option Record) :
    (d.write id value).contents = d.contents.put () id value ∧
      (d.write id value).files = d.files ∧ (d.write id value).classAttribute = d.classAttribute ∧ (d.write id value).now = d.now ∧
      ((d.write id value).history = d.history.stage d.now () ⟨id, d.contents () id, value⟩ ∨
        (d.write id value).history = d.history ∧ d.contents.put () id value = d.contents) := by
  obtain ⟨replayed, history, files, classes, now⟩ := d.replay_eq id value
  have change := d.store.write_eq id value
  unfold write
  split
  · rename_i store same
    have kept : d.replay id value = d := by
      unfold replay
      rw [same]
    rw [kept] at replayed
    exact ⟨replayed, rfl, rfl, rfl, .inr ⟨rfl, replayed.symm⟩⟩
  · rename_i store c same
    rw [same] at change
    split at change
    · cases change
    · cases change
      exact ⟨replayed, files, classes, now, .inl rfl⟩

@[simp] theorem write_contents (d : Document) (id : String) (value : Option Record) :
    (d.write id value).contents = d.contents.put () id value := (d.write_eq id value).1

theorem write_limits (d : Document) (id : String) (value : Option Record) :
    (d.write id value).history.window = d.history.window ∧
      (d.write id value).history.stack.maxLevels = d.history.stack.maxLevels := by
  obtain ⟨_, _, _, _, staged | ⟨kept, _⟩⟩ := d.write_eq id value
  · rw [staged]
    exact ⟨History.stage_window .., History.stage_maxLevels ..⟩
  · rw [kept]
    exact ⟨rfl, rfl⟩

-- The second document comes from the first by writes, besides what is selected and hovered.
inductive Edited (d : Document) : Document → Prop where
  | nothing : Edited d d
  | write {d' : Document} (before : Edited d d') (id : String) (value : Option Record) : Edited d (d'.write id value)
  | view {d' : Document} (before : Edited d d') (selection : IdSet) (hovered : Option String) : Edited d { d' with selection, hovered }

namespace Edited

variable {d d' d'' : Document}

theorem trans (first : Edited d d') (second : Edited d' d'') : Edited d d'' := by
  induction second with
  | nothing => exact first
  | write _ id value ih => exact .write ih id value
  | view _ selection hovered ih => exact .view ih selection hovered

theorem of_update (d : Document) (id : String) (f : Record → Record) : Edited d (d.update id f) := by
  unfold update
  split
  · exact .write .nothing id _
  · exact .nothing

theorem foldl {β : Type} {step : Document → β → Document} (each : ∀ d b, Edited d (step d b)) (bs : List β) (d : Document) :
    Edited d (bs.foldl step d) := by
  induction bs generalizing d with
  | nil => exact .nothing
  | cons b bs ih => exact (each d b).trans (ih (step d b))

theorem of_removeEntry (d : Document) (id : String) : Edited d (d.removeEntry id) := .write (.view .nothing _ _) id none

theorem of_removeBelow (d : Document) (id : String) : Edited d (d.removeBelow id) := foldl of_removeEntry _ d

theorem of_remove (d : Document) (id : String) : Edited d (d.remove id) := (of_removeBelow d id).trans (of_removeEntry _ id)

theorem frame (edited : Edited d d') :
    d'.files = d.files ∧ d'.classAttribute = d.classAttribute ∧ d'.now = d.now ∧ d'.history.window = d.history.window ∧
      d'.history.stack.maxLevels = d.history.stack.maxLevels := by
  induction edited with
  | nothing => exact ⟨rfl, rfl, rfl, rfl, rfl⟩
  | @write d' _ id value ih =>
    obtain ⟨files, classes, now, window, levels⟩ := ih
    obtain ⟨_, sameFiles, sameClasses, sameNow, _⟩ := d'.write_eq id value
    obtain ⟨sameWindow, sameLevels⟩ := d'.write_limits id value
    exact ⟨sameFiles.trans files, sameClasses.trans classes, sameNow.trans now, sameWindow.trans window, sameLevels.trans levels⟩
  | view _ _ _ ih => exact ih

theorem files (edited : Edited d d') : d'.files = d.files := edited.frame.1

theorem classAttribute (edited : Edited d d') : d'.classAttribute = d.classAttribute := edited.frame.2.1

theorem paused (edited : Edited d d') (paused : d.history.paused ≠ 0) : d'.history = d.history := by
  induction edited with
  | nothing => rfl
  | @write d' _ id value ih =>
    obtain ⟨_, _, _, _, staged | ⟨kept, _⟩⟩ := d'.write_eq id value
    · rw [staged, ih, History.stage, History.recording, if_neg (by simpa using paused)]
    · exact kept.trans ih
  | view _ _ _ ih => exact ih

theorem records {t : Timeline Unit Record} (edited : Edited d d') (records : d.history.Records t) (current : t.current = d.contents) :
    ∃ t', d'.history.Records t' ∧ t'.current = d'.contents ∧
      (t' = t ∨ t' = t.change d.history.window d.history.stack.maxLevels d.now d'.contents) := by
  induction edited with
  | nothing => exact ⟨t, records, current, .inl rfl⟩
  | @write d' edited id value ih =>
    obtain ⟨t', records', current', reached⟩ := ih
    obtain ⟨_, _, now, window, levels⟩ := edited.frame
    obtain ⟨written, _, _, _, staged | ⟨kept, nothing⟩⟩ := d'.write_eq id value
    · have recorded := History.records_stage records' d.now () id value
      rw [current', window, levels] at recorded
      rw [staged, written, now]
      refine ⟨_, recorded, rfl, .inr ?_⟩
      rcases reached with rfl | rfl
      · rfl
      · exact Timeline.change_change ..
    · rw [kept, written, nothing]
      exact ⟨t', records', current', reached⟩
  | view _ _ _ ih => exact ih

end Edited

-- The document is at the present of a timeline in which something always holds.
def Follows (P : Contents Unit Record → Prop) (d : Document) : Prop :=
  ∃ t : Timeline Unit Record, d.history.Records t ∧ t.current = d.contents ∧ t.Always P

namespace Follows

variable {P : Contents Unit Record → Prop} {d d' : Document}

theorem present (follows : Follows P d) : P d.contents := by
  obtain ⟨t, _, current, always⟩ := follows
  exact current ▸ always.1

theorem recording (follows : Follows P d) : d.history.paused = 0 := by
  obtain ⟨t, records, _⟩ := follows
  exact records.recording

theorem edited (follows : Follows P d) (edited : Edited d d') (holds : P d'.contents) : Follows P d' := by
  obtain ⟨t, records, current, always⟩ := follows
  obtain ⟨t', records', current', rfl | rfl⟩ := edited.records records current
  · exact ⟨t', records', current', always⟩
  · exact ⟨_, records', current', Timeline.always_change always holds _ _ _⟩

theorem cleared {h : History Unit Record} (paused : h.paused = 1) (same : d.history = h.resume.clear) (holds : P d.contents) :
    Follows P d := by
  refine ⟨{ current := d.contents }, ?_, rfl, Timeline.always_start holds⟩
  rw [same]
  exact History.records_start _ (by simp [History.clear, History.close, History.resume, paused]) rfl rfl rfl

end Follows

theorem replayAll_eq (d : Document) (writes : List (Write Unit Record)) :
    (d.replayAll writes).contents = d.contents.replay writes ∧ (d.replayAll writes).history = d.history ∧
      (d.replayAll writes).files = d.files ∧ (d.replayAll writes).classAttribute = d.classAttribute := by
  unfold replayAll
  induction writes generalizing d with
  | nil => exact ⟨rfl, rfl, rfl, rfl⟩
  | cons w writes ih =>
    obtain ⟨contents, history, files, classes, _⟩ := d.replay_eq w.id w.value
    obtain ⟨contents', history', files', classes'⟩ := ih (d.replay w.id w.value)
    refine ⟨?_, history'.trans history, files'.trans files, classes'.trans classes⟩
    rw [List.foldl_cons, contents', contents]
    rfl

theorem undo_eq (d : Document) :
    d.undo.2.contents = d.contents.replay (d.history.undo.1.getD []) ∧ d.undo.2.history = d.history.undo.2 ∧
      d.undo.2.files = d.files ∧ d.undo.2.classAttribute = d.classAttribute := by
  unfold undo
  split <;> rename_i same <;> rw [same]
  · exact replayAll_eq _ _
  · exact ⟨rfl, rfl, rfl, rfl⟩

theorem redo_eq (d : Document) :
    d.redo.2.contents = d.contents.replay (d.history.redo.1.getD []) ∧ d.redo.2.history = d.history.redo.2 ∧
      d.redo.2.files = d.files ∧ d.redo.2.classAttribute = d.classAttribute := by
  unfold redo
  split <;> rename_i same <;> rw [same]
  · exact replayAll_eq _ _
  · exact ⟨rfl, rfl, rfl, rfl⟩

theorem Follows.undo {P : Contents Unit Record → Prop} {d : Document} (follows : Follows P d) : Follows P d.undo.2 := by
  obtain ⟨t, records, current, always⟩ := follows
  obtain ⟨contents, history, _⟩ := d.undo_eq
  refine ⟨t.undo.2, ?_, ?_, Timeline.always_undo always⟩
  · rw [history]
    exact (History.records_undo records).1
  · rw [contents, ← current, History.replay_undo records]

theorem Follows.redo {P : Contents Unit Record → Prop} {d : Document} (follows : Follows P d) : Follows P d.redo.2 := by
  obtain ⟨t, records, current, always⟩ := follows
  obtain ⟨contents, history, _⟩ := d.redo_eq
  refine ⟨t.redo.2, ?_, ?_, Timeline.always_redo always⟩
  · rw [history]
    exact (History.records_redo records).1
  · rw [contents, ← current, History.replay_redo records]

-- The instances follow every write, whether or not it is recorded.
section

variable {d d' : Document} (serves : d.instances.Serves d.store)

include serves

theorem serves_replay (id : String) (value : Option Record) : (d.replay id value).instances.Serves (d.replay id value).store := by
  have change := d.store.write_eq id value
  unfold replay
  split
  · exact serves
  · rename_i store c same
    rw [same] at change
    split at change
    · cases change
    · obtain ⟨rfl, held⟩ := Prod.mk.inj change
      rw [Option.some.inj held]
      exact serves.note id value

theorem serves_write (id : String) (value : Option Record) : (d.write id value).instances.Serves (d.write id value).store := by
  unfold write
  split
  · exact serves
  · exact serves_replay serves id value

theorem serves_edited (edited : Edited d d') : d'.instances.Serves d'.store := by
  induction edited with
  | nothing => exact serves
  | write _ id value ih => exact serves_write ih id value
  | view _ _ _ ih => exact ih

theorem serves_replayAll (writes : List (Write Unit Record)) : (d.replayAll writes).instances.Serves (d.replayAll writes).store := by
  unfold replayAll
  induction writes generalizing d with
  | nil => exact serves
  | cons w writes ih => exact ih (serves_replay serves w.id w.value)

theorem serves_undo : d.undo.2.instances.Serves d.undo.2.store := by
  unfold undo
  split
  · rename_i writes history _
    exact serves_replayAll (d := { d with history }) serves writes
  · exact serves

theorem serves_redo : d.redo.2.instances.Serves d.redo.2.store := by
  unfold redo
  split
  · rename_i writes history _
    exact serves_replayAll (d := { d with history }) serves writes
  · exact serves

end

end Document

end MarkupEditor
