import MarkupEditor.Proofs.Document.Histories
import MarkupEditor.Proofs.Document.InPlace
import MarkupEditor.Proofs.Session.Pending
import MarkupEditor.Session.InPlace

namespace MarkupEditor

-- The second document comes from the first by writes to its store, and anything but the entries may change besides.
inductive Document.Worked (d : Document) : Document → Prop where
  | nothing : Worked d d
  | wrote {d' : Document} (before : Worked d d') (id : String) (value : Option Record) : Worked d (d'.replay id value)
  | besides {d' d'' : Document} (before : Worked d d') (store : d''.store = d'.store) (instances : d''.instances = d'.instances) :
      Worked d d''

theorem Document.Worked.serves {d d' : Document} (worked : Worked d d') (serves : d.instances.Serves d.store) : d'.instances.Serves d'.store := by
  induction worked with
  | nothing => exact serves
  | wrote _ id value ih => exact serves_replay ih id value
  | besides _ store instances ih => rwa [store, instances]

theorem Document.Worked.of_edited {d d' : Document} (edited : Edited d d') : Worked d d' := by
  induction edited with
  | nothing => exact .nothing
  | @write d' _ id value ih =>
    unfold Document.write
    split
    · exact ih
    · exact .besides (.wrote ih id value) rfl rfl
  | view _ _ _ ih => exact .besides ih rfl rfl

namespace Session

variable {σ : Type} {s s' : Session σ} {guards : Nat} {path : String}

-- The instances are in step with the store, and nothing was touched that is not marked.
structure InStep (s : Session σ) : Prop where
  serves : s.document.instances.Serves s.document.store
  noted : s.document.touched = []

theorem InStep.new (storage : σ) (config : Config) : InStep (new storage config) := ⟨Instances.serves_ofStore Store.empty 0, rfl⟩

theorem InStep.edited (d : Document) (serves : d.instances.Serves d.store) : (s.edited d).InStep := by
  unfold Session.edited
  split <;> exact ⟨serves, rfl⟩

theorem withDocument_self (noted : s.document.touched = []) : s.withDocument s.document = s := by
  rw [withDocument, ← noted]

namespace Action

theorem run_unmarked {α : Type} {act : Document.Action α} {result : Except EditError (α × Document)} (noted : s.document.touched = [])
    (ran : act.run s.document = unlessFailed s.document result) :
    (unmarked (onDocument act)).run ⟨s, guards⟩ =
      unlessFailed ⟨s, guards⟩ ((result.mapError .edit).map fun (a, d) => (a, ⟨s.withDocument d, guards⟩)) := by
  have taken : ∀ d, Guarded.taken ⟨s, guards + 1⟩ d = ⟨s.withDocument d, guards + 1⟩ := fun d => by
    rw [Guarded.taken, if_neg (Nat.succ_ne_zero guards)]
  have acted : (onDocument act).run ⟨s, guards + 1⟩ =
      unlessFailed ⟨s, guards + 1⟩ ((result.mapError .edit).map fun (a, d) => (a, ⟨s.withDocument d, guards + 1⟩)) := by
    simp only [EStateM.run, onDocument] at ran ⊢
    rw [ran]
    cases result with
    | error e => simp only [unlessFailed, taken, withDocument_self noted, Except.mapError, Except.map]
    | ok done => simp only [unlessFailed, taken, Except.mapError, Except.map]
  simp only [unmarked, EStateM.run_bind, EStateM.run_modify, run_finally, acted]
  cases result <;> rfl

variable [Storage σ]

theorem run_readIn (inStep : s.InStep) {entries : SourceTree → Document.Action Handle} {result : SourceTree → Except EditError (Handle × Document)}
    (ran : ∀ tree, (entries tree).run s.document = unlessFailed s.document (result tree)) :
    (readIn path entries).run ⟨s, guards⟩ = unlessFailed ⟨s, guards⟩ (match s.source path with
      | .error e => .error e
      | .ok tree =>
        match result tree with
        | .error e => .error (.edit e)
        | .ok (_, d) => .ok ((), ⟨s.withDocument d, guards⟩)) := by
  rw [readIn, EStateM.run_bind, EStateM.run_get]
  dsimp only
  rw [EStateM.run_bind, run_ofExcept]
  cases s.source path with
  | error e => rfl
  | ok tree =>
    simp only [Except.map, unlessFailed, EStateM.run_bind, run_unmarked inStep.noted (ran tree)]
    cases result tree <;> rfl

theorem run_openFile (inStep : s.InStep) (guards : Nat) (path : String) :
    (openFile path).run ⟨s, guards⟩ = unlessFailed ⟨s, guards⟩ ((s.openFile path).map fun s => ((), ⟨s, guards⟩)) := by
  rw [openFile, Session.openFile, EStateM.run_bind, EStateM.run_get]
  dsimp only
  split
  · rfl
  · rw [EStateM.run_bind, run_readIn inStep (Document.Action.run_load inStep.serves path)]
    cases s.source path with
    | error e => rfl
    | ok tree =>
      dsimp only
      cases s.document.load path tree <;> rfl

theorem run_reopenFile (inStep : s.InStep) (guards : Nat) (path : String) :
    (reopenFile path).run ⟨s, guards⟩ = unlessFailed ⟨s, guards⟩ ((s.reopenFile path).map fun s => ((), ⟨s, guards⟩)) := by
  rw [reopenFile, Session.reopenFile, EStateM.run_bind, EStateM.run_get]
  dsimp only
  split
  · rw [EStateM.run_bind, run_readIn inStep (Document.Action.run_reload s.document path)]
    cases s.source path with
    | error e => rfl
    | ok tree =>
      dsimp only
      cases s.document.reload path tree <;> rfl
  · rfl

omit [Storage σ]

theorem run_closeFile (inStep : s.InStep) (guards : Nat) (path : String) :
    (closeFile path).run ⟨s, guards⟩ = unlessFailed ⟨s, guards⟩ ((s.closeFile path).map fun s => ((), ⟨s, guards⟩)) := by
  rw [closeFile, Session.closeFile, EStateM.run_bind, run_unmarked inStep.noted (Document.Action.run_close s.document path)]
  cases s.document.close path with
  | error e => rfl
  | ok d =>
    simp only [change, unlessFailed, Except.map, Except.mapError, EStateM.run_bind, EStateM.run_modify, EStateM.run_get]
    split <;> rfl

theorem run_setActive (s : Session σ) (guards : Nat) (path : String) :
    (setActive path).run ⟨s, guards⟩ = unlessFailed ⟨s, guards⟩ ((s.setActive path).map fun s => ((), ⟨s, guards⟩)) := by
  rw [setActive, Session.setActive, EStateM.run_bind, EStateM.run_get]
  dsimp only
  split <;> rfl

end Action

inductive FileAction where
  | opening
  | reopening
  | closing
  | activating

variable [Storage σ]

namespace FileAction

def run (path : String) : FileAction → Action σ Unit
  | opening => .openFile path
  | reopening => .reopenFile path
  | closing => .closeFile path
  | activating => .setActive path

def result (s : Session σ) (path : String) : FileAction → Except SessionError (Session σ)
  | opening => s.openFile path
  | reopening => s.reopenFile path
  | closing => s.closeFile path
  | activating => s.setActive path

theorem run_eq (inStep : s.InStep) (guards : Nat) (path : String) (a : FileAction) :
    (a.run path).run ⟨s, guards⟩ = unlessFailed ⟨s, guards⟩ ((a.result s path).map fun s => ((), ⟨s, guards⟩)) := by
  cases a with
  | opening => exact Action.run_openFile inStep guards path
  | reopening => exact Action.run_reopenFile inStep guards path
  | closing => exact Action.run_closeFile inStep guards path
  | activating => exact Action.run_setActive s guards path

theorem inStep (inStep : s.InStep) {a : FileAction} (done : a.result s path = .ok s') :
    s'.InStep ∧ ∀ other ∈ s'.pending.ids, other ∈ s.pending.ids := by
  have turned := fun {a : Act} (turns : a.file? = some path) => Document.serves_turned inStep.serves turns
  have kept : ∀ other ∈ (s.pending.erase path).ids, other ∈ s.pending.ids := fun _ marked => (IdSet.mem_erase.mp marked).1
  cases a with
  | opening =>
    rcases openFile_cases done with ⟨_, rfl⟩ | ⟨_, tree, root, d, loaded, rfl⟩
    · exact ⟨⟨inStep.serves, inStep.noted⟩, fun _ marked => marked⟩
    · have served := turned (a := .load path tree) rfl
      rw [Act.apply, loaded] at served
      exact ⟨⟨served, rfl⟩, fun _ marked => marked⟩
  | reopening =>
    obtain ⟨tree, root, d, loaded, rfl⟩ := reopenFile_cases done
    have served := turned (a := .reload path tree) rfl
    rw [Act.apply, loaded] at served
    exact ⟨⟨served, rfl⟩, kept⟩
  | closing =>
    obtain ⟨d, active, closed, rfl⟩ := closeFile_cases done
    have served := turned (a := .close path) rfl
    rw [Act.apply, closed] at served
    exact ⟨⟨served, rfl⟩, kept⟩
  | activating =>
    have done : s.setActive path = .ok s' := done
    unfold setActive at done
    split at done
    · obtain rfl := Except.ok.inj done
      exact ⟨⟨inStep.serves, inStep.noted⟩, fun _ marked => marked⟩
    · cases done

end FileAction

namespace InStep

theorem saveFile (inStep : s.InStep) (path : String) : (s.saveFile path).2.InStep := by
  unfold Session.saveFile
  split
  · exact inStep
  · dsimp only
    split
    · exact ⟨inStep.serves, inStep.noted⟩
    · split
      · exact ⟨inStep.serves, inStep.noted⟩
      · rename_i d numbered
        obtain ⟨⟨files, rfl⟩, _⟩ := Document.renumber_frame numbered
        exact ⟨inStep.serves, rfl⟩

theorem saveAll (inStep : s.InStep) (saved paths : List String) : (s.saveAll saved paths).2.InStep := by
  induction paths generalizing s saved with
  | nil => exact inStep
  | cons path rest ih =>
    have written := inStep.saveFile path
    rw [Session.saveAll]
    split
    · split
      · rename_i s' done
        rw [done] at written
        exact ih written _
      · rename_i e s' failed
        rw [failed] at written
        exact ⟨written.serves, written.noted⟩
    · exact ih inStep saved

theorem save (inStep : s.InStep) : s.save.2.InStep := by
  unfold Session.save
  split
  · exact inStep
  · rename_i deadline _
    exact saveAll (s := { s with clock := max s.clock deadline, deadline := none, pending := {} }) ⟨inStep.serves, inStep.noted⟩ [] _

end InStep

-- The sessions that can come about. Documents are edited by any writes, and revealing a node is opening its file and then
-- changing what is selected and expanded. The storage and the receivers may change at any time.
inductive Reached : Session σ → Prop where
  | new (storage : σ) (config : Config) : Reached (new storage config)
  | done {s : Session σ} {g : Guarded σ} {path : String} {a : FileAction} (before : Reached s) (done : (a.run path).run ⟨s, 0⟩ = .ok () g) :
      Reached g.session
  | failed {s : Session σ} {g : Guarded σ} {path : String} {a : FileAction} {e : SessionError} (before : Reached s)
      (failed : (a.run path).run ⟨s, 0⟩ = .error e g) : Reached g.session
  | edited {s : Session σ} {d : Document} (before : Reached s) (worked : s.document.Worked d) : Reached (s.edited d)
  | saved {s : Session σ} (before : Reached s) : Reached s.save.2
  | advanced {s : Session σ} (before : Reached s) (ms : Nat) : Reached (s.advance ms)
  | stored {s : Session σ} (before : Reached s) (storage : σ) : Reached { s with storage }
  | received {s : Session σ} (before : Reached s) (edits : Feed PublishedEdit) : Reached { s with edits }

theorem FileAction.run_ok (inStep : s.InStep) {g : Guarded σ} {a : FileAction} (done : (a.run path).run ⟨s, guards⟩ = .ok () g) :
    ∃ s', a.result s path = .ok s' ∧ g = ⟨s', guards⟩ := by
  rw [a.run_eq inStep] at done
  cases same : a.result s path with
  | error e =>
    rw [same] at done
    cases done
  | ok s' =>
    rw [same] at done
    cases done
    exact ⟨s', rfl, rfl⟩

theorem Reached.inStep (reached : Reached s) : s.InStep := by
  induction reached with
  | new storage config => exact .new storage config
  | done _ done ih =>
    obtain ⟨s', result, rfl⟩ := FileAction.run_ok ih done
    exact (FileAction.inStep ih result).1
  | failed _ failed ih =>
    rw [FileAction.run_eq ih] at failed
    rw [unlessFailed_error failed]
    exact ih
  | edited _ worked ih => exact .edited _ (worked.serves ih.serves)
  | saved _ ih => exact ih.save
  | advanced _ ms ih => exact ⟨ih.serves, ih.noted⟩
  | stored _ storage ih => exact ⟨ih.serves, ih.noted⟩
  | received _ edits ih => exact ⟨ih.serves, ih.noted⟩

theorem Reached.of_result (reached : Reached s) {a : FileAction} (done : a.result s path = .ok s') : Reached s' := by
  have ran : (a.run path).run ⟨s, 0⟩ = .ok () ⟨s', 0⟩ := by
    rw [a.run_eq reached.inStep, done]
    rfl
  exact .done reached ran

-- Whatever is done to a file, the session with its guards is as before when it fails. When it does not fail the session is the new
-- one, and no further file is marked in it.
theorem failure_changes_nothing (reached : Reached s) (guards : Nat) (path : String) (a : FileAction) :
    (∀ e g, (a.run path).run ⟨s, guards⟩ = .error e g → g = ⟨s, guards⟩) ∧
      ∀ g, (a.run path).run ⟨s, guards⟩ = .ok () g →
        a.result s path = .ok g.session ∧ g.guards = guards ∧ ∀ other ∈ g.session.pending.ids, other ∈ s.pending.ids := by
  constructor
  · intro e g failed
    rw [a.run_eq reached.inStep] at failed
    exact unlessFailed_error failed
  · intro g done
    obtain ⟨s', result, rfl⟩ := FileAction.run_ok reached.inStep done
    exact ⟨result, rfl, (FileAction.inStep reached.inStep result).2⟩

def spoiled (s : Session MemoryFiles) : Session MemoryFiles :=
  let s := s.edited (s.document.setClass (File.nodeId "a.jsx" 0 2) "wide")
  { s with storage := { texts := s.storage.texts.set "a.jsx" "x = <p>;" } }

theorem failure_changes_nothing_spoiled :
    ∃ s : Session MemoryFiles, Reached s ∧ (s.pending.ids, s.text? "a.jsx") = (["a.jsx"], some "x = <p className=\"wide\"><b /></p>;") ∧
      ∃ e, (FileAction.reopening.run "a.jsx").run ⟨s, 0⟩ = .error e ⟨s, 0⟩ := by
  have shown : ((new drafts {}).openFile "a.jsx").toOption.map (fun s => let s := spoiled s
      (s.pending.ids, s.text? "a.jsx", (s.reopenFile "a.jsx").toOption.isNone)) =
      some (["a.jsx"], some "x = <p className=\"wide\"><b /></p>;", true) := by
    decide +kernel
  obtain ⟨s, opened, facts⟩ := Option.map_eq_some_iff.mp shown
  obtain ⟨pending, text, fails⟩ := by simpa only [Prod.mk.injEq] using facts
  have opened : FileAction.opening.result (new drafts {}) "a.jsx" = .ok s := Document.eq_ok_of_toOption opened
  have worked : s.document.Worked (s.document.setClass (File.nodeId "a.jsx" 0 2) "wide") := by
    unfold Document.setClass
    split
    · exact .of_edited (.of_update _ _ _)
    · exact .nothing
  have reached : Reached (spoiled s) := (((Reached.new drafts {}).of_result opened).edited worked).stored _
  refine ⟨spoiled s, reached, by rw [pending, text], ?_⟩
  cases ran : (FileAction.reopening.run "a.jsx").run ⟨spoiled s, 0⟩ with
  | ok _ g =>
    obtain ⟨s', result, _⟩ := FileAction.run_ok reached.inStep ran
    have result : (spoiled s).reopenFile "a.jsx" = .ok s' := result
    rw [result] at fails
    cases fails
  | error e g =>
    obtain rfl := (failure_changes_nothing reached 0 "a.jsx" .reopening).1 e g ran
    exact ⟨e, rfl⟩

end Session

end MarkupEditor
