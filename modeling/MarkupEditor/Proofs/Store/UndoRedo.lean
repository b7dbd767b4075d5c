import MarkupEditor.Document.Record
import MarkupEditor.Proofs.History.Timeline
import MarkupEditor.Proofs.Store.Contents
import MarkupEditor.Store.Bench

namespace MarkupEditor

inductive BenchAct (κ α : Type) where
  | set (store : κ) (id : String) (value : α)
  | update (store : κ) (id : String) (f : α → α)
  | delete (store : κ) (id : String)
  | commit
  | undo
  | redo

namespace BenchAct

variable {κ α : Type}

def store? : BenchAct κ α → Option κ
  | set k .. => some k
  | update k .. => some k
  | delete k _ => some k
  | _ => none

end BenchAct

namespace Observed

variable {α : Type} {observers : List (Observer α)}

theorem announce_quiet (depth : Nat) (s : Store α) (c : Change α) (quiet : ∀ o ∈ observers, ∀ c, o.answers c = [])
    (all : List (Observer α)) : announce all depth s c observers = (s, observers.map (·, c)) := by
  induction observers with
  | nil => simp [announce]
  | cons o rest ih =>
    have silent := quiet o List.mem_cons_self c
    have later := ih fun p member => quiet p (List.mem_cons_of_mem _ member)
    simp [announce, silent, answer, later]

theorem write_quiet (depth : Nat) (s : Store α) (id : String) (value : Option α)
    (quiet : ∀ o ∈ observers, ∀ c, o.answers c = []) :
    write observers (depth + 1) s id value =
      ((s.write id value).1, match (s.write id value).2 with | none => [] | some c => observers.map (·, c)) := by
  rw [write]
  obtain ⟨after, change⟩ := s.write id value
  cases change with
  | none => rfl
  | some c => exact announce_quiet depth after c quiet observers

end Observed

namespace Bench

variable {κ α : Type}

def isHistory : Observer α → Bool
  | .history => true
  | _ => false

def tracks (b : Bench κ α) (k : κ) : Bool := (b.observers k).any isHistory

def Quiet (b : Bench κ α) : Prop := ∀ k, ∀ o ∈ b.observers k, ∀ c, o.answers c = []

def contents (b : Bench κ α) : Contents κ α := fun k id => (b.store k).get? id

variable [DecidableEq κ] [Placed α]

theorem hear_all (record : Bool) (k : κ) (c : Change α) (observers : List (Observer α)) (b : Bench κ α) :
    ((observers.map (·, c)).foldl (hear record k) b).stores = b.stores ∧
      ((observers.map (·, c)).foldl (hear record k) b).now = b.now ∧
      ((observers.map (·, c)).foldl (hear record k) b).history =
        if record ∧ observers.any isHistory then b.history.stage b.now k c else b.history := by
  induction observers generalizing b with
  | nil => simp
  | cons o rest ih =>
    obtain ⟨stores, now, history⟩ := ih (hear record k b (o, c))
    simp only [List.map_cons, List.foldl_cons, stores, now, history]
    cases o with
    | history =>
      cases record with
      | false => simp [hear]
      | true =>
        refine ⟨by simp [hear], by simp [hear], ?_⟩
        by_cases again : rest.any isHistory = true
        · simp [hear, again, isHistory, History.stage_stage]
        · simp [hear, again, isHistory]
    | log name copy => simp [hear, isHistory]
    | children => simp [hear, isHistory]
    | instances => simp [hear, isHistory]

theorem writeWith_quiet {b : Bench κ α} (quiet : b.Quiet) (record : Bool) (k : κ) (id : String) (value : Option α) :
    (b.writeWith record k id value).1.stores = assign b.stores k { b.stores k with store := ((b.store k).write id value).1 } ∧
      (b.writeWith record k id value).1.now = b.now ∧
      (b.writeWith record k id value).1.history =
        match ((b.store k).write id value).2 with
        | none => b.history
        | some c => if record ∧ b.tracks k then b.history.stage b.now k c else b.history := by
  have written := Observed.write_quiet ((b.stores k).store.size + 2) (b.store k) id value (quiet k)
  unfold writeWith
  simp only [observers, store] at written ⊢
  rw [written]
  cases change : ((b.stores k).store.write id value).2 with
  | none => simp
  | some c =>
    obtain ⟨stores, now, history⟩ := hear_all record k c (b.stores k).observers
      { b with stores := assign b.stores k { b.stores k with store := ((b.stores k).store.write id value).1 } }
    simp only [stores, now, history]
    exact ⟨trivial, trivial, rfl⟩

theorem writeWith_contents {b : Bench κ α} (quiet : b.Quiet) (record : Bool) (k : κ) (id : String) (value : Option α) :
    (b.writeWith record k id value).1.contents = b.contents.put k id value := by
  funext j key
  simp only [contents, store, (writeWith_quiet quiet record k id value).1, assign, Contents.put]
  by_cases here : j = k
  · subst here
    simp [Store.get?_write]
  · simp [here]

theorem writeWith_observers {b : Bench κ α} (quiet : b.Quiet) (record : Bool) (k : κ) (id : String) (value : Option α) :
    (b.writeWith record k id value).1.observers = b.observers := by
  funext j
  simp only [observers, (writeWith_quiet quiet record k id value).1, assign]
  by_cases here : j = k
  · simp [here]
  · simp [here]

def writeAll (record : Bool) (b : Bench κ α) (writes : List (Write κ α)) : Bench κ α :=
  writes.foldl (fun b w => (b.writeWith record w.store w.id w.value).1) b

theorem replay_eq_writeAll (b : Bench κ α) (writes : List (Write κ α)) : (b.replay writes).1 = b.writeAll false writes := by
  induction writes generalizing b with
  | nil => rfl
  | cons w ws ih => exact ih (b.writeWith false w.store w.id w.value).1

theorem writeAll_quiet {b : Bench κ α} (quiet : b.Quiet) (record : Bool) (writes : List (Write κ α)) :
    (b.writeAll record writes).contents = b.contents.replay writes ∧ (b.writeAll record writes).observers = b.observers ∧
      (record = false → (b.writeAll record writes).history = b.history) := by
  induction writes generalizing b with
  | nil => exact ⟨rfl, rfl, fun _ => rfl⟩
  | cons w ws ih =>
    have observers := writeWith_observers quiet record w.store w.id w.value
    have silent : (b.writeWith record w.store w.id w.value).1.Quiet := by
      unfold Quiet
      rw [observers]
      exact quiet
    obtain ⟨contents, kept, history⟩ := ih silent
    rw [writeWith_contents quiet] at contents
    refine ⟨contents, kept.trans observers, fun unrecorded => (history unrecorded).trans ?_⟩
    rw [(writeWith_quiet quiet record w.store w.id w.value).2.2, unrecorded]
    split <;> simp

theorem replay_quiet {b : Bench κ α} (quiet : b.Quiet) (writes : List (Write κ α)) :
    (b.replay writes).1.contents = b.contents.replay writes ∧ (b.replay writes).1.observers = b.observers ∧
      (b.replay writes).1.history = b.history := by
  obtain ⟨contents, observers, history⟩ := writeAll_quiet quiet false writes
  rw [replay_eq_writeAll]
  exact ⟨contents, observers, history rfl⟩

-- One act at a time of day; the answer tells whether an undo or a redo did something.
def step (b : Bench κ α) (time : Nat) (act : BenchAct κ α) : Bool × Bench κ α :=
  let b := { b with now := time }
  match act with
  | .set k id value => (true, (b.write k id (some value)).1)
  | .update k id f =>
    match (b.store k).get? id with
    | some value => (true, (b.write k id (some (f value))).1)
    | none => (false, b)
  | .delete k id => (true, (b.write k id none).1)
  | .commit => (true, { b with history := b.history.close })
  | .undo => (b.undo.1, b.undo.2.1)
  | .redo => (b.redo.1, b.redo.2.1)

def run (b : Bench κ α) (acts : List (Nat × BenchAct κ α)) : Bench κ α := acts.foldl (fun b a => (b.step a.1 a.2).2) b

end Bench

namespace Timeline

variable {κ α : Type} [DecidableEq κ]

def write (window maxLevels time : Nat) (t : Timeline κ α) (k : κ) (id : String) (value : Option α) : Timeline κ α :=
  if t.current k id = none ∧ value = none then t else t.change window maxLevels time (t.current.put k id value)

def step (window maxLevels : Nat) (t : Timeline κ α) (time : Nat) (act : BenchAct κ α) : Bool × Timeline κ α :=
  match act with
  | .set k id value => (true, t.write window maxLevels time k id (some value))
  | .update k id f =>
    match t.current k id with
    | some value => (true, t.write window maxLevels time k id (some (f value)))
    | none => (false, t)
  | .delete k id => (true, t.write window maxLevels time k id none)
  | .commit => (true, t.close)
  | .undo => t.undo
  | .redo => t.redo

def run (window maxLevels : Nat) (t : Timeline κ α) (acts : List (Nat × BenchAct κ α)) : Timeline κ α :=
  acts.foldl (fun t a => (t.step window maxLevels a.1 a.2).2) t

end Timeline

namespace Bench

variable {κ α : Type} [DecidableEq κ] [Placed α]

-- The timeline keeps whole contents, the bench only commands. Nothing is said of the views that observe the stores.
structure Follows (first b : Bench κ α) (t : Timeline κ α) : Prop where
  observers : b.observers = first.observers
  window : b.history.window = first.history.window
  levels : b.history.stack.maxLevels = first.history.stack.maxLevels
  records : b.history.Records t
  current : b.contents = t.current

omit [DecidableEq κ] [Placed α] in
theorem Follows.at_time {first b : Bench κ α} {t : Timeline κ α} (follows : Follows first b t) (time : Nat) :
    Follows first { b with now := time } t :=
  ⟨follows.observers, follows.window, follows.levels, follows.records, follows.current⟩

omit [DecidableEq κ] [Placed α] in
theorem Follows.quiet {first b : Bench κ α} {t : Timeline κ α} (follows : Follows first b t) (quiet : first.Quiet) :
    b.Quiet := by
  unfold Quiet
  rw [follows.observers]
  exact quiet

theorem Follows.write {first b : Bench κ α} {t : Timeline κ α} (follows : Follows first b t) (quiet : first.Quiet) {k : κ}
    (tracked : first.tracks k = true) (id : String) (value : Option α) :
    Follows first (b.write k id value).1
      (t.write first.history.window first.history.stack.maxLevels b.now k id value) := by
  have silent := follows.quiet quiet
  obtain ⟨observers, window, levels, records, current⟩ := follows
  have recorded : b.tracks k = true := by
    unfold tracks
    rw [observers]
    exact tracked
  have here : (b.store k).get? id = t.current k id := congrFun (congrFun current k) id
  have written := (writeWith_quiet silent true k id value).2.2
  have contents := writeWith_contents silent true k id value
  have kept := writeWith_observers silent true k id value
  simp only [Store.write_eq, here] at written
  rw [current] at contents
  unfold Timeline.write Bench.write
  by_cases nothing : t.current k id = none ∧ value = none
  · obtain ⟨absent, rfl⟩ := nothing
    have unchanged : t.current.put k id none = t.current := by
      funext j key
      unfold Contents.put
      split
      · rename_i same
        rw [same.1, same.2, absent]
      · rfl
    simp only [absent, and_self, if_true] at written ⊢
    refine ⟨kept.trans observers, ?_, ?_, ?_, contents.trans unchanged⟩
    · rw [written]
      exact window
    · rw [written]
      exact levels
    · rw [written]
      exact records
  · simp only [nothing, if_false, recorded, and_self, if_true] at written ⊢
    refine ⟨kept.trans observers, ?_, ?_, ?_, contents⟩
    · rw [written, History.stage_window]
      exact window
    · rw [written, History.stage_maxLevels]
      exact levels
    · rw [written, ← window, ← levels]
      exact History.records_stage records b.now k id value

theorem Follows.replay {first b : Bench κ α} {t next : Timeline κ α} {history : History κ α} {writes : List (Write κ α)}
    (follows : Follows first b t) (quiet : first.Quiet) (records : history.Records next)
    (limits : history.window = b.history.window ∧ history.stack.maxLevels = b.history.stack.maxLevels)
    (leads : t.current.replay writes = next.current) : Follows first ({ b with history }.replay writes).1 next := by
  have steady : ({ b with history } : Bench κ α).Quiet := follows.quiet quiet
  obtain ⟨contents, kept, same⟩ := replay_quiet steady writes
  refine ⟨kept.trans follows.observers, ?_, ?_, ?_, ?_⟩
  · rw [same]
    exact limits.1.trans follows.window
  · rw [same]
    exact limits.2.trans follows.levels
  · rw [same]
    exact records
  · rw [contents, ← leads, ← follows.current]
    rfl

theorem Follows.undo {first b : Bench κ α} {t : Timeline κ α} (follows : Follows first b t) (quiet : first.Quiet) :
    Follows first b.undo.2.1 t.undo.2 ∧ b.undo.1 = t.undo.1 := by
  have limits := History.undo_limits b.history
  have leads := History.replay_undo follows.records
  obtain ⟨records, answer⟩ := History.records_undo follows.records
  unfold Bench.undo
  cases undone : b.history.undo with
  | mk writes history =>
    rw [undone] at records answer limits leads
    cases writes with
    | none => exact ⟨follows.replay quiet records limits leads, answer⟩
    | some writes => exact ⟨follows.replay quiet records limits leads, answer⟩

theorem Follows.redo {first b : Bench κ α} {t : Timeline κ α} (follows : Follows first b t) (quiet : first.Quiet) :
    Follows first b.redo.2.1 t.redo.2 ∧ b.redo.1 = t.redo.1 := by
  have limits := History.redo_limits b.history
  have leads := History.replay_redo follows.records
  obtain ⟨records, answer⟩ := History.records_redo follows.records
  unfold Bench.redo
  cases redone : b.history.redo with
  | mk writes history =>
    rw [redone] at records answer limits leads
    cases writes with
    | none => exact ⟨follows.replay quiet records limits leads, answer⟩
    | some writes => exact ⟨follows.replay quiet records limits leads, answer⟩

theorem Follows.step {first b : Bench κ α} {t : Timeline κ α} (follows : Follows first b t) (quiet : first.Quiet) (time : Nat)
    {act : BenchAct κ α} (tracked : ∀ k, act.store? = some k → first.tracks k = true) :
    Follows first (b.step time act).2 (t.step first.history.window first.history.stack.maxLevels time act).2 ∧
      (b.step time act).1 = (t.step first.history.window first.history.stack.maxLevels time act).1 := by
  have now := follows.at_time time
  cases act with
  | set k id value => exact ⟨now.write quiet (tracked k rfl) id _, rfl⟩
  | update k id f =>
    have here : (b.store k).get? id = t.current k id := congrFun (congrFun follows.current k) id
    have same : (({ b with now := time } : Bench κ α).store k).get? id = t.current k id := here
    simp only [Bench.step, Timeline.step, same]
    cases t.current k id with
    | none => exact ⟨now, rfl⟩
    | some value => exact ⟨now.write quiet (tracked k rfl) id _, rfl⟩
  | delete k id => exact ⟨now.write quiet (tracked k rfl) id _, rfl⟩
  | commit => exact ⟨⟨now.observers, now.window, now.levels, History.records_close now.records, now.current⟩, rfl⟩
  | undo => exact now.undo quiet
  | redo => exact now.redo quiet

theorem Follows.run {first b : Bench κ α} {t : Timeline κ α} (follows : Follows first b t) (quiet : first.Quiet)
    {acts : List (Nat × BenchAct κ α)} (tracked : ∀ a ∈ acts, ∀ k, a.2.store? = some k → first.tracks k = true) :
    Follows first (b.run acts) (t.run first.history.window first.history.stack.maxLevels acts) := by
  induction acts generalizing b t with
  | nil => exact follows
  | cons a rest ih =>
    have one := (follows.step quiet a.1 (tracked a List.mem_cons_self)).1
    exact ih one fun a member => tracked a (List.mem_cons_of_mem _ member)

-- Nothing has been recorded yet, recording is on and no observer writes.
structure Fresh (b : Bench κ α) : Prop where
  quiet : b.Quiet
  recording : b.history.paused = 0
  closed : b.history.lastStaged = none
  done : b.history.stack.done = []
  undone : b.history.stack.undone = []

omit [DecidableEq κ] [Placed α] in
theorem Fresh.follows {b : Bench κ α} (fresh : b.Fresh) : Follows b b { current := b.contents } :=
  ⟨rfl, rfl, rfl, History.records_start _ fresh.recording fresh.closed fresh.done fresh.undone, rfl⟩

theorem undo_false_stores {b : Bench κ α} (nothing : b.undo.1 = false) : b.undo.2.1.stores = b.stores := by
  unfold Bench.undo at nothing ⊢
  split at nothing
  · simp at nothing
  · rfl

theorem redo_false_stores {b : Bench κ α} (nothing : b.redo.1 = false) : b.redo.2.1.stores = b.stores := by
  unfold Bench.redo at nothing ⊢
  split at nothing
  · simp at nothing
  · rfl

def back (b : Bench κ α) : Nat → Bench κ α
  | 0 => b
  | n + 1 => (b.back n).undo.2.1

def forth (b : Bench κ α) : Nat → Bench κ α
  | 0 => b
  | n + 1 => (b.forth n).redo.2.1

theorem Follows.back {first b : Bench κ α} {t : Timeline κ α} (follows : Follows first b t) (quiet : first.Quiet) (n : Nat) :
    Follows first (b.back n) (t.back n) := by
  induction n with
  | zero => exact follows
  | succ n ih => exact (ih.undo quiet).1

theorem Follows.forth {first b : Bench κ α} {t : Timeline κ α} (follows : Follows first b t) (quiet : first.Quiet) (n : Nat) :
    Follows first (b.forth n) (t.forth n) := by
  induction n with
  | zero => exact follows
  | succ n ih => exact (ih.redo quiet).1

theorem Follows.redo_after_write {first b : Bench κ α} {t : Timeline κ α} (follows : Follows first b t) (quiet : first.Quiet)
    {k : κ} (tracked : first.tracks k = true) (id : String) (value : Option α)
    (changes : (b.store k).get? id ≠ none ∨ value ≠ none) : (b.write k id value).1.redo.1 = false := by
  have here : (b.store k).get? id = t.current k id := congrFun (congrFun follows.current k) id
  have nothing : ¬(t.current k id = none ∧ value = none) := by
    rw [here] at changes
    rintro ⟨absent, none⟩
    exact changes.elim (· absent) (· none)
  rw [((follows.write quiet tracked id value).redo quiet).2]
  simp only [Timeline.write, nothing, if_false, Timeline.redo, Timeline.change]

-- Undo and redo are exact: they go to the start and to the end of a command, as the contents stood then.
theorem undo_redo_exact (b : Bench κ α) (fresh : b.Fresh) (acts : List (Nat × BenchAct κ α))
    (tracked : ∀ a ∈ acts, ∀ k, a.2.store? = some k → b.tracks k = true) :
    let now := b.run acts
    let t := ({ current := b.contents } : Timeline κ α).run b.history.window b.history.stack.maxLevels acts
    now.contents = t.current ∧
      (now.undo.1 = !t.past.isEmpty ∧ now.redo.1 = !t.future.isEmpty) ∧
      (∀ p rest, t.past = p :: rest → now.undo.2.1.contents = p.before) ∧
      (∀ p rest, t.future = p :: rest → now.redo.2.1.contents = p.after) ∧
      (now.undo.1 = false → now.undo.2.1.stores = now.stores) ∧
      (now.redo.1 = false → now.redo.2.1.stores = now.stores) ∧
      (∀ k, (∀ i < k, (now.back i).undo.1 = true) →
        (∀ i < k, ((now.back k).forth i).redo.1 = true) ∧ ((now.back k).forth k).contents = now.contents) ∧
      ∀ time k id value, b.tracks k = true → ((now.store k).get? id ≠ none ∨ value ≠ none) →
        ({ now with now := time }.write k id value).1.redo.1 = false := by
  intro now t
  have quiet := fresh.quiet
  have follows : Follows b now t := fresh.follows.run quiet tracked
  have answers : ∀ i, (now.back i).undo.1 = (t.back i).undo.1 := fun i => ((follows.back quiet i).undo quiet).2
  obtain ⟨undone, undoAnswer⟩ := follows.undo quiet
  obtain ⟨redone, redoAnswer⟩ := follows.redo quiet
  refine ⟨follows.current, ⟨?_, ?_⟩, ?_, ?_, undo_false_stores, redo_false_stores, ?_, ?_⟩
  · rw [undoAnswer]
    unfold Timeline.undo
    cases t.past <;> rfl
  · rw [redoAnswer]
    unfold Timeline.redo
    cases t.future <;> rfl
  · intro p rest past
    rw [undone.current]
    simp only [Timeline.undo, past]
  · intro p rest future
    rw [redone.current]
    simp only [Timeline.redo, future]
  · intro k succeed
    have retraced := fun i (within : i < k) =>
      Timeline.redo_forth_back follows.records.ends (fun i below => (answers i).symm.trans (succeed i below)) within
    have along := fun i => (follows.back quiet k).forth quiet i
    refine ⟨fun i within => ?_, ?_⟩
    · rw [((along i).redo quiet).2, retraced i within]
    · rw [(along k).current, follows.current]
      cases k with
      | zero => rfl
      | succ k =>
        rw [Timeline.forth, retraced k (Nat.lt_succ_self k), Nat.sub_self]
        rfl
  · intro time k id value recorded changes
    exact (follows.at_time time).redo_after_write quiet recorded id value changes

def twoTracked : Bench Bool Record := { stores := fun _ => { observers := [.history] } }

def twoTrackedActs : List (Nat × BenchAct Bool Record) :=
  [(0, .set true "a" { origin := .file ⟨[]⟩ }), (10, .set false "b" { origin := .file ⟨[]⟩ }), (2000, .delete true "a"), (2100, .undo)]

theorem undo_redo_exact_two_stores :
    twoTracked.Fresh ∧ (∀ a ∈ twoTrackedActs, ∀ k, a.2.store? = some k → twoTracked.tracks k = true) ∧
      (twoTracked.run twoTrackedActs).contents =
        (({ current := twoTracked.contents } : Timeline Bool Record).run 1000 100 twoTrackedActs).current := by
  have fresh : twoTracked.Fresh := by
    refine ⟨?_, rfl, rfl, rfl, rfl⟩
    intro k o member c
    obtain rfl : o = .history := by simpa [twoTracked, observers] using member
    rfl
  have tracked : ∀ a ∈ twoTrackedActs, ∀ k, a.2.store? = some k → twoTracked.tracks k = true := by
    intro a _ k _
    rfl
  exact ⟨fresh, tracked, (undo_redo_exact twoTracked fresh twoTrackedActs tracked).1⟩

end Bench

end MarkupEditor
