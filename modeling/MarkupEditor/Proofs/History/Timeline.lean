import MarkupEditor.Proofs.History.Command

namespace MarkupEditor

-- What a command did: the contents before its first change and after its last.
structure Passage (κ α : Type) where
  before : Contents κ α
  after : Contents κ α

structure Timeline (κ α : Type) where
  current : Contents κ α
  -- The passages that led to the current contents, the newest first.
  past : List (Passage κ α) := []
  -- The passages that were undone, the next to redo first.
  future : List (Passage κ α) := []
  -- When the newest passage was last extended, while it is open.
  extended : Option Nat := none

namespace Timeline

variable {κ α : Type}

def joins (window now : Nat) (t : Timeline κ α) : Bool :=
  match t.extended with
  | some last => now - last ≤ window
  | none => false

def extendTo (m : Contents κ α) : List (Passage κ α) → List (Passage κ α)
  | [] => []
  | p :: ps => { p with after := m } :: ps

-- Drops the oldest passages beyond a limit; zero is no limit.
def limited (maxLevels : Nat) (passages : List (Passage κ α)) : List (Passage κ α) :=
  if maxLevels = 0 then passages else passages.take maxLevels

-- A change at a time that belongs to the newest passage extends it, and any other begins a passage of its own.
def change (window maxLevels now : Nat) (t : Timeline κ α) (m : Contents κ α) : Timeline κ α :=
  { current := m
    past := if t.joins window now then extendTo m t.past else limited maxLevels (⟨t.current, m⟩ :: t.past)
    future := []
    extended := some now }

theorem change_change (window maxLevels now : Nat) (t : Timeline κ α) (m n : Contents κ α) :
    (t.change window maxLevels now m).change window maxLevels now n = t.change window maxLevels now n := by
  have joined : (t.change window maxLevels now m).joins window now = true := by simp [joins, change]
  rw [change, joined, if_pos rfl]
  unfold change
  by_cases open_ : t.joins window now = true
  · simp only [open_, if_true]
    cases t.past <;> rfl
  · simp only [open_, limited, Bool.false_eq_true, if_false]
    cases maxLevels <;> rfl

def close (t : Timeline κ α) : Timeline κ α := { t with extended := none }

def undo (t : Timeline κ α) : Bool × Timeline κ α :=
  match t.past with
  | [] => (false, t.close)
  | p :: ps => (true, { current := p.before, past := ps, future := p :: t.future })

def redo (t : Timeline κ α) : Bool × Timeline κ α :=
  match t.future with
  | [] => (false, t.close)
  | p :: ps => (true, { current := p.after, past := p :: t.past, future := ps })

-- Each passage ends where the next one, or the present, begins.
def Ends (m : Contents κ α) : List (Passage κ α) → Prop
  | [] => True
  | p :: ps => p.after = m ∧ Ends p.before ps

def Begins (m : Contents κ α) : List (Passage κ α) → Prop
  | [] => True
  | p :: ps => p.before = m ∧ Begins p.after ps

theorem ends_take {m : Contents κ α} {ps : List (Passage κ α)} (ends : Ends m ps) (n : Nat) : Ends m (ps.take n) := by
  induction ps generalizing m n with
  | nil => simp [Ends]
  | cons p ps ih =>
    cases n with
    | zero => trivial
    | succ n => exact ⟨ends.1, ih ends.2 n⟩

theorem ends_limited {m : Contents κ α} {ps : List (Passage κ α)} (ends : Ends m ps) (n : Nat) : Ends m (limited n ps) := by
  unfold limited
  split
  · exact ends
  · exact ends_take ends n

def back (t : Timeline κ α) : Nat → Timeline κ α
  | 0 => t
  | n + 1 => (t.back n).undo.2

def forth (t : Timeline κ α) : Nat → Timeline κ α
  | 0 => t
  | n + 1 => (t.forth n).redo.2

theorem ends_back {t : Timeline κ α} (ends : Ends t.current t.past) (n : Nat) : Ends (t.back n).current (t.back n).past := by
  induction n with
  | zero => exact ends
  | succ n ih =>
    simp only [back, undo]
    split
    · exact ih
    · rename_i p rest past
      rw [past] at ih
      exact ih.2

theorem redo_undo {t : Timeline κ α} (ends : Ends t.current t.past) (undone : t.undo.1 = true) :
    t.undo.2.redo = (true, t.close) := by
  unfold undo at undone ⊢
  cases past : t.past with
  | nil => simp [past] at undone
  | cons p rest =>
    rw [past] at ends
    simp only [redo, close, ends.1, past]

theorem redo_close (t : Timeline κ α) : t.close.redo = t.redo := by
  unfold redo close
  cases t.future <;> rfl

theorem redo_forth_back {t : Timeline κ α} (ends : Ends t.current t.past) {k : Nat}
    (undone : ∀ i < k, (t.back i).undo.1 = true) {i : Nat} (within : i < k) :
    ((t.back k).forth i).redo = (true, (t.back (k - (i + 1))).close) := by
  have before : ((t.back k).forth i).close = (t.back (k - i)).close := by
    induction i with
    | zero => rfl
    | succ i ih =>
      have last : k - i = k - (i + 1) + 1 := by omega
      have closed := ih (by omega)
      rw [forth, ← redo_close, closed, redo_close, last, back, redo_undo (ends_back ends _) (undone _ (by omega))]
      rfl
  have last : k - i = k - (i + 1) + 1 := by omega
  rw [← redo_close, before, redo_close, last, back, redo_undo (ends_back ends _) (undone _ (by omega))]

-- Something holds of the present and of all that can be returned to.
def Always (P : Contents κ α → Prop) (t : Timeline κ α) : Prop :=
  P t.current ∧ (∀ p ∈ t.past, P p.before ∧ P p.after) ∧ ∀ p ∈ t.future, P p.before ∧ P p.after

section

variable {P : Contents κ α → Prop} {t : Timeline κ α}

theorem always_start {m : Contents κ α} (holds : P m) : Always P { current := m } :=
  ⟨holds, by simp, by simp⟩

theorem always_change (always : Always P t) {m : Contents κ α} (holds : P m) (window maxLevels now : Nat) :
    Always P (t.change window maxLevels now m) := by
  obtain ⟨present, past, _⟩ := always
  refine ⟨holds, ?_, by simp [change]⟩
  intro p member
  simp only [change] at member
  split at member
  · cases same : t.past with
    | nil => simp [same, extendTo] at member
    | cons q qs =>
      rw [same] at past
      simp only [same, extendTo, List.mem_cons] at member
      rcases member with rfl | member
      · exact ⟨(past q List.mem_cons_self).1, holds⟩
      · exact past p (List.mem_cons_of_mem _ member)
  · have listed : p ∈ ⟨t.current, m⟩ :: t.past := by
      unfold limited at member
      split at member
      · exact member
      · exact List.mem_of_mem_take member
    rcases List.mem_cons.mp listed with rfl | member
    · exact ⟨present, holds⟩
    · exact past p member

theorem always_undo (always : Always P t) : Always P t.undo.2 := by
  obtain ⟨present, past, future⟩ := always
  unfold undo
  split
  · rename_i empty
    exact ⟨present, by simp [close, empty], future⟩
  · rename_i p ps same
    rw [same] at past
    refine ⟨(past p List.mem_cons_self).1, fun q member => past q (List.mem_cons_of_mem _ member), ?_⟩
    intro q member
    rcases List.mem_cons.mp member with rfl | member
    · exact past q List.mem_cons_self
    · exact future q member

theorem always_redo (always : Always P t) : Always P t.redo.2 := by
  obtain ⟨present, past, future⟩ := always
  unfold redo
  split
  · rename_i empty
    exact ⟨present, past, by simp [close, empty]⟩
  · rename_i p ps same
    rw [same] at future
    refine ⟨(future p List.mem_cons_self).2, ?_, fun q member => future q (List.mem_cons_of_mem _ member)⟩
    intro q member
    rcases List.mem_cons.mp member with rfl | member
    · exact future q List.mem_cons_self
    · exact past q member

end

end Timeline

namespace History

variable {κ α : Type}

def Spanned (commands : List (TitledCommand (Command κ α))) (passages : List (Passage κ α)) : Prop :=
  List.Forall₂ (fun c p => c.command.Spans p.before p.after) commands passages

structure Records (h : History κ α) (t : Timeline κ α) : Prop where
  recording : h.paused = 0
  extended : h.lastStaged = t.extended
  past : Spanned h.stack.done t.past
  future : Spanned h.stack.undone t.future
  ends : Timeline.Ends t.current t.past
  begins : Timeline.Begins t.current t.future
  -- The open command is the newest one and nothing was undone after it.
  newest : t.extended.isSome → t.past ≠ [] ∧ t.future = []

theorem records_start {h : History κ α} (m : Contents κ α) (recording : h.paused = 0) (closed : h.lastStaged = none)
    (done : h.stack.done = []) (undone : h.stack.undone = []) : Records h { current := m } :=
  ⟨recording, closed, by simp [Spanned, done], by simp [Spanned, undone], trivial, trivial, by simp⟩

theorem records_close {h : History κ α} {t : Timeline κ α} (records : Records h t) : Records h.close t.close :=
  ⟨records.recording, rfl, records.past, records.future, records.ends, records.begins, by simp [Timeline.close]⟩

theorem open?_eq {h : History κ α} {t : Timeline κ α} (records : Records h t) (now : Nat) :
    h.open? now = t.joins h.window now := by
  cases last : t.extended with
  | none => simp [open?, Timeline.joins, records.extended, last]
  | some before => simp [open?, Timeline.joins, records.extended, last]

theorem spanned_limited {cs : List (TitledCommand (Command κ α))} {ps : List (Passage κ α)} (spanned : Spanned cs ps)
    (n : Nat) : Spanned (UndoStack.limited n cs) (Timeline.limited n ps) := by
  unfold UndoStack.limited Timeline.limited
  split
  · exact spanned
  · exact List.forall₂_take n spanned

theorem amend_push (s : UndoStack (Command κ α)) (c : Command κ α) (f : Command κ α → Command κ α) :
    (s.push c).amend f = s.push (f c) := by
  unfold UndoStack.push UndoStack.amend UndoStack.limited
  by_cases unlimited : s.maxLevels = 0
  · simp [unlimited]
  · obtain ⟨n, levels⟩ := Nat.exists_eq_succ_of_ne_zero unlimited
    simp [levels]

theorem records_undo {h : History κ α} {t : Timeline κ α} (records : Records h t) :
    Records h.undo.2 t.undo.2 ∧ h.undo.1.isSome = t.undo.1 := by
  obtain ⟨recording, _, past, future, ends, begins, _⟩ := records
  unfold History.undo UndoStack.undo? Timeline.undo
  cases done : h.stack.done with
  | nil =>
    rw [done] at past
    have same := List.forall₂_nil_left_iff.mp past
    simp only [same]
    exact ⟨⟨recording, rfl, by simpa [close, done, Timeline.close, same] using past, future, by simp [same, Timeline.close, Timeline.Ends],
      begins, by simp [Timeline.close]⟩, rfl⟩
  | cons c cs =>
    rw [done] at past
    obtain ⟨p, ps, spans, rest, same⟩ := List.forall₂_cons_left_iff.mp past
    rw [same] at ends
    simp only [same]
    exact ⟨⟨recording, rfl, rest, .cons spans future, ends.2, ⟨rfl, ends.1 ▸ begins⟩, by simp⟩, rfl⟩

theorem records_redo {h : History κ α} {t : Timeline κ α} (records : Records h t) :
    Records h.redo.2 t.redo.2 ∧ h.redo.1.isSome = t.redo.1 := by
  obtain ⟨recording, _, past, future, ends, begins, _⟩ := records
  unfold History.redo UndoStack.redo? Timeline.redo
  cases undone : h.stack.undone with
  | nil =>
    rw [undone] at future
    have same := List.forall₂_nil_left_iff.mp future
    simp only [same]
    exact ⟨⟨recording, rfl, past, by simpa [close, undone, Timeline.close, same] using future, ends, by simp [same, Timeline.close, Timeline.Begins],
      by simp [Timeline.close]⟩, rfl⟩
  | cons c cs =>
    rw [undone] at future
    obtain ⟨p, ps, spans, rest, same⟩ := List.forall₂_cons_left_iff.mp future
    rw [same] at begins
    simp only [same]
    exact ⟨⟨recording, rfl, .cons spans past, rest, ⟨rfl, begins.1 ▸ ends⟩, begins.2, by simp⟩, rfl⟩

theorem undo_limits (h : History κ α) :
    h.undo.2.window = h.window ∧ h.undo.2.stack.maxLevels = h.stack.maxLevels := by
  unfold undo UndoStack.undo?
  cases h.stack.done <;> exact ⟨rfl, rfl⟩

theorem redo_limits (h : History κ α) :
    h.redo.2.window = h.window ∧ h.redo.2.stack.maxLevels = h.stack.maxLevels := by
  unfold redo UndoStack.redo?
  cases h.stack.undone <;> exact ⟨rfl, rfl⟩

variable [DecidableEq κ]

theorem replay_undo {h : History κ α} {t : Timeline κ α} (records : Records h t) :
    t.current.replay (h.undo.1.getD []) = t.undo.2.current := by
  obtain ⟨_, _, past, _, ends, _, _⟩ := records
  unfold History.undo UndoStack.undo? Timeline.undo
  cases done : h.stack.done with
  | nil =>
    rw [done] at past
    simp only [List.forall₂_nil_left_iff.mp past]
    rfl
  | cons c cs =>
    rw [done] at past
    obtain ⟨p, ps, spans, _, same⟩ := List.forall₂_cons_left_iff.mp past
    rw [same] at ends
    simp only [same, ← ends.1]
    exact spans.replay_reverting

theorem replay_redo {h : History κ α} {t : Timeline κ α} (records : Records h t) :
    t.current.replay (h.redo.1.getD []) = t.redo.2.current := by
  obtain ⟨_, _, _, future, _, begins, _⟩ := records
  unfold History.redo UndoStack.redo? Timeline.redo
  cases undone : h.stack.undone with
  | nil =>
    rw [undone] at future
    simp only [List.forall₂_nil_left_iff.mp future]
    rfl
  | cons c cs =>
    rw [undone] at future
    obtain ⟨p, ps, spans, _, same⟩ := List.forall₂_cons_left_iff.mp future
    rw [same] at begins
    simp only [same, ← begins.1]
    exact spans.replay_repeating

theorem records_stage {h : History κ α} {t : Timeline κ α} (records : Records h t) (now : Nat) (k : κ) (id : String)
    (value : Option α) :
    Records (h.stage now k ⟨id, t.current k id, value⟩)
      (t.change h.window h.stack.maxLevels now (t.current.put k id value)) := by
  have joined := open?_eq records now
  obtain ⟨recording, extended, past, future, ends, _, newest⟩ := records
  simp only [stage, History.recording, recording, beq_self_eq_true, if_true, Timeline.change, joined]
  cases joins : t.joins h.window now with
  | true =>
    have opened : t.extended.isSome := by
      unfold Timeline.joins at joins
      cases same : t.extended <;> simp_all
    obtain ⟨nonempty, nothing⟩ := newest opened
    cases same : t.past with
    | nil => exact absurd same nonempty
    | cons p ps =>
      rw [same] at past ends
      obtain ⟨c, cs, spans, rest, done⟩ := List.forall₂_cons_right_iff.mp past
      rw [ends.1] at spans
      simp only [if_true, UndoStack.amend, done]
      exact ⟨rfl, rfl, .cons (spans.stage k id value) rest, by rwa [nothing] at future, ⟨rfl, ends.2⟩, trivial, by simp [Timeline.extendTo]⟩
  | false =>
    simp only [Bool.false_eq_true, if_false, amend_push]
    refine ⟨rfl, rfl, ?_, .nil, ?_, trivial, ?_⟩
    · exact spanned_limited (.cons ((Command.spans_nil t.current).stage k id value) past) _
    · exact Timeline.ends_limited (show Timeline.Ends _ (⟨t.current, _⟩ :: t.past) from ⟨rfl, ends⟩) _
    · intro _
      refine ⟨?_, rfl⟩
      unfold Timeline.limited
      split
      · simp
      · rename_i limit
        obtain ⟨n, levels⟩ := Nat.exists_eq_succ_of_ne_zero limit
        simp [levels]

theorem stage_window (h : History κ α) (now : Nat) (k : κ) (c : Change α) : (h.stage now k c).window = h.window := by
  unfold stage
  split <;> rfl

theorem stage_maxLevels (h : History κ α) (now : Nat) (k : κ) (c : Change α) :
    (h.stage now k c).stack.maxLevels = h.stack.maxLevels := by
  have amended : ∀ (s : UndoStack (Command κ α)) f, (s.amend f).maxLevels = s.maxLevels := by
    intro s f
    unfold UndoStack.amend
    split <;> rfl
  unfold stage
  split
  · simp only [amended]
    split <;> rfl
  · rfl

theorem stage_stage (h : History κ α) (now : Nat) (k : κ) (c : Change α) :
    (h.stage now k c).stage now k c = h.stage now k c := by
  unfold stage
  by_cases recording : h.recording = true
  · have still : ∀ stack, ({ h with stack, lastStaged := some now } : History κ α).recording = true := fun _ => recording
    have opened : ∀ stack, ({ h with stack, lastStaged := some now } : History κ α).open? now = true := fun _ => by simp [open?]
    simp only [recording, if_true, still, opened]
    congr 1
    generalize (if h.open? now = true then h.stack else h.stack.push []) = stack
    unfold UndoStack.amend
    cases done : stack.done with
    | nil => simp [done]
    | cons d rest => simp [Command.stage_stage]
  · simp [recording]

end History

end MarkupEditor
