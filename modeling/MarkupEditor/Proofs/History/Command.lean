import Mathlib.Data.List.Nodup
import MarkupEditor.History.Recorder

namespace MarkupEditor

abbrev Contents (κ α : Type) := κ → String → Option α

namespace Contents

variable {κ α : Type} [DecidableEq κ]

def put (m : Contents κ α) (k : κ) (id : String) (value : Option α) : Contents κ α :=
  fun j key => if j = k ∧ key = id then value else m j key

def apply (m : Contents κ α) (w : Write κ α) : Contents κ α := m.put w.store w.id w.value

def replay (m : Contents κ α) (writes : List (Write κ α)) : Contents κ α := writes.foldl apply m

@[simp] theorem replay_nil (m : Contents κ α) : m.replay [] = m := rfl

@[simp] theorem replay_cons (m : Contents κ α) (w : Write κ α) (ws : List (Write κ α)) :
    m.replay (w :: ws) = (m.apply w).replay ws := rfl

-- Writes that all write what the target holds lead to the target when they reach every place where it differs;
-- their order does not matter.
theorem replay_eq {m target : Contents κ α} {writes : List (Write κ α)}
    (agree : ∀ w ∈ writes, w.value = target w.store w.id)
    (reach : ∀ k id, m k id ≠ target k id → ∃ w ∈ writes, w.store = k ∧ w.id = id) : m.replay writes = target := by
  induction writes generalizing m with
  | nil =>
    funext k id
    by_cases same : m k id = target k id
    · exact same
    · obtain ⟨w, member, _⟩ := reach k id same
      simp at member
  | cons w ws ih =>
    rw [replay_cons]
    apply ih
    · intro v member
      exact agree v (List.mem_cons_of_mem _ member)
    · intro k id differs
      by_cases here : k = w.store ∧ id = w.id
      · obtain ⟨rfl, rfl⟩ := here
        refine absurd ?_ differs
        simp [apply, put, agree w List.mem_cons_self]
      · simp only [apply, put, here, if_false] at differs
        obtain ⟨v, member, found⟩ := reach k id differs
        rcases List.mem_cons.mp member with rfl | later
        · exact absurd ⟨found.1.symm, found.2.symm⟩ here
        · exact ⟨v, later, found⟩

end Contents

def amendFirst {β γ : Type} [DecidableEq β] (key : γ → β) (b : β) (f : γ → γ) (new : γ) : List γ → List γ
  | [] => [new]
  | x :: xs => if key x = b then f x :: xs else x :: amendFirst key b f new xs

section

variable {β γ : Type} [DecidableEq β] {key : γ → β} {b : β} {f : γ → γ} {new : γ}

theorem mem_amendFirst {xs : List γ} {y : γ} (nodup : (xs.map key).Nodup) :
    y ∈ amendFirst key b f new xs ↔
      (y ∈ xs ∧ key y ≠ b) ∨ (∃ x ∈ xs, key x = b ∧ y = f x) ∨ (y = new ∧ ∀ x ∈ xs, key x ≠ b) := by
  induction xs with
  | nil => simp [amendFirst]
  | cons head rest ih =>
    simp only [List.map_cons, List.nodup_cons, List.mem_map, not_exists, not_and] at nodup
    by_cases same : key head = b
    · have others : ∀ x ∈ rest, key x ≠ b := fun x member equal => nodup.1 x member (equal.trans same.symm)
      simp only [amendFirst, same, if_true, List.mem_cons]
      constructor
      · rintro (rfl | member)
        · exact .inr (.inl ⟨head, .inl rfl, same, rfl⟩)
        · exact .inl ⟨.inr member, others y member⟩
      · rintro (⟨rfl | member, differs⟩ | ⟨x, rfl | member, equal, rfl⟩ | ⟨_, differs⟩)
        · exact absurd same differs
        · exact .inr member
        · exact .inl rfl
        · exact absurd equal (others x member)
        · exact absurd same (differs head (.inl rfl))
    · simp only [amendFirst, same, if_false, List.mem_cons, ih nodup.2]
      grind

theorem amendFirst_nodup {xs : List γ} (nodup : (xs.map key).Nodup) (kept : ∀ x, key (f x) = key x) (named : key new = b) :
    ((amendFirst key b f new xs).map key).Nodup := by
  have keys : (amendFirst key b f new xs).map key = if b ∈ xs.map key then xs.map key else xs.map key ++ [b] := by
    clear nodup
    induction xs with
    | nil => simp [amendFirst, named]
    | cons head rest ih =>
      by_cases same : key head = b
      · simp [amendFirst, same, kept]
      · have other : b ≠ key head := Ne.symm same
        simp only [amendFirst, same, if_false, List.map_cons, ih, List.mem_cons, other, false_or]
        split <;> rfl
  rw [keys]
  split
  · exact nodup
  · rename_i absent
    refine List.nodup_append.mpr ⟨nodup, by simp, ?_⟩
    intro a member c last
    rw [List.mem_singleton.mp last]
    exact fun equal => absent (equal ▸ member)

theorem amendFirst_amendFirst (xs : List γ) (kept : ∀ x, key (f x) = key x) (named : key new = b)
    (again : ∀ x, f (f x) = f x) (fixed : f new = new) :
    amendFirst key b f new (amendFirst key b f new xs) = amendFirst key b f new xs := by
  induction xs with
  | nil => simp [amendFirst, named, fixed]
  | cons head rest ih =>
    by_cases same : key head = b
    · simp [amendFirst, same, kept, again]
    · simp [amendFirst, same, ih]

end

namespace Command

variable {κ α : Type}

theorem stageChange_eq (c : Change α) (changes : List (Change α)) :
    stageChange c changes = amendFirst Change.id c.id (fun d => { d with after := c.after }) c changes := by
  induction changes with
  | nil => rfl
  | cons d rest ih => simp only [stageChange, amendFirst, ih]

def Holds (command : Command κ α) (k : κ) (c : Change α) : Prop :=
  ∃ sheet ∈ command, sheet.store = k ∧ c ∈ sheet.changes

-- The command leads from one contents to another. Every entry stands in it at most once.
structure Spans (command : Command κ α) (before after : Contents κ α) : Prop where
  stores : (command.map Sheet.store).Nodup
  ids : ∀ sheet ∈ command, (sheet.changes.map Change.id).Nodup
  starts : ∀ k c, command.Holds k c → c.before = before k c.id
  ends : ∀ k c, command.Holds k c → c.after = after k c.id
  reaches : ∀ k id, before k id ≠ after k id → ∃ c, command.Holds k c ∧ c.id = id

theorem spans_nil (m : Contents κ α) : Spans [] m m := by
  refine ⟨by simp, by simp, ?_, ?_, ?_⟩
  · rintro k c ⟨sheet, member, _⟩
    simp at member
  · rintro k c ⟨sheet, member, _⟩
    simp at member
  · intro k id differs
    exact absurd rfl differs

theorem mem_reverting {command : Command κ α} {w : Write κ α} :
    w ∈ command.reverting ↔ ∃ c, command.Holds w.store c ∧ w.id = c.id ∧ w.value = c.before := by
  simp only [reverting, List.mem_flatMap, List.mem_reverse, List.mem_map, Holds]
  constructor
  · rintro ⟨sheet, member, c, inside, rfl⟩
    exact ⟨c, ⟨sheet, member, rfl, inside⟩, rfl, rfl⟩
  · rintro ⟨c, ⟨sheet, member, store, inside⟩, id, value⟩
    exact ⟨sheet, member, c, inside, by rw [store, ← id, ← value]⟩

theorem mem_repeating {command : Command κ α} {w : Write κ α} :
    w ∈ command.repeating ↔ ∃ c, command.Holds w.store c ∧ w.id = c.id ∧ w.value = c.after := by
  simp only [repeating, List.mem_flatMap, List.mem_map, Holds]
  constructor
  · rintro ⟨sheet, member, c, inside, rfl⟩
    exact ⟨c, ⟨sheet, member, rfl, inside⟩, rfl, rfl⟩
  · rintro ⟨c, ⟨sheet, member, store, inside⟩, id, value⟩
    exact ⟨sheet, member, c, inside, by rw [store, ← id, ← value]⟩

variable [DecidableEq κ]

theorem Spans.replay_reverting {command : Command κ α} {before after : Contents κ α} (spans : command.Spans before after) :
    after.replay command.reverting = before := by
  apply Contents.replay_eq
  · intro w member
    obtain ⟨c, held, id, value⟩ := mem_reverting.mp member
    rw [value, id]
    exact spans.starts _ c held
  · intro k id differs
    obtain ⟨c, held, rfl⟩ := spans.reaches k id (Ne.symm differs)
    exact ⟨⟨k, c.id, c.before⟩, mem_reverting.mpr ⟨c, held, rfl, rfl⟩, rfl, rfl⟩

theorem Spans.replay_repeating {command : Command κ α} {before after : Contents κ α} (spans : command.Spans before after) :
    before.replay command.repeating = after := by
  apply Contents.replay_eq
  · intro w member
    obtain ⟨c, held, id, value⟩ := mem_repeating.mp member
    rw [value, id]
    exact spans.ends _ c held
  · intro k id differs
    obtain ⟨c, held, rfl⟩ := spans.reaches k id differs
    exact ⟨⟨k, c.id, c.after⟩, mem_repeating.mpr ⟨c, held, rfl, rfl⟩, rfl, rfl⟩

theorem stage_eq (k : κ) (c : Change α) (command : Command κ α) :
    stage k c command =
      amendFirst Sheet.store k (fun sheet => { sheet with changes := stageChange c sheet.changes }) ⟨k, [c]⟩ command := by
  induction command with
  | nil => rfl
  | cons sheet rest ih => simp only [stage, amendFirst, ih]

theorem stage_stage (k : κ) (c : Change α) (command : Command κ α) : stage k c (stage k c command) = stage k c command := by
  have changes : ∀ l : List (Change α), stageChange c (stageChange c l) = stageChange c l := by
    intro l
    simp only [stageChange_eq]
    exact amendFirst_amendFirst l (fun _ => rfl) rfl (fun _ => rfl) rfl
  simp only [stage_eq]
  refine amendFirst_amendFirst command (fun _ => rfl) rfl (fun sheet => ?_) ?_
  · simp only [changes]
  · simp [stageChange]

theorem holds_stage {k : κ} {c : Change α} {command : Command κ α} (stores : (command.map Sheet.store).Nodup)
    (ids : ∀ sheet ∈ command, (sheet.changes.map Change.id).Nodup) {j : κ} {d : Change α} :
    (stage k c command).Holds j d ↔
      (command.Holds j d ∧ ¬(j = k ∧ d.id = c.id)) ∨
        (j = k ∧ ∃ e, command.Holds k e ∧ e.id = c.id ∧ d = { e with after := c.after }) ∨
          (j = k ∧ d = c ∧ ∀ e, command.Holds k e → e.id ≠ c.id) := by
  have one : ∀ sheet ∈ command, ∀ other ∈ command, sheet.store = other.store → sheet = other :=
    fun sheet member other member' => List.inj_on_of_nodup_map stores member member'
  simp only [Holds, stage_eq, mem_amendFirst stores]
  constructor
  · rintro ⟨sheet, ⟨member, differs⟩ | ⟨old, member, store, rfl⟩ | ⟨rfl, unlisted⟩, rfl, inside⟩
    · exact .inl ⟨⟨sheet, member, rfl, inside⟩, fun same => differs same.1⟩
    · simp only [stageChange_eq, mem_amendFirst (ids old member)] at inside
      rcases inside with ⟨kept, differs⟩ | ⟨e, kept, same, rfl⟩ | ⟨rfl, differs⟩
      · exact .inl ⟨⟨old, member, rfl, kept⟩, fun same => differs same.2⟩
      · exact .inr (.inl ⟨store, e, ⟨old, member, store, kept⟩, same, rfl⟩)
      · refine .inr (.inr ⟨store, rfl, ?_⟩)
        rintro e ⟨sheet, listed, also, kept⟩
        obtain rfl := one sheet listed old member (also.trans store.symm)
        exact differs e kept
    · refine .inr (.inr ⟨rfl, by simpa using inside, ?_⟩)
      rintro e ⟨sheet, listed, store, _⟩
      exact absurd store (unlisted sheet listed)
  · rintro (⟨⟨sheet, member, rfl, inside⟩, differs⟩ | ⟨rfl, e, ⟨sheet, member, store, kept⟩, same, rfl⟩ | ⟨rfl, rfl, fresh⟩)
    · by_cases store : sheet.store = k
      · refine ⟨_, .inr (.inl ⟨sheet, member, store, rfl⟩), rfl, ?_⟩
        rw [stageChange_eq, mem_amendFirst (ids sheet member)]
        exact .inl ⟨inside, fun same => differs ⟨store, same⟩⟩
      · exact ⟨sheet, .inl ⟨member, store⟩, rfl, inside⟩
    · refine ⟨_, .inr (.inl ⟨sheet, member, store, rfl⟩), store, ?_⟩
      rw [stageChange_eq, mem_amendFirst (ids sheet member)]
      exact .inr (.inl ⟨e, kept, same, rfl⟩)
    · by_cases listed : ∃ sheet ∈ command, sheet.store = j
      · obtain ⟨sheet, member, store⟩ := listed
        refine ⟨_, .inr (.inl ⟨sheet, member, store, rfl⟩), store, ?_⟩
        rw [stageChange_eq, mem_amendFirst (ids sheet member)]
        exact .inr (.inr ⟨rfl, fun e kept => fresh e ⟨sheet, member, store, kept⟩⟩)
      · refine ⟨⟨j, [d]⟩, .inr (.inr ⟨rfl, fun sheet member store => listed ⟨sheet, member, store⟩⟩), rfl, by simp⟩

theorem Spans.stage {command : Command κ α} {before after : Contents κ α} (spans : command.Spans before after)
    (k : κ) (id : String) (value : Option α) :
    (command.stage k ⟨id, after k id, value⟩).Spans before (after.put k id value) := by
  have holds := fun {j d} => holds_stage (k := k) (c := ⟨id, after k id, value⟩) spans.stores spans.ids (j := j) (d := d)
  refine ⟨?_, ?_, ?_, ?_, ?_⟩
  · rw [stage_eq]
    exact amendFirst_nodup spans.stores (fun _ => rfl) rfl
  · intro sheet member
    rw [stage_eq, mem_amendFirst spans.stores] at member
    rcases member with ⟨member, _⟩ | ⟨old, member, _, rfl⟩ | ⟨rfl, _⟩
    · exact spans.ids sheet member
    · simp only [stageChange_eq]
      exact amendFirst_nodup (spans.ids old member) (fun _ => rfl) rfl
    · simp
  · intro j d held
    rcases holds.mp held with ⟨kept, _⟩ | ⟨rfl, e, kept, _, rfl⟩ | ⟨rfl, rfl, fresh⟩
    · exact spans.starts j d kept
    · exact spans.starts j e kept
    · by_cases same : before j id = after j id
      · exact same.symm
      · obtain ⟨c, kept, rfl⟩ := spans.reaches j id same
        exact absurd rfl (fresh c kept)
  · intro j d held
    rcases holds.mp held with ⟨kept, other⟩ | ⟨rfl, e, kept, same, rfl⟩ | ⟨rfl, rfl, _⟩
    · simp only [Contents.put, other, if_false]
      exact spans.ends j d kept
    · simp [Contents.put, same]
    · simp [Contents.put]
  · intro j key differs
    by_cases here : j = k ∧ key = id
    · obtain ⟨rfl, rfl⟩ := here
      by_cases touched : ∃ e, command.Holds j e ∧ e.id = key
      · obtain ⟨e, kept, same⟩ := touched
        exact ⟨_, holds.mpr (.inr (.inl ⟨rfl, e, kept, same, rfl⟩)), same⟩
      · exact ⟨_, holds.mpr (.inr (.inr ⟨rfl, rfl, fun e kept same => touched ⟨e, kept, same⟩⟩)), rfl⟩
    · simp only [Contents.put, here, if_false] at differs
      obtain ⟨c, kept, rfl⟩ := spans.reaches j key differs
      exact ⟨c, holds.mpr (.inl ⟨kept, here⟩), rfl⟩

end Command

end MarkupEditor
