import Mathlib.Data.List.Nodup
import MarkupEditor.Proofs.Store.Contents
import MarkupEditor.Store.Instances

namespace MarkupEditor

namespace Instances

variable {α : Type}

theorem get?_make (i : Instances) {id : String} (absent : i.get? id = none) (key : String) :
    (i.make id).get? key = if key = id then some (i.made + 1) else i.get? key := by
  simp only [get?, Option.map_eq_none_iff] at absent
  simp only [get?, make, List.find?_append, List.find?_singleton, beq_iff_eq]
  by_cases here : key = id
  · simp [here, absent]
  · simp [here, Ne.symm here]

theorem note_get? (i : Instances) (c : Change α) (key : String) :
    (i.note c).get? key = if key = c.id then c.after.map fun _ => (i.get? key).getD (i.made + 1) else i.get? key := by
  unfold note
  cases c.after with
  | none =>
    simp only [get?, List.find?_filter, Option.map_none]
    split
    · rename_i here
      simp [here]
    · rename_i other
      congr 2
      funext e
      by_cases same : e.1 = key
      · simp [same, other]
      · simp [same]
  | some r =>
    dsimp only
    split
    · rename_i live
      split
      · rename_i here
        obtain ⟨serial, held⟩ := Option.isSome_iff_exists.mp live
        rw [here, held]
        rfl
      · rfl
    · rename_i absent
      have none := Option.not_isSome_iff_eq_none.mp absent
      rw [get?_make i none]
      split
      · rename_i here
        rw [here, none]
        rfl
      · rfl

theorem made_note (i : Instances) (c : Change α) : i.made ≤ (i.note c).made := by
  unfold note
  cases c.after with
  | none => exact Nat.le_refl _
  | some r =>
    dsimp only
    split
    · exact Nat.le_refl _
    · exact Nat.le_succ _

theorem mem_ids {i : Instances} {id : String} : id ∈ i.live.map Prod.fst ↔ (i.get? id).isSome = true := by
  simp [get?]

structure Apart (i : Instances) : Prop where
  ids : (i.live.map Prod.fst).Nodup
  serials : (i.live.map Prod.snd).Nodup
  made : ∀ e ∈ i.live, e.2 ≤ i.made

theorem Apart.serial_le {i : Instances} (apart : i.Apart) {id : String} {serial : Nat} (held : i.get? id = some serial) : serial ≤ i.made :=
  apart.made (id, serial) ((Store.find?_eq_some_iff apart.ids id serial).mp held)

theorem Apart.id_unique {i : Instances} (apart : i.Apart) {a b : String} {serial : Nat} (first : i.get? a = some serial)
    (second : i.get? b = some serial) : a = b := by
  have one := (Store.find?_eq_some_iff apart.ids a serial).mp first
  have two := (Store.find?_eq_some_iff apart.ids b serial).mp second
  exact congrArg Prod.fst (List.inj_on_of_nodup_map apart.serials one two rfl)

theorem Apart.make {i : Instances} (apart : i.Apart) {id : String} (absent : i.get? id = none) : (i.make id).Apart := by
  have newId : id ∉ i.live.map Prod.fst := by
    rw [mem_ids, absent]
    exact Bool.false_ne_true
  have newSerial : i.made + 1 ∉ i.live.map Prod.snd := by
    intro member
    obtain ⟨e, held, same⟩ := List.mem_map.mp member
    have bound := apart.made e held
    omega
  constructor
  · simpa [Instances.make] using apart.ids.concat newId
  · simpa [Instances.make] using apart.serials.concat newSerial
  · intro e member
    rcases List.mem_append.mp member with old | new
    · exact Nat.le_succ_of_le (apart.made e old)
    · exact Nat.le_of_eq (congrArg Prod.snd (List.mem_singleton.mp new))

theorem Apart.note {i : Instances} (apart : i.Apart) (c : Change α) : (i.note c).Apart := by
  unfold Instances.note
  cases c.after with
  | none =>
    have fewer : (i.live.filter (·.1 ≠ c.id)).Sublist i.live := List.filter_sublist
    refine ⟨apart.ids.sublist (fewer.map _), apart.serials.sublist (fewer.map _), ?_⟩
    intro e member
    exact apart.made e (fewer.subset member)
  | some r =>
    dsimp only
    split
    · exact apart
    · rename_i absent
      exact apart.make (Option.not_isSome_iff_eq_none.mp absent)

structure Later (i i' : Instances) : Prop where
  made : i.made ≤ i'.made
  serials : ∀ id serial, i'.get? id = some serial → i.get? id = some serial ∨ i.made < serial

namespace Later

variable {i i' i'' : Instances}

theorem refl (i : Instances) : i.Later i := ⟨Nat.le_refl _, fun _ _ held => .inl held⟩

theorem trans (first : i.Later i') (second : i'.Later i'') : i.Later i'' := by
  refine ⟨Nat.le_trans first.made second.made, fun id serial held => ?_⟩
  cases second.serials id serial held with
  | inl before => exact first.serials id serial before
  | inr after => exact .inr (Nat.lt_of_le_of_lt first.made after)

theorem note (i : Instances) (c : Change α) : i.Later (i.note c) := by
  refine ⟨made_note i c, fun id serial held => ?_⟩
  rw [note_get?] at held
  split at held
  · obtain ⟨_, _, rfl⟩ := Option.map_eq_some_iff.mp held
    cases i.get? id with
    | none => exact .inr (Nat.lt_succ_self _)
    | some serial => exact .inl rfl
  · exact .inl held

end Later

structure Serves (i : Instances) (s : Store α) : Prop where
  live : ∀ id, (i.get? id).isSome = (s.get? id).isSome
  apart : i.Apart

theorem Serves.note {i : Instances} {s : Store α} (serves : i.Serves s) (id : String) (value : Option α) :
    (i.note ⟨id, s.get? id, value⟩).Serves (s.put id value) := by
  refine ⟨?_, serves.apart.note _⟩
  intro key
  rw [note_get?, Store.get?_put]
  split
  · exact Option.isSome_map
  · exact serves.live key

theorem Apart.makeAll {i : Instances} (apart : i.Apart) {ids : List String} (nodup : ids.Nodup) (absent : ∀ id ∈ ids, i.get? id = none) :
    (ids.foldl Instances.make i).Apart ∧
      ∀ key, ((ids.foldl Instances.make i).get? key).isSome = (decide (key ∈ ids) || (i.get? key).isSome) := by
  induction ids generalizing i with
  | nil => exact ⟨apart, by simp⟩
  | cons id ids ih =>
    obtain ⟨new, nodup⟩ := List.nodup_cons.mp nodup
    have here := absent id List.mem_cons_self
    have later : ∀ key ∈ ids, (i.make id).get? key = none := by
      intro key member
      have other : key ≠ id := fun same => new (same ▸ member)
      rw [get?_make i here, if_neg other]
      exact absent key (List.mem_cons_of_mem _ member)
    obtain ⟨apart, live⟩ := ih (apart.make here) nodup later
    refine ⟨apart, ?_⟩
    intro key
    rw [List.foldl_cons, live, get?_make i here]
    by_cases same : key = id
    · simp [same]
    · simp [same]

theorem serves_ofStore (s : Store α) (made : Nat) : (ofStore s made).Serves s := by
  have fresh : ({ made } : Instances).Apart := ⟨List.nodup_nil, List.nodup_nil, by simp⟩
  obtain ⟨apart, live⟩ := fresh.makeAll s.nodup fun _ _ => rfl
  refine ⟨?_, apart⟩
  intro id
  rw [Bool.eq_iff_iff, Store.get?_isSome_iff]
  refine (Bool.eq_iff_iff.mp (live id)).trans ?_
  simp [get?, Store.ids]

end Instances

end MarkupEditor
