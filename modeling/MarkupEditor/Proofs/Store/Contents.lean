import MarkupEditor.Store.Basic

namespace MarkupEditor

namespace Store

variable {α : Type}

theorem find?_eq_some_iff {entries : List (String × α)} (nodup : (entries.map Prod.fst).Nodup) (id : String) (a : α) :
    (entries.find? (·.1 == id)).map Prod.snd = some a ↔ (id, a) ∈ entries := by
  induction entries with
  | nil => simp
  | cons e rest ih =>
    obtain ⟨key, value⟩ := e
    simp only [List.map_cons, List.nodup_cons] at nodup
    by_cases same : key = id
    · subst same
      have absent : (key, a) ∉ rest := fun member => nodup.1 (List.mem_map.mpr ⟨_, member, rfl⟩)
      simp [absent, eq_comm]
    · have other : (id, a) ≠ (key, value) := fun equal => same (congrArg Prod.fst equal).symm
      simp [same, other, ih nodup.2]

theorem get?_eq_some_iff (s : Store α) (id : String) (a : α) : s.get? id = some a ↔ (id, a) ∈ s.entries :=
  find?_eq_some_iff s.nodup id a

theorem get?_isSome_iff (s : Store α) (id : String) : (s.get? id).isSome = true ↔ id ∈ s.ids := by
  simp [Option.isSome_iff_exists, get?_eq_some_iff, ids]

theorem contains_eq_isSome (s : Store α) (id : String) : s.contains id = (s.get? id).isSome := by
  rw [Bool.eq_iff_iff, contains_iff, get?_isSome_iff]

theorem mem_replaced {id : String} {value : α} {entries : List (String × α)} {e : String × α} :
    e ∈ replaced id value entries ↔ (e ∈ entries ∧ e.1 ≠ id) ∨ (e = (id, value) ∧ id ∈ entries.map Prod.fst) := by
  simp only [replaced, List.mem_map]
  constructor
  · rintro ⟨old, member, rfl⟩
    by_cases same : old.1 = id
    · subst same
      exact .inr ⟨by simp, old, member, rfl⟩
    · exact .inl ⟨by simpa [same] using member, by simp [same]⟩
  · rintro (⟨member, other⟩ | ⟨rfl, old, member, rfl⟩)
    · exact ⟨e, member, by simp [other]⟩
    · exact ⟨old, member, by simp⟩

theorem mem_set {s : Store α} {id : String} {value : α} {e : String × α} :
    e ∈ (s.set id value).entries ↔ (e ∈ s.entries ∧ e.1 ≠ id) ∨ e = (id, value) := by
  unfold set
  split
  · rename_i held
    have listed : id ∈ s.entries.map Prod.fst := (contains_iff s id).mp held
    simp [mem_replaced, listed]
  · rename_i absent
    have unlisted : ∀ old ∈ s.entries, old.1 ≠ id := by
      intro old member same
      exact absent ((contains_iff s id).mpr (List.mem_map.mpr ⟨old, member, same⟩))
    simp only [List.mem_append, List.mem_singleton]
    constructor
    · rintro (member | equal)
      · exact .inl ⟨member, unlisted e member⟩
      · exact .inr equal
    · rintro (⟨member, _⟩ | equal)
      · exact .inl member
      · exact .inr equal

theorem get?_set (s : Store α) (id : String) (value : α) (key : String) :
    (s.set id value).get? key = if key = id then some value else s.get? key := by
  apply Option.ext
  intro a
  rw [get?_eq_some_iff, mem_set]
  by_cases same : key = id
  · simp [same, eq_comm]
  · simp [same, get?_eq_some_iff]

theorem get?_erase (s : Store α) (id key : String) :
    (s.erase id).get? key = if key = id then none else s.get? key := by
  apply Option.ext
  intro a
  rw [get?_eq_some_iff]
  by_cases same : key = id
  · simp [erase, same]
  · simp [erase, same, get?_eq_some_iff]

theorem get?_put (s : Store α) (id : String) (value : Option α) (key : String) :
    (s.put id value).get? key = if key = id then value else s.get? key := by
  cases value with
  | none => exact get?_erase s id key
  | some value => exact get?_set s id value key

theorem write_eq (s : Store α) (id : String) (value : Option α) :
    s.write id value =
      if s.get? id = none ∧ value = none then (s, none) else (s.put id value, some ⟨id, s.get? id, value⟩) := by
  unfold write
  cases s.get? id <;> cases value <;> rfl

theorem get?_write (s : Store α) (id : String) (value : Option α) (key : String) :
    (s.write id value).1.get? key = if key = id then value else s.get? key := by
  rw [write_eq]
  split
  · rename_i absent
    by_cases same : key = id
    · simp [same, absent]
    · simp [same]
  · exact get?_put s id value key

end Store

end MarkupEditor
