import Mathlib.Data.List.Nodup
import Mathlib.Data.List.Perm.Subperm
import MarkupEditor.Proofs.Store.Contents
import MarkupEditor.Store.Forest

namespace MarkupEditor

namespace Tree

variable {α : Type}

theorem mem_postorderAll {ts : List (Tree α)} {id : String} : id ∈ postorderAll ts ↔ ∃ t ∈ ts, id ∈ postorder t := by
  induction ts with
  | nil => simp [postorderAll]
  | cons t ts ih => simp [postorderAll, ih]

end Tree

namespace Store

variable {α : Type} [Placed α]

theorem mem_keyedChildren {s : Store α} {parent : String} {e : String × String} :
    e ∈ s.keyedChildren parent ↔ ∃ r, s.get? e.2 = some r ∧ parentId r = parent ∧ orderKey r = e.1 := by
  simp only [keyedChildren, List.mem_mergeSort, List.mem_map, List.mem_filter, beq_iff_eq]
  constructor
  · rintro ⟨⟨id, r⟩, ⟨member, named⟩, rfl⟩
    exact ⟨r, (get?_eq_some_iff s id r).mpr member, named, rfl⟩
  · rintro ⟨r, found, named, key⟩
    exact ⟨(e.2, r), ⟨(get?_eq_some_iff s e.2 r).mp found, named⟩, by rw [key]⟩

theorem mem_children {s : Store α} {parent child : String} :
    child ∈ s.children parent ↔ ∃ r, s.get? child = some r ∧ parentId r = parent := by
  simp only [children, List.mem_map, mem_keyedChildren]
  constructor
  · rintro ⟨e, ⟨r, found, named, _⟩, rfl⟩
    exact ⟨r, found, named⟩
  · rintro ⟨r, found, named⟩
    exact ⟨(orderKey r, child), ⟨r, found, named, rfl⟩, rfl⟩

theorem mem_treesUpTo {s : Store α} {levels : Nat} {id : String} {t : Tree α} :
    t ∈ s.treesUpTo (levels + 1) id ↔
      ∃ child r, s.get? child = some r ∧ parentId r = id ∧ t = .mk child r (s.treesUpTo levels child) := by
  simp only [treesUpTo, List.mem_filterMap, mem_children, Option.map_eq_some_iff]
  constructor
  · rintro ⟨child, ⟨r, found, named⟩, r', found', rfl⟩
    obtain rfl : r = r' := Option.some.inj (found.symm.trans found')
    exact ⟨child, r, found, named, rfl⟩
  · rintro ⟨child, r, found, named, rfl⟩
    exact ⟨child, ⟨r, found, named⟩, r, found, rfl⟩

-- The id that so many records on the way up name, whether or not it has an entry.
def climb (s : Store α) : Nat → String → Option String
  | 0, id => some id
  | steps + 1, id => (s.get? id).bind fun r => s.climb steps (parentId r)

theorem climb_add (s : Store α) (i j : Nat) (id : String) : s.climb (i + j) id = (s.climb i id).bind (s.climb j) := by
  induction i generalizing id with
  | zero => simp [climb]
  | succ i ih =>
    rw [Nat.succ_add, climb, climb]
    cases s.get? id with
    | none => rfl
    | some r => exact ih (parentId r)

theorem climb_one {s : Store α} {id parent : String} :
    s.climb 1 id = some parent ↔ ∃ r, s.get? id = some r ∧ parentId r = parent := by
  simp [climb, Option.bind_eq_some_iff]

-- Following parents leads from one to the other, also around a circle of parents.
def Below (s : Store α) (top id : String) : Prop := ∃ steps, s.climb (steps + 1) id = some top

theorem Below.live {s : Store α} {top id : String} (below : s.Below top id) : ∃ r, s.get? id = some r := by
  obtain ⟨steps, climbed⟩ := below
  obtain ⟨r, found, _⟩ := Option.bind_eq_some_iff.mp climbed
  exact ⟨r, found⟩

theorem below_of_child {s : Store α} {top id child : String} {r : α} (below : s.Below top id) (found : s.get? child = some r)
    (named : parentId r = id) : s.Below top child := by
  obtain ⟨steps, climbed⟩ := below
  refine ⟨steps + 1, ?_⟩
  rw [climb, found]
  simpa [named] using climbed

theorem below_self {s : Store α} {top child : String} {r : α} (found : s.get? child = some r) (named : parentId r = top) :
    s.Below top child :=
  ⟨0, climb_one.mpr ⟨r, found, named⟩⟩

-- A shortest way up passes no entry twice, so it is no longer than the store has entries. This does not need the store
-- to be a forest.
theorem climb_shortest {s : Store α} {top id : String} {steps : Nat} (climbed : s.climb (steps + 1) id = some top)
    (shortest : ∀ fewer < steps, s.climb (fewer + 1) id ≠ some top) : steps < s.size := by
  have passes : ∀ i ≤ steps, ∃ x, s.climb i id = some x ∧ x ∈ s.ids ∧ s.climb (steps - i + 1) x = some top := by
    intro i within
    have parts : steps + 1 = i + (steps - i + 1) := by omega
    rw [parts, climb_add, Option.bind_eq_some_iff] at climbed
    obtain ⟨x, reached, onward⟩ := climbed
    refine ⟨x, reached, ?_, onward⟩
    rw [climb, Option.bind_eq_some_iff] at onward
    obtain ⟨r, found, _⟩ := onward
    exact (get?_isSome_iff s x).mp (by simp [found])
  -- Meeting an id twice would leave a shorter way.
  have apart : ∀ i j, i < j → j ≤ steps → s.climb i id ≠ s.climb j id := by
    intro i j less within same
    obtain ⟨x, reached, _, onward⟩ := passes j within
    apply shortest (i + (steps - j)) (by omega)
    rw [Nat.add_assoc, climb_add, same, reached]
    exact onward
  have nodup : ((List.range (steps + 1)).map fun i => (s.climb i id).getD "").Nodup := by
    refine List.Nodup.map_on ?_ List.nodup_range
    intro i first j second same
    obtain ⟨x, atFirst, _⟩ := passes i (Nat.le_of_lt_succ (List.mem_range.mp first))
    obtain ⟨y, atSecond, _⟩ := passes j (Nat.le_of_lt_succ (List.mem_range.mp second))
    simp only [atFirst, atSecond, Option.getD_some] at same
    subst same
    rcases Nat.lt_trichotomy i j with less | equal | less
    · exact absurd (atFirst.trans atSecond.symm) (apart i j less (Nat.le_of_lt_succ (List.mem_range.mp second)))
    · exact equal
    · exact absurd (atSecond.trans atFirst.symm) (apart j i less (Nat.le_of_lt_succ (List.mem_range.mp first)))
  have listed : ((List.range (steps + 1)).map fun i => (s.climb i id).getD "") ⊆ s.ids := by
    intro x member
    obtain ⟨i, within, rfl⟩ := List.mem_map.mp member
    obtain ⟨y, reached, live, _⟩ := passes i (Nat.le_of_lt_succ (List.mem_range.mp within))
    simpa [reached] using live
  have short := (List.subperm_of_subset nodup listed).length_le
  simp only [List.length_map, List.length_range, ids] at short
  exact short

theorem Below.within {s : Store α} {top id : String} (below : s.Below top id) :
    ∃ steps < s.size, s.climb (steps + 1) id = some top := by
  obtain ⟨steps, climbed⟩ := below
  induction steps using Nat.strongRecOn with
  | ind steps ih =>
    by_cases shortest : ∀ fewer < steps, s.climb (fewer + 1) id ≠ some top
    · exact ⟨steps, climb_shortest climbed shortest, climbed⟩
    · push Not at shortest
      obtain ⟨fewer, less, earlier⟩ := shortest
      exact ih fewer less earlier

theorem mem_postorder_treesUpTo {s : Store α} {levels : Nat} {top id : String} :
    id ∈ Tree.postorderAll (s.treesUpTo levels top) ↔ ∃ steps < levels, s.climb (steps + 1) id = some top := by
  induction levels generalizing top with
  | zero => simp [treesUpTo, Tree.postorderAll]
  | succ levels ih =>
    rw [Tree.mem_postorderAll]
    constructor
    · rintro ⟨t, member, listed⟩
      obtain ⟨child, r, found, named, rfl⟩ := mem_treesUpTo.mp member
      simp only [Tree.postorder, List.mem_append, List.mem_singleton, ih] at listed
      rcases listed with ⟨steps, within, climbed⟩ | rfl
      · refine ⟨steps + 1, by omega, ?_⟩
        rw [climb_add, climbed]
        exact climb_one.mpr ⟨r, found, named⟩
      · exact ⟨0, by omega, climb_one.mpr ⟨r, found, named⟩⟩
    · rintro ⟨steps, within, climbed⟩
      rw [climb_add, Option.bind_eq_some_iff] at climbed
      obtain ⟨child, reached, last⟩ := climbed
      obtain ⟨r, found, named⟩ := climb_one.mp last
      refine ⟨_, mem_treesUpTo.mpr ⟨child, r, found, named, rfl⟩, ?_⟩
      simp only [Tree.postorder, List.mem_append, List.mem_singleton, ih]
      cases steps with
      | zero => exact .inr (Option.some.inj reached)
      | succ steps => exact .inl ⟨steps, by omega, reached⟩

theorem mem_postorder_trees {s : Store α} {top id : String} :
    id ∈ Tree.postorderAll (s.trees top) ↔ s.Below top id := by
  rw [trees, mem_postorder_treesUpTo]
  constructor
  · rintro ⟨steps, _, climbed⟩
    exact ⟨steps, climbed⟩
  · exact Below.within

end Store

end MarkupEditor
