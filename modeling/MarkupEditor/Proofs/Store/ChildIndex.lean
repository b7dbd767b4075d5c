import MarkupEditor.Proofs.Store.Children
import MarkupEditor.Store.ChildIndex

namespace MarkupEditor

namespace ChildList

theorem indexOf?_ofItems {items : List String} (nodup : items.Nodup) (id : String) (n : Nat) :
    (ofItems items).indexOf? id = some n ↔ items[n]? = some id := by
  have ids : (items.zipIdx.map Prod.fst).Nodup := by rwa [List.zipIdx_map_fst]
  exact (Store.find?_eq_some_iff ids id n).trans (List.mem_zipIdx_iff_getElem? ..)

end ChildList

namespace IdSet

theorem mem_insert {s : IdSet} {id x : String} : x ∈ (s.insert id).ids ↔ x ∈ s.ids ∨ x = id := by
  unfold insert
  split
  · rename_i held
    constructor
    · exact .inl
    · intro either
      rcases either with member | same
      · exact member
      · exact same ▸ held
  · exact List.mem_append.trans (or_congr_right List.mem_singleton)

theorem mem_erase {s : IdSet} {id x : String} : x ∈ (s.erase id).ids ↔ x ∈ s.ids ∧ x ≠ id := by
  simp [erase]

end IdSet

namespace ChildIndex

def members (i : ChildIndex) (parent : String) : List String := ((i.groups.get? parent).map (·.members.ids)).getD []

def listing? (i : ChildIndex) (parent : String) : Option ChildList := (i.groups.get? parent).bind ChildGroup.listing

theorem members_put (i : ChildIndex) (parent : String) (group : Option ChildGroup) (p : String) :
    members ⟨i.groups.put parent group⟩ p = if p = parent then (group.map (·.members.ids)).getD [] else i.members p := by
  simp only [members, Store.get?_put]
  split <;> rfl

theorem listing?_put (i : ChildIndex) (parent : String) (group : Option ChildGroup) (p : String) :
    listing? ⟨i.groups.put parent group⟩ p = if p = parent then group.bind ChildGroup.listing else i.listing? p := by
  simp only [listing?, Store.get?_put]
  split <;> rfl

theorem listing?_absent {i : ChildIndex} {parent : String} (absent : i.groups.get? parent = none) (p : String) :
    i.listing? p = if p = parent then none else i.listing? p := by
  split
  · rename_i here
    rw [listing?, here, absent]
    rfl
  · rfl

theorem mem_insert (i : ChildIndex) (parent id p x : String) :
    x ∈ (i.insert parent id).members p ↔ x ∈ i.members p ∨ p = parent ∧ x = id := by
  have own : ∀ group : Option ChildGroup, x ∈ ((group.getD {}).members.insert id).ids ↔ x ∈ (group.map (·.members.ids)).getD [] ∨ x = id := by
    intro group
    rw [IdSet.mem_insert]
    cases group <;> rfl
  rw [insert, ← Store.put, members_put]
  split
  · rename_i here
    simp only [Option.map_some, Option.getD_some, own, here, true_and, members]
  · rename_i other
    simp [other]

theorem listing?_insert (i : ChildIndex) (parent id p : String) :
    (i.insert parent id).listing? p = if p = parent then none else i.listing? p := by
  rw [insert, ← Store.put, listing?_put]
  rfl

theorem remove_eq {i : ChildIndex} {parent : String} {group : ChildGroup} (held : i.groups.get? parent = some group) (id : String) :
    i.remove parent id =
      ⟨i.groups.put parent (if (group.members.erase id).isEmpty then none else some { members := group.members.erase id })⟩ := by
  rw [remove, held]
  dsimp only
  split <;> rfl

theorem mem_remove (i : ChildIndex) (parent id p x : String) :
    x ∈ (i.remove parent id).members p ↔ x ∈ i.members p ∧ ¬ (p = parent ∧ x = id) := by
  cases held : i.groups.get? parent with
  | none =>
    rw [remove, held]
    by_cases here : p = parent
    · simp [members, here, held]
    · simp [here]
  | some group =>
    rw [remove_eq held, members_put]
    split
    · rename_i here
      have rest : x ∈ (group.members.erase id).ids ↔ x ∈ i.members p ∧ ¬ (p = parent ∧ x = id) := by
        simp [members, here, held, IdSet.mem_erase]
      rw [← rest]
      split
      · rename_i empty
        simp [List.isEmpty_iff.mp empty]
      · rfl
    · rename_i other
      simp [other]

theorem listing?_remove (i : ChildIndex) (parent id p : String) :
    (i.remove parent id).listing? p = if p = parent then none else i.listing? p := by
  cases held : i.groups.get? parent with
  | none =>
    rw [remove, held]
    exact listing?_absent held p
  | some group =>
    have dropped : (if (group.members.erase id).isEmpty then none else some { members := group.members.erase id }).bind
        ChildGroup.listing = none := by
      split <;> rfl
    rw [remove_eq held, listing?_put, dropped]

theorem members_invalidate (i : ChildIndex) (parent p : String) : (i.invalidate parent).members p = i.members p := by
  cases held : i.groups.get? parent with
  | none => rw [invalidate, held]
  | some group =>
    rw [invalidate, held]
    dsimp only
    rw [← Store.put, members_put]
    split
    · rename_i here
      rw [members, here, held]
      rfl
    · rfl

theorem listing?_invalidate (i : ChildIndex) (parent p : String) :
    (i.invalidate parent).listing? p = if p = parent then none else i.listing? p := by
  cases held : i.groups.get? parent with
  | none =>
    rw [invalidate, held]
    exact listing?_absent held p
  | some group =>
    rw [invalidate, held]
    dsimp only
    rw [← Store.put, listing?_put]
    rfl

variable {α : Type} [Placed α]

-- A listing may be kept or not. If it is, it is the one that sorting would give now, whatever has been read and written
-- before.
structure Matches (i : ChildIndex) (s : Store α) : Prop where
  members : ∀ parent id, id ∈ i.members parent ↔ id ∈ s.children parent
  listings : ∀ parent listing, i.listing? parent = some listing → listing = .ofItems (s.children parent)

theorem insertAll_mem (entries : List (String × α)) (i : ChildIndex) (p x : String) :
    x ∈ (entries.foldl (fun i e => i.insert (Store.parentId e.2) e.1) i).members p ↔
      x ∈ i.members p ∨ ∃ r, (x, r) ∈ entries ∧ Store.parentId r = p := by
  induction entries generalizing i with
  | nil => simp
  | cons e entries ih =>
    rw [List.foldl_cons, ih, mem_insert, or_assoc]
    apply or_congr_right
    constructor
    · intro either
      rcases either with ⟨parent, id⟩ | ⟨r, member, named⟩
      · exact ⟨e.2, id ▸ List.mem_cons_self, parent.symm⟩
      · exact ⟨r, List.mem_cons_of_mem _ member, named⟩
    · intro later
      obtain ⟨r, member, named⟩ := later
      rcases List.mem_cons.mp member with same | member
      · subst same
        exact .inl ⟨named.symm, rfl⟩
      · exact .inr ⟨r, member, named⟩

theorem insertAll_listing? (entries : List (String × α)) {i : ChildIndex} (none : ∀ p, i.listing? p = none) (p : String) :
    (entries.foldl (fun i e => i.insert (Store.parentId e.2) e.1) i).listing? p = Option.none := by
  induction entries generalizing i with
  | nil => exact none p
  | cons e entries ih =>
    apply ih
    intro q
    rw [listing?_insert, none, ite_self]

theorem matches_ofStore (s : Store α) : (ofStore s).Matches s := by
  constructor
  · intro parent id
    rw [ofStore, insertAll_mem, Store.mem_children]
    simp only [Store.get?_eq_some_iff]
    exact or_iff_right List.not_mem_nil
  · intro parent listing kept
    rw [ofStore, insertAll_listing? _ (fun _ => rfl)] at kept
    cases kept

theorem sorted_eq {s : Store α} {parent : String} {ids : List String} (nodup : ids.Nodup) (members : ∀ id, id ∈ ids ↔ id ∈ s.children parent) :
    sorted s ids = s.children parent := by
  have keyed : ∀ id key, (key, id) ∈ s.keyedChildren parent ↔ id ∈ ids ∧ (s.orderKeyOf? id).getD OrderKey.default = key := by
    intro id key
    rw [members, Store.mem_keyedChildren, Store.mem_children]
    constructor
    · intro listed
      obtain ⟨r, found, named, same⟩ := listed
      exact ⟨⟨r, found, named⟩, by simpa [Store.orderKeyOf?, found] using same⟩
    · intro listed
      obtain ⟨⟨r, found, named⟩, same⟩ := listed
      exact ⟨r, found, named, by simpa [Store.orderKeyOf?, found] using same⟩
  rw [sorted, Store.children]
  congr 1
  have apart : (ids.map fun id => ((s.orderKeyOf? id).getD OrderKey.default, id)).Nodup :=
    nodup.map fun a b same => (Prod.mk.inj same).2
  apply Store.eq_of_sorted (List.pairwise_mergeSort Store.precedes_trans Store.precedes_total _) (Store.sorted_keyedChildren s parent)
    ((List.mergeSort_perm _ _).nodup_iff.mpr apart) (Store.nodup_keyedChildren s parent)
  intro e
  rw [List.mem_mergeSort, List.mem_map, keyed e.2 e.1]
  constructor
  · intro listed
    obtain ⟨id, member, same⟩ := listed
    subst same
    exact ⟨member, rfl⟩
  · intro listed
    obtain ⟨member, same⟩ := listed
    exact ⟨e.2, member, Prod.ext same rfl⟩

theorem read_listing {i : ChildIndex} {s : Store α} (agrees : i.Matches s) (parent : String) :
    (i.read s parent).1 = .ofItems (s.children parent) := by
  have members := agrees.members parent
  have listings := agrees.listings parent
  unfold read
  cases held : i.groups.get? parent with
  | none =>
    have nothing : s.children parent = [] := by
      apply List.eq_nil_iff_forall_not_mem.mpr
      intro id member
      simpa [ChildIndex.members, held] using (members id).mpr member
    rw [nothing]
    rfl
  | some group =>
    dsimp only
    cases kept : group.listing with
    | some listing => exact listings listing (by rw [listing?, held]; exact kept)
    | none =>
      have own : sorted s group.members.ids = s.children parent := by
        apply sorted_eq group.members.nodup
        intro id
        rw [← members, ChildIndex.members, held]
        rfl
      exact congrArg ChildList.ofItems own

theorem matches_read {i : ChildIndex} {s : Store α} (agrees : i.Matches s) (parent : String) : (i.read s parent).2.Matches s := by
  have told := read_listing agrees parent
  unfold read at told ⊢
  cases held : i.groups.get? parent with
  | none => exact agrees
  | some group =>
    rw [held] at told
    dsimp only at told ⊢
    cases kept : group.listing with
    | some listing => exact agrees
    | none =>
      rw [kept] at told
      dsimp only at told ⊢
      rw [← Store.put]
      constructor
      · intro p id
        rw [← agrees.members, members_put]
        split
        · rename_i here
          rw [ChildIndex.members, here, held]
          rfl
        · rfl
      · intro p listing same
        rw [listing?_put] at same
        split at same
        · rename_i here
          rw [here]
          exact (Option.some.inj same).symm.trans told
        · exact agrees.listings p listing same

-- A write moves one entry from the group where it stood to the one where it stands, and a listing may be kept where
-- the entry has the same key, or none, before and after.
theorem Matches.put {i j : ChildIndex} {s : Store α} {id : String} {value : Option α} (agrees : i.Matches s)
    (members : ∀ p x, x ∈ j.members p ↔ if x = id then (Store.keyUnder p value).isSome = true else x ∈ i.members p)
    (listings : ∀ p listing, j.listing? p = some listing →
      i.listing? p = some listing ∧ Store.keyUnder p value = Store.keyUnder p (s.get? id)) : j.Matches (s.put id value) := by
  constructor
  · intro p x
    rw [members, Store.mem_children_iff, Store.get?_put]
    split
    · rfl
    · rw [agrees.members, Store.mem_children_iff]
  · intro p listing kept
    obtain ⟨before, same⟩ := listings p listing kept
    rw [Store.children_put same]
    exact agrees.listings p listing before

section

variable {i : ChildIndex} {s : Store α} {id : String}

theorem Matches.own (agrees : i.Matches s) (id p : String) : id ∈ i.members p ↔ (Store.keyUnder p (s.get? id)).isSome = true := by
  rw [agrees.members, Store.mem_children_iff]

theorem Matches.congr {s' : Store α} (agrees : i.Matches s) (same : ∀ id, s'.get? id = s.get? id) : i.Matches s' := by
  have children : ∀ parent, s'.children parent = s.children parent := by
    intro parent
    rw [Store.children, Store.children, Store.keyedChildren_congr]
    intro id
    rw [same]
  constructor
  · intro parent id
    rw [agrees.members, children]
  · intro parent listing kept
    rw [children]
    exact agrees.listings parent listing kept

theorem Matches.added (agrees : i.Matches s) (absent : s.get? id = none) (new : α) :
    (i.insert (Store.parentId new) id).Matches (s.put id (some new)) := by
  apply agrees.put
  · intro p x
    rw [mem_insert]
    split
    · rename_i here
      rw [here, agrees.own, absent, Store.isSome_keyUnder]
      simp [Store.keyUnder]
    · rename_i other
      simp [other]
  · intro p listing kept
    rw [listing?_insert] at kept
    split at kept
    · cases kept
    · rename_i other
      rw [absent, Store.keyUnder_other other]
      exact ⟨kept, rfl⟩

theorem Matches.erased {old : α} (agrees : i.Matches s) (held : s.get? id = some old) :
    (i.remove (Store.parentId old) id).Matches (s.put id none) := by
  apply agrees.put
  · intro p x
    rw [mem_remove]
    split
    · rename_i here
      rw [here, agrees.own, held, Store.isSome_keyUnder]
      simp [Store.keyUnder]
    · rename_i other
      simp [other]
  · intro p listing kept
    rw [listing?_remove] at kept
    split at kept
    · cases kept
    · rename_i other
      rw [held, Store.keyUnder_other other]
      exact ⟨kept, rfl⟩

theorem Matches.moved {old : α} (agrees : i.Matches s) (held : s.get? id = some old) (new : α) :
    ((i.remove (Store.parentId old) id).insert (Store.parentId new) id).Matches (s.put id (some new)) := by
  have absent : (s.put id none).get? id = none := by rw [Store.get?_put, if_pos rfl]
  apply ((agrees.erased held).added absent new).congr
  intro key
  simp only [Store.get?_put]
  split <;> rfl

theorem Matches.stayed {old new : α} (agrees : i.Matches s) (held : s.get? id = some old)
    (parent : Store.parentId new = Store.parentId old) (p x : String) :
    x ∈ i.members p ↔ if x = id then (Store.keyUnder p (some new)).isSome = true else x ∈ i.members p := by
  split
  · rename_i here
    rw [here, agrees.own, held, Store.isSome_keyUnder, Store.isSome_keyUnder, parent]
  · rfl

theorem Matches.reordered {old new : α} (agrees : i.Matches s) (held : s.get? id = some old) (parent : Store.parentId new = Store.parentId old) :
    (i.invalidate (Store.parentId new)).Matches (s.put id (some new)) := by
  apply agrees.put
  · intro p x
    rw [members_invalidate]
    exact agrees.stayed held parent p x
  · intro p listing kept
    rw [listing?_invalidate] at kept
    split at kept
    · cases kept
    · rename_i other
      rw [held, Store.keyUnder_other other, Store.keyUnder_other (parent ▸ other)]
      exact ⟨kept, rfl⟩

theorem Matches.kept {old new : α} (agrees : i.Matches s) (held : s.get? id = some old) (parent : Store.parentId new = Store.parentId old)
    (order : Placed.order new = Placed.order old) : i.Matches (s.put id (some new)) := by
  apply agrees.put (agrees.stayed held parent)
  intro p listing kept
  refine ⟨kept, ?_⟩
  simp only [held, Store.keyUnder, Option.filter, parent]
  split
  · exact congrArg (some <| ·.getD OrderKey.default) order
  · rfl

theorem Matches.note (agrees : i.Matches s) (id : String) (value : Option α) : (i.note ⟨id, s.get? id, value⟩).Matches (s.put id value) := by
  unfold ChildIndex.note
  cases held : s.get? id with
  | none =>
    cases value with
    | none =>
      apply agrees.congr
      intro key
      rw [Store.get?_put]
      split
      · rename_i here
        rw [here, held]
      · rfl
    | some new => exact agrees.added held new
  | some old =>
    cases value with
    | none => exact agrees.erased held
    | some new =>
      dsimp only
      split
      · exact agrees.moved held new
      · rename_i stays
        have parent : Store.parentId new = Store.parentId old := (Decidable.not_not.mp stays).symm
        split
        · exact agrees.reordered held parent
        · rename_i order
          exact agrees.kept held parent (Decidable.not_not.mp order).symm

end

end ChildIndex

end MarkupEditor
