import MarkupEditor.Proofs.OrderKeys.Room
import MarkupEditor.Proofs.Store.Layout

namespace MarkupEditor

namespace Store

variable {α : Type} [Placed α]

def keyUnder (parent : String) (r : Option α) : Option String :=
  (r.filter fun a => parentId a == parent).map orderKey

theorem keyUnder_eq_some {parent key : String} {r : Option α} :
    keyUnder parent r = some key ↔ ∃ a, r = some a ∧ parentId a = parent ∧ orderKey a = key := by
  simp [keyUnder, Option.filter_eq_some_iff, and_assoc]

theorem isSome_keyUnder {parent : String} {a : α} : (keyUnder parent (some a)).isSome = true ↔ parent = parentId a := by
  rw [Option.isSome_iff_exists]
  constructor
  · intro present
    obtain ⟨key, same⟩ := present
    obtain ⟨b, held, named, _⟩ := keyUnder_eq_some.mp same
    rw [Option.some.inj held]
    exact named.symm
  · intro here
    exact ⟨_, keyUnder_eq_some.mpr ⟨a, rfl, here.symm, rfl⟩⟩

theorem keyUnder_other {parent : String} {a : α} (other : parent ≠ parentId a) : keyUnder parent (some a) = none := by
  rw [← Option.not_isSome_iff_eq_none, isSome_keyUnder]
  exact other

theorem mem_keyedChildren_iff {s : Store α} {parent : String} {e : String × String} :
    e ∈ s.keyedChildren parent ↔ keyUnder parent (s.get? e.2) = some e.1 :=
  mem_keyedChildren.trans keyUnder_eq_some.symm

theorem mem_children_iff {s : Store α} {parent id : String} : id ∈ s.children parent ↔ (keyUnder parent (s.get? id)).isSome = true := by
  rw [mem_children, Option.isSome_iff_exists]
  simp [keyUnder_eq_some]

theorem keyedChildren_congr {s s' : Store α} {parent : String} (same : ∀ id, keyUnder parent (s'.get? id) = keyUnder parent (s.get? id)) :
    s'.keyedChildren parent = s.keyedChildren parent := by
  apply eq_of_sorted (sorted_keyedChildren s' parent) (sorted_keyedChildren s parent) (nodup_keyedChildren s' parent)
    (nodup_keyedChildren s parent)
  intro e
  rw [mem_keyedChildren_iff, mem_keyedChildren_iff, same]

theorem children_put {s : Store α} {id parent : String} {value : Option α} (same : keyUnder parent value = keyUnder parent (s.get? id)) :
    (s.put id value).children parent = s.children parent := by
  rw [children, children, keyedChildren_congr]
  intro key
  rw [get?_put]
  split
  · rename_i here
    rw [same, here]
  · rfl

theorem nodup_children (s : Store α) (parent : String) : (s.children parent).Nodup := by
  apply List.Nodup.map_on _ (nodup_keyedChildren s parent)
  intro a first b second same
  rw [mem_keyedChildren_iff] at first second
  rw [same] at first
  exact Prod.ext (Option.some.inj (first.symm.trans second)) same

theorem children_of_ordered {s : Store α} {parent : String}
    (ordered : ((s.entries.filter fun e => parentId e.2 == parent).map fun e => (orderKey e.2, e.1)).Pairwise fun a b => precedes a b = true) :
    s.children parent = (s.entries.filter fun e => parentId e.2 == parent).map Prod.fst := by
  rw [children, keyedChildren, List.mergeSort_of_pairwise ordered, List.map_map]
  rfl

theorem children_ascending (s : Store α) (parent : String) : (s.children parent).Pairwise fun x y =>
    ∃ r q, s.get? x = some r ∧ s.get? y = some q ∧ (orderKey r < orderKey q ∨ orderKey r = orderKey q ∧ x < y) := by
  have ordered : (s.keyedChildren parent).Pairwise fun a b => precedes a b = true ∧ a ≠ b :=
    (sorted_keyedChildren s parent).and (nodup_keyedChildren s parent)
  apply List.pairwise_map.mpr
  apply ordered.imp_of_mem
  intro a b first second ordered
  obtain ⟨before, apart⟩ := ordered
  obtain ⟨r, foundFirst, -, firstKey⟩ := mem_keyedChildren.mp first
  obtain ⟨q, foundSecond, -, secondKey⟩ := mem_keyedChildren.mp second
  refine ⟨r, q, foundFirst, foundSecond, ?_⟩
  rw [firstKey, secondKey]
  rcases (precedes_iff a b).mp before with less | ⟨same, upTo⟩
  · exact .inl less
  · exact .inr ⟨same, lt_of_le_of_ne upTo fun ids => apart (Prod.ext same ids)⟩

theorem eq_of_ascending {s : Store α} {xs ys : List String}
    (first : xs.Pairwise fun x y => ∃ r q, s.get? x = some r ∧ s.get? y = some q ∧ (orderKey r < orderKey q ∨ orderKey r = orderKey q ∧ x < y))
    (second : ys.Pairwise fun x y => ∃ r q, s.get? x = some r ∧ s.get? y = some q ∧ (orderKey r < orderKey q ∨ orderKey r = orderKey q ∧ x < y))
    (same : ∀ id, id ∈ xs ↔ id ∈ ys) : xs = ys := by
  have irrefl : ∀ {x y}, (∃ r q, s.get? x = some r ∧ s.get? y = some q ∧ (orderKey r < orderKey q ∨ orderKey r = orderKey q ∧ x < y)) →
      x ≠ y := by
    rintro x y ⟨r, q, foundFirst, foundSecond, less⟩ rfl
    obtain rfl := Option.some.inj (foundFirst.symm.trans foundSecond)
    rcases less with less | ⟨_, less⟩ <;> exact lt_irrefl _ less
  refine List.Perm.eq_of_pairwise ?_ first second ((List.perm_ext_iff_of_nodup (first.imp irrefl) (second.imp irrefl)).mpr same)
  rintro x y - - ⟨r, q, foundFirst, foundSecond, less⟩ ⟨q', r', foundSecond', foundFirst', less'⟩
  obtain rfl := Option.some.inj (foundFirst.symm.trans foundFirst')
  obtain rfl := Option.some.inj (foundSecond.symm.trans foundSecond')
  rcases less with less | ⟨keys, less⟩
  · rcases less' with less' | ⟨keys', _⟩
    · exact absurd less' less.asymm
    · exact absurd less (keys' ▸ lt_irrefl _)
  · rcases less' with less' | ⟨_, less'⟩
    · exact absurd less' (keys ▸ lt_irrefl _)
    · exact absurd less' less.asymm

theorem appendKeys_fits {s : Store α} (formed : ∀ id r, s.get? id = some r → OrderKey.WellFormed (orderKey r))
    (parent : Option String) (n : Nat) :
    (s.appendKeys parent n).length = n ∧ (∀ key ∈ s.appendKeys parent n, OrderKey.WellFormed key) ∧ (s.appendKeys parent n).Pairwise (· < ·) ∧
      ∀ e ∈ s.keyedChildren (parent.getD rootsId), ∀ key ∈ s.appendKeys parent n, e.1 < key := by
  have lower : ∀ key ∈ (s.keyedChildren (parent.getD rootsId)).getLast?.map Prod.fst, OrderKey.WellFormed key := by
    intro key held
    obtain ⟨e, last, rfl⟩ := Option.map_eq_some_iff.mp held
    obtain ⟨r, found, _, same⟩ := mem_keyedChildren.mp (List.mem_of_getLast? last)
    exact same ▸ formed e.2 r found
  have upper : ∀ key ∈ (none : Option String), OrderKey.WellFormed key := by
    intro key held
    cases held
  obtain ⟨length, fits⟩ := OrderKey.batch_fits lower upper n
  refine ⟨length, fits.formed, fits.ascending, ?_⟩
  intro e member key listed
  have sorted := sorted_keyedChildren s (parent.getD rootsId)
  obtain ⟨init, last, whole⟩ := (List.eq_nil_or_concat' (s.keyedChildren (parent.getD rootsId))).resolve_left (List.ne_nil_of_mem member)
  have above : last.1 < key := fits.above last.1 (by simp [whole]) key listed
  rw [whole] at member sorted
  rcases List.mem_append.mp member with earlier | here
  · rcases (precedes_iff e last).mp ((List.pairwise_append.mp sorted).2.2 e earlier last List.mem_cons_self) with less | ⟨same, _⟩
    · exact less.trans above
    · exact same ▸ above
  · rwa [List.mem_singleton.mp here]

end Store

end MarkupEditor
