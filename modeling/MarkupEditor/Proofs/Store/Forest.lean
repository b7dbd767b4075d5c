import Mathlib.Logic.Relation
import Mathlib.Order.WellFounded
import MarkupEditor.Proofs.Store.Below

namespace MarkupEditor

namespace Store

variable {α : Type} [Placed α]

def Names (get : String → Option α) (parent child : String) : Prop := ∃ r, get child = some r ∧ Placed.parent r = some parent

theorem Names.unique {get : String → Option α} {p q child : String} (first : Names get p child) (second : Names get q child) : p = q := by
  obtain ⟨r, found, named⟩ := first
  obtain ⟨r', found', named'⟩ := second
  obtain rfl := Option.some.inj (found.symm.trans found')
  exact Option.some.inj (named.symm.trans named')

inductive Anchored (get : String → Option α) : String → Prop where
  | root {id : String} {r : α} (found : get id = some r) (orphan : Placed.parent r = none) : Anchored get id
  | under {id parent : String} {r : α} (found : get id = some r) (named : Placed.parent r = some parent)
      (above : Anchored get parent) : Anchored get id

structure Wooded (get : String → Option α) : Prop where
  unnamed : get rootsId = none
  anchored : ∀ id r, get id = some r → Anchored get id

theorem Anchored.live {get : String → Option α} {id : String} (anchored : Anchored get id) : ∃ r, get id = some r := by
  cases anchored with
  | root found _ => exact ⟨_, found⟩
  | under found _ _ => exact ⟨_, found⟩

theorem Anchored.acc {get : String → Option α} {id : String} (anchored : Anchored get id) : Acc (Names get) id := by
  induction anchored with
  | root found orphan =>
    apply Acc.intro
    intro parent names
    obtain ⟨r, held, named⟩ := names
    cases found.symm.trans held
    cases orphan.symm.trans named
  | under found named _ ih =>
    apply Acc.intro
    intro parent names
    obtain rfl := names.unique ⟨_, found, named⟩
    exact ih

theorem Anchored.transfer {get get' : String → Option α} {id : String} (anchored : Anchored get id) (ok : String → Prop)
    (each : ∀ id r, ok id → get id = some r →
      Anchored get' id ∨ ∃ r', get' id = some r' ∧ Placed.parent r' = Placed.parent r ∧ ∀ p, Placed.parent r = some p → ok p)
    (start : ok id) : Anchored get' id := by
  induction anchored with
  | root found orphan =>
    rcases each _ _ start found with anew | ⟨r', held, same, _⟩
    · exact anew
    · exact .root held (same.trans orphan)
  | under found named _ ih =>
    rcases each _ _ start found with anew | ⟨r', held, same, onward⟩
    · exact anew
    · exact .under held (same.trans named) (ih (onward _ named))

namespace Wooded

variable {get : String → Option α} {id parent child : String}

theorem wellFounded (wooded : Wooded get) : WellFounded (Names get) := by
  constructor
  intro id
  cases found : get id with
  | none =>
    apply Acc.intro
    intro parent names
    obtain ⟨r, held, _⟩ := names
    cases found.symm.trans held
  | some r => exact (wooded.anchored id r found).acc

theorem acyclic (wooded : Wooded get) (id : String) : ¬ Relation.TransGen (Names get) id id :=
  fun circle => wooded.wellFounded.transGen.irrefl.irrefl id circle

theorem above (wooded : Wooded get) (names : Names get parent child) : Anchored get parent := by
  obtain ⟨r, found, named⟩ := names
  cases wooded.anchored child r found with
  | root held orphan =>
    cases found.symm.trans held
    cases orphan.symm.trans named
  | under held named' above =>
    obtain rfl := Names.unique ⟨r, found, named⟩ ⟨_, held, named'⟩
    exact above

theorem named (wooded : Wooded get) {r : α} (found : get id = some r) : id ≠ rootsId := by
  intro empty
  cases wooded.unnamed.symm.trans (empty ▸ found)

end Wooded

theorem names_of_parent? {s : Store α} {parent child : String} (found : s.parent? child = some parent) : Names s.get? parent child := by
  unfold parent? at found
  split at found
  · rename_i r held
    split at found
    · rename_i p named
      split at found
      · cases found
        exact ⟨r, held, named⟩
      · cases found
    · cases found
  · cases found

theorem mem_of_parent? {s : Store α} {parent child : String} (found : s.parent? child = some parent) : parent ∈ s.ids := by
  unfold parent? at found
  split at found
  · split at found
    · split at found
      · rename_i contained
        cases found
        exact (contains_iff s _).mp contained
      · cases found
    · cases found
  · cases found

theorem mem_ancestorsUpTo {s : Store α} {steps : Nat} {x id : String} (member : x ∈ s.ancestorsUpTo steps id) :
    Relation.TransGen (Names s.get?) x id ∧ x ∈ s.ids := by
  induction steps generalizing id with
  | zero => cases member
  | succ steps ih =>
    unfold ancestorsUpTo at member
    split at member
    · rename_i parent found
      have names := names_of_parent? found
      rcases List.mem_cons.mp member with same | further
      · exact same ▸ ⟨.single names, mem_of_parent? found⟩
      · obtain ⟨above, live⟩ := ih further
        exact ⟨.tail above names, live⟩
    · cases member

theorem ancestorsUpTo_ended {s : Store α} {steps : Nat} {id : String} (ended : (s.ancestorsUpTo steps id).length < steps) (more : Nat) :
    s.ancestorsUpTo (steps + more) id = s.ancestorsUpTo steps id := by
  induction steps generalizing id with
  | zero => cases ended
  | succ steps ih =>
    rw [Nat.add_right_comm]
    unfold ancestorsUpTo at ended ⊢
    cases found : s.parent? id with
    | none => rfl
    | some parent =>
      rw [found] at ended
      simp only
      rw [ih (Nat.lt_of_succ_lt_succ ended)]

theorem root_orphan {s : Store α} {id : String} {r : α} (found : s.get? id = some r) (orphan : Placed.parent r = none) : s.root id = id := by
  have alone : s.parent? id = none := by simp [parent?, found, orphan]
  have none : s.ancestors id = [] := by
    unfold ancestors
    cases s.size with
    | zero => rfl
    | succ n => rw [ancestorsUpTo, alone]
  rw [root, none]
  rfl

-- What stands below an entry can be told from the trees below it.
instance (s : Store α) (top id : String) : Decidable (s.Below top id) :=
  decidable_of_iff (id ∈ Tree.postorderAll (s.trees top)) mem_postorder_trees

theorem parent_of_parentId {r : α} {id : String} (under : parentId r = id) (named : id ≠ rootsId) : Placed.parent r = some id := by
  unfold parentId at under
  cases above : Placed.parent r with
  | none =>
    rw [above] at under
    exact absurd under.symm named
  | some p =>
    rw [above] at under
    exact congrArg some under

theorem names_of_child {s : Store α} {id child : String} (named : id ≠ rootsId) (member : child ∈ s.children id) : Names s.get? id child := by
  obtain ⟨r, found, under⟩ := mem_children.mp member
  exact ⟨r, found, parent_of_parentId under named⟩

section

variable {s : Store α} (wooded : Wooded s.get?)

include wooded

theorem parent?_eq_some {parent child : String} : s.parent? child = some parent ↔ Names s.get? parent child := by
  constructor
  · exact names_of_parent?
  · intro names
    obtain ⟨q, live⟩ := (wooded.above names).live
    obtain ⟨r, found, named⟩ := names
    have contained : s.contains parent = true := by
      rw [contains_eq_isSome, live]
      rfl
    simp [parent?, found, named, contained]

theorem parent?_eq (id : String) : s.parent? id = (s.get? id).bind Placed.parent := by
  apply Option.ext
  intro parent
  rw [parent?_eq_some wooded, Option.bind_eq_some_iff]
  rfl

theorem nodup_ancestorsUpTo (steps : Nat) (id : String) : (id :: s.ancestorsUpTo steps id).Nodup := by
  induction steps generalizing id with
  | zero => exact List.nodup_singleton id
  | succ steps ih =>
    refine List.nodup_cons.mpr ⟨fun member => wooded.acyclic id (mem_ancestorsUpTo member).1, ?_⟩
    unfold ancestorsUpTo
    split
    · exact ih _
    · exact List.nodup_nil

theorem length_ancestorsUpTo (steps : Nat) {id : String} (live : id ∈ s.ids) : (s.ancestorsUpTo steps id).length < s.size := by
  have listed : id :: s.ancestorsUpTo steps id ⊆ s.ids := by
    intro x member
    rcases List.mem_cons.mp member with same | further
    · exact same ▸ live
    · exact (mem_ancestorsUpTo further).2
  have short := (List.subperm_of_subset (nodup_ancestorsUpTo wooded steps id) listed).length_le
  rw [List.length_cons, ids, List.length_map] at short
  exact short

theorem ancestors_eq (id : String) :
    s.ancestors id = match s.parent? id with
      | some parent => parent :: s.ancestors parent
      | none => [] := by
  unfold ancestors
  cases size : s.size with
  | zero =>
    cases found : s.parent? id with
    | none => rfl
    | some parent =>
      have live := length_ancestorsUpTo wooded 0 (mem_of_parent? found)
      simp [size] at live
  | succ n =>
    rw [ancestorsUpTo]
    cases found : s.parent? id with
    | none => rfl
    | some parent =>
      obtain ⟨r, held, _⟩ := names_of_parent? found
      have live : id ∈ s.ids := (get?_isSome_iff s id).mp (by rw [held]; rfl)
      have short := length_ancestorsUpTo wooded (n + 1) live
      rw [ancestorsUpTo, found, size] at short
      exact congrArg _ (ancestorsUpTo_ended (Nat.lt_of_succ_lt_succ short) 1).symm

theorem mem_ancestors {x id : String} : x ∈ s.ancestors id ↔ Relation.TransGen (Names s.get?) x id := by
  constructor
  · intro member
    exact (mem_ancestorsUpTo member).1
  · intro above
    induction above with
    | single names =>
      rw [ancestors_eq wooded, (parent?_eq_some wooded).mpr names]
      exact List.mem_cons_self
    | tail _ names ih =>
      rw [ancestors_eq wooded, (parent?_eq_some wooded).mpr names]
      exact List.mem_cons_of_mem _ ih

theorem parent?_root (id : String) : s.parent? (s.root id) = none := by
  induction id using wooded.wellFounded.induction with
  | _ id ih =>
    rw [root, ancestors_eq wooded]
    cases found : s.parent? id with
    | none => exact found
    | some parent =>
      have above := ih parent (names_of_parent? found)
      rw [root] at above
      simpa [List.getLast?_cons] using above

theorem root_child {parent child : String} (names : Names s.get? parent child) : s.root child = s.root parent := by
  rw [root, ancestors_eq wooded, (parent?_eq_some wooded).mpr names, List.getLast?_cons]
  rfl

-- Going down comes to an end as well: below another the walk up is longer.
theorem wellFounded_children : WellFounded fun child parent => Names s.get? parent child := by
  apply Subrelation.wf _ (measure fun id => s.size - (s.ancestors id).length).wf
  intro child parent names
  have longer := ancestors_eq wooded child
  rw [(parent?_eq_some wooded).mpr names] at longer
  obtain ⟨r, found, _⟩ := names
  have bound := length_ancestorsUpTo wooded s.size ((get?_isSome_iff s child).mp (by rw [found]; rfl))
  rw [← ancestors, longer, List.length_cons] at bound
  show s.size - (s.ancestors child).length < s.size - (s.ancestors parent).length
  rw [longer, List.length_cons]
  omega

theorem below_iff {top id : String} (named : top ≠ rootsId) : s.Below top id ↔ Relation.TransGen (Names s.get?) top id := by
  constructor
  · intro below
    obtain ⟨steps, climbed⟩ := below
    induction steps generalizing id with
    | zero =>
      obtain ⟨r, found, under⟩ := climb_one.mp climbed
      exact .single ⟨r, found, parent_of_parentId under named⟩
    | succ steps ih =>
      rw [climb, Option.bind_eq_some_iff] at climbed
      obtain ⟨r, found, onward⟩ := climbed
      unfold parentId at onward
      cases above : Placed.parent r with
      | none =>
        rw [above, Option.getD_none, climb, wooded.unnamed] at onward
        cases onward
      | some p =>
        rw [above] at onward
        exact .tail (ih onward) ⟨r, found, above⟩
  · intro above
    induction above with
    | single names =>
      obtain ⟨r, found, parent⟩ := names
      exact below_self found (by rw [parentId, parent]; rfl)
    | tail _ names ih =>
      obtain ⟨r, found, parent⟩ := names
      exact below_of_child ih found (by rw [parentId, parent]; rfl)

theorem not_below_self {id : String} (named : id ≠ rootsId) : ¬ s.Below id id :=
  fun below => wooded.acyclic id ((below_iff wooded named).mp below)

theorem not_below_orphan {top id : String} {r : α} (named : top ≠ rootsId) (found : s.get? id = some r) (orphan : Placed.parent r = none) :
    ¬ s.Below top id := by
  intro below
  obtain ⟨parent, _, q, held, under⟩ := Relation.TransGen.tail'_iff.mp ((below_iff wooded named).mp below)
  obtain rfl := Option.some.inj (found.symm.trans held)
  cases orphan.symm.trans under

theorem ancestors_child {id child : String} (live : id ∈ s.ids) (member : child ∈ s.children id) :
    child ∈ s.ids ∧ (s.ancestors child).length = (s.ancestors id).length + 1 := by
  obtain ⟨q, held⟩ := Option.isSome_iff_exists.mp ((get?_isSome_iff s id).mpr live)
  have names := names_of_child (wooded.named held) member
  have longer := ancestors_eq wooded child
  rw [(parent?_eq_some wooded).mpr names] at longer
  obtain ⟨r, found, _⟩ := names
  exact ⟨(get?_isSome_iff s child).mp (by rw [found]; rfl), congrArg List.length longer⟩

theorem treesUpTo_ended {levels : Nat} {id : String} (live : id ∈ s.ids) (enough : s.size ≤ levels + 1 + (s.ancestors id).length) (more : Nat) :
    s.treesUpTo (levels + more) id = s.treesUpTo levels id := by
  induction levels generalizing id with
  | zero =>
    have childless : s.children id = [] := by
      apply List.eq_nil_iff_forall_not_mem.mpr
      intro child member
      obtain ⟨within, longer⟩ := ancestors_child wooded live member
      have bound := length_ancestorsUpTo wooded s.size within
      rw [← ancestors, longer] at bound
      omega
    cases more with
    | zero => rfl
    | succ more =>
      show (s.children id).filterMap _ = []
      rw [childless]
      rfl
  | succ levels ih =>
    rw [Nat.add_right_comm, treesUpTo, treesUpTo]
    apply List.filterMap_congr
    intro child member
    obtain ⟨within, longer⟩ := ancestors_child wooded live member
    rw [ih within (by omega)]

theorem trees_eq (id : String) :
    s.trees id = (s.children id).filterMap fun child => (s.get? child).map fun record => .mk child record (s.trees child) := by
  unfold trees
  cases size : s.size with
  | zero =>
    have childless : s.children id = [] := by
      apply List.eq_nil_iff_forall_not_mem.mpr
      intro child member
      obtain ⟨r, found, _⟩ := mem_children.mp member
      have bound := length_ancestorsUpTo wooded 0 ((get?_isSome_iff s child).mp (by rw [found]; rfl))
      omega
    rw [childless]
    rfl
  | succ n =>
    rw [treesUpTo]
    apply List.filterMap_congr
    intro child member
    obtain ⟨r, found, _⟩ := mem_children.mp member
    have live := (get?_isSome_iff s child).mp (by rw [found]; rfl)
    rw [treesUpTo_ended wooded live (by omega) 1]

end

end Store

end MarkupEditor
