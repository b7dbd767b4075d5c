import MarkupEditor.Proofs.Store.Children
import MarkupEditor.Proofs.Store.Forest

namespace MarkupEditor

namespace Tree

variable {α : Type}

mutual

theorem mem_preorder {id : String} : ∀ t : Tree α, id ∈ t.preorder ↔ id ∈ t.postorder
  | mk top value children => by rw [preorder, postorder, List.mem_cons, List.mem_append, List.mem_singleton, mem_preorderAll children, or_comm]

theorem mem_preorderAll {id : String} : ∀ ts : List (Tree α), id ∈ preorderAll ts ↔ id ∈ postorderAll ts
  | [] => Iff.rfl
  | t :: ts => by rw [preorderAll, postorderAll, List.mem_append, List.mem_append, mem_preorder t, mem_preorderAll ts]

end

end Tree

namespace Store

variable {α : Type} [Placed α] {s : Store α}

theorem mem_descendants {top id : String} : id ∈ s.descendants top ↔ s.Below top id := by
  rw [descendants, Tree.mem_preorderAll, mem_postorder_trees]

theorem above_total {a b id : String} (first : Relation.ReflTransGen (Names s.get?) a id) (second : Relation.ReflTransGen (Names s.get?) b id) :
    Relation.ReflTransGen (Names s.get?) a b ∨ Relation.ReflTransGen (Names s.get?) b a := by
  have unique : Relator.RightUnique (Function.swap (Names s.get?)) := fun _ _ _ first second => Names.unique first second
  cases Relation.ReflTransGen.total_of_right_unique unique first.swap second.swap with
  | inl up => exact .inr up.swap
  | inr up => exact .inl up.swap

theorem childAt?_of_names {parent child : String} (names : Names s.get? parent child) : ∃ index, s.childAt? parent index = some child := by
  obtain ⟨r, found, named⟩ := names
  exact List.getElem?_of_mem (mem_children.mpr ⟨r, found, by rw [parentId, named]; rfl⟩)

theorem descendantAt?_append (s : Store α) (id : String) (path more : List Nat) :
    s.descendantAt? id (path ++ more) = (s.descendantAt? id path).bind (s.descendantAt? · more) := by
  induction path generalizing id with
  | nil => rfl
  | cons index path ih =>
    rw [List.cons_append, descendantAt?, descendantAt?]
    cases s.childAt? id index with
    | none => rfl
    | some child => exact ih child

theorem index?_childAt {parent child : String} {index : Nat} (named : parent ≠ rootsId) (found : s.childAt? parent index = some child) :
    s.index? child = some index := by
  obtain ⟨r, held, above⟩ := names_of_child named (List.mem_of_getElem? found)
  obtain ⟨within, here⟩ := List.getElem?_eq_some_iff.mp found
  rw [index?, held, Option.bind_some, above]
  refine List.idxOf?_eq_some_iff.mpr ⟨within, here, fun earlier less same => ?_⟩
  exact absurd ((nodup_children s parent).getElem_inj_iff.mp (same.trans here.symm)) (Nat.ne_of_lt less)

theorem exists_path {top id : String} (above : Relation.ReflTransGen (Names s.get?) top id) : ∃ path, s.descendantAt? top path = some id := by
  induction above with
  | refl => exact ⟨[], rfl⟩
  | tail _ names ih =>
    obtain ⟨path, reached⟩ := ih
    obtain ⟨index, found⟩ := childAt?_of_names names
    refine ⟨path ++ [index], ?_⟩
    rw [descendantAt?_append, reached, Option.bind_some, descendantAt?, found]
    rfl

section

variable (wooded : Wooded s.get?)

include wooded

theorem descendants_eq (id : String) : s.descendants id = (s.children id).flatMap fun child => child :: s.descendants child := by
  have each : ∀ ids : List String, (∀ child ∈ ids, child ∈ s.children id) → Tree.preorderAll (ids.filterMap fun child =>
      (s.get? child).map fun record => .mk child record (s.trees child)) = ids.flatMap fun child => child :: s.descendants child := by
    intro ids listed
    induction ids with
    | nil => rfl
    | cons child ids ih =>
      obtain ⟨first, later⟩ := List.forall_mem_cons.mp listed
      obtain ⟨r, found, _⟩ := mem_children.mp first
      rw [List.filterMap_cons, found, List.flatMap_cons, ← ih later]
      rfl
  rw [descendants, trees_eq wooded]
  exact each _ fun _ member => member

theorem siblings_apart {top a b : String} (first : Names s.get? top a) (second : Names s.get? top b)
    (above : Relation.ReflTransGen (Names s.get?) a b) : a = b := by
  cases Relation.ReflTransGen.cases_tail above with
  | inl same => exact same.symm
  | inr further =>
    obtain ⟨p, between, names⟩ := further
    obtain rfl := names.unique second
    exact absurd (Relation.TransGen.head' first between) (wooded.acyclic _)

theorem named_of_child {id child : String} (member : child ∈ s.children id) : child ≠ rootsId := by
  obtain ⟨r, found, _⟩ := mem_children.mp member
  exact wooded.named found

theorem named_of_above {top id : String} (named : top ≠ rootsId) (above : Relation.ReflTransGen (Names s.get?) top id) : id ≠ rootsId := by
  cases above with
  | refl => exact named
  | tail _ names =>
    obtain ⟨r, found, _⟩ := names
    exact wooded.named found

theorem descendants_preorder {id : String} (named : id ≠ rootsId) :
    (s.descendants id).Pairwise fun x y => ¬ Relation.ReflTransGen (Names s.get?) y x := by
  induction id using (wellFounded_children wooded).induction with
  | _ id ih =>
    have names : ∀ {child}, child ∈ s.children id → Names s.get? id child := fun member => names_of_child named member
    have below : ∀ {child x}, child ∈ s.children id → x ∈ s.descendants child → Relation.TransGen (Names s.get?) child x :=
      fun member listed => (below_iff wooded (named_of_child wooded member)).mp (mem_descendants.mp listed)
    have above : ∀ {child x}, child ∈ s.children id → x ∈ child :: s.descendants child → Relation.ReflTransGen (Names s.get?) child x := by
      intro child x member listed
      cases List.mem_cons.mp listed with
      | inl same => exact same ▸ .refl
      | inr listed => exact (below member listed).to_reflTransGen
    rw [descendants_eq wooded, List.pairwise_flatMap]
    constructor
    · intro child member
      refine List.pairwise_cons.mpr ⟨fun x listed up => ?_, ih child (names member) (named_of_child wooded member)⟩
      exact wooded.acyclic child ((below member listed).trans_left up)
    · apply (nodup_children s id).pairwise_of_forall_ne
      intro a first b second other x inA y inB up
      rcases above_total (above first inA) ((above second inB).trans up) with between | between
      · exact other (siblings_apart wooded (names first) (names second) between)
      · exact other (siblings_apart wooded (names second) (names first) between).symm

theorem nodup_descendants {id : String} (named : id ≠ rootsId) : (s.descendants id).Nodup := by
  apply (descendants_preorder wooded named).imp
  intro x y later same
  exact later (same ▸ .refl)

theorem indexPath_orphan {id : String} {r : α} (found : s.get? id = some r) (orphan : Placed.parent r = none) : s.indexPath id = [] := by
  rw [indexPath, ancestors_eq wooded, parent?_eq wooded, found, Option.bind_some, orphan]
  rfl

theorem indexPath_childAt {parent child : String} {index : Nat} (named : parent ≠ rootsId) (found : s.childAt? parent index = some child) :
    s.indexPath child = s.indexPath parent ++ [index] := by
  have member : child ∈ s.children parent := List.mem_of_getElem? found
  have names := names_of_child named member
  rw [indexPath, ancestors_eq wooded, (parent?_eq_some wooded).mpr names, List.dropLast_cons_cons, List.reverse_cons, List.filterMap_append,
    List.filterMap_cons, index?_childAt named found]
  rfl

theorem indexPath_ne_nil {top id : String} (below : s.Below top id) (named : top ≠ rootsId) : s.indexPath id ≠ [] := by
  obtain ⟨parent, _, names⟩ := Relation.TransGen.tail'_iff.mp ((below_iff wooded named).mp below)
  obtain ⟨index, found⟩ := childAt?_of_names names
  obtain ⟨q, live⟩ := (wooded.above names).live
  rw [indexPath_childAt wooded (wooded.named live) found]
  exact List.append_ne_nil_of_right_ne_nil _ (List.cons_ne_nil _ _)

theorem descendantAt?_reaches {top id : String} {path : List Nat} (named : top ≠ rootsId) (reached : s.descendantAt? top path = some id) :
    Relation.ReflTransGen (Names s.get?) top id ∧ s.indexPath id = s.indexPath top ++ path := by
  induction path generalizing top with
  | nil =>
    obtain rfl := Option.some.inj reached
    exact ⟨.refl, (List.append_nil _).symm⟩
  | cons index path ih =>
    rw [descendantAt?] at reached
    split at reached
    · rename_i child found
      have member : child ∈ s.children top := List.mem_of_getElem? found
      obtain ⟨below, continued⟩ := ih (named_of_child wooded member) reached
      refine ⟨.head (names_of_child named member) below, ?_⟩
      rw [continued, indexPath_childAt wooded named found, List.append_assoc, List.singleton_append]
    · cases reached

theorem descendantAt?_iff {top id : String} {r : α} (found : s.get? top = some r) (orphan : Placed.parent r = none) {path : List Nat} :
    s.descendantAt? top path = some id ↔ Relation.ReflTransGen (Names s.get?) top id ∧ s.indexPath id = path := by
  have named := wooded.named found
  have start := indexPath_orphan wooded found orphan
  constructor
  · intro reached
    obtain ⟨below, continued⟩ := descendantAt?_reaches wooded named reached
    exact ⟨below, by rw [continued, start, List.nil_append]⟩
  · intro both
    obtain ⟨below, same⟩ := both
    obtain ⟨path', reached⟩ := exists_path below
    obtain ⟨_, continued⟩ := descendantAt?_reaches wooded named reached
    rw [start, List.nil_append, same] at continued
    exact continued ▸ reached

theorem above_of_begins {top a b : String} (named : top ≠ rootsId) (first : Relation.ReflTransGen (Names s.get?) top a)
    (second : Relation.ReflTransGen (Names s.get?) top b) (begins : s.indexPath a <+: s.indexPath b) : Relation.ReflTransGen (Names s.get?) a b := by
  obtain ⟨path, reached⟩ := exists_path first
  obtain ⟨path', reached'⟩ := exists_path second
  rw [(descendantAt?_reaches wooded named reached).2, (descendantAt?_reaches wooded named reached').2, List.prefix_append_right_inj] at begins
  obtain ⟨more, rfl⟩ := begins
  rw [descendantAt?_append, reached] at reached'
  exact (descendantAt?_reaches wooded (named_of_above wooded named first) reached').1

theorem begins_of_above {a b : String} (named : a ≠ rootsId) (above : Relation.ReflTransGen (Names s.get?) a b) :
    s.indexPath a <+: s.indexPath b := by
  obtain ⟨path, reached⟩ := exists_path above
  exact ⟨path, (descendantAt?_reaches wooded named reached).2.symm⟩

theorem indexPaths_preorder {id : String} (named : id ≠ rootsId) :
    (s.descendants id).Pairwise fun x y => ¬ s.indexPath y <+: s.indexPath x := by
  have below : ∀ {x}, x ∈ s.descendants id → Relation.ReflTransGen (Names s.get?) id x :=
    fun listed => ((below_iff wooded named).mp (mem_descendants.mp listed)).to_reflTransGen
  apply (descendants_preorder wooded named).imp_of_mem
  intro x y first second later begins
  exact later (above_of_begins wooded named (below second) (below first) begins)

theorem indexPath_lt {top id : String} (named : top ≠ rootsId) (below : s.Below top id) : s.indexPath top < s.indexPath id := by
  obtain ⟨path, reached⟩ := exists_path ((below_iff wooded named).mp below).to_reflTransGen
  rw [(descendantAt?_reaches wooded named reached).2]
  cases path with
  | nil =>
    obtain rfl := Option.some.inj reached
    exact absurd below (not_below_self wooded named)
  | cons index path =>
    have longer : s.indexPath top ++ [] < s.indexPath top ++ index :: path := List.append_left_lt (List.nil_lt_cons index path)
    rwa [List.append_nil] at longer

theorem descendants_ascending {id : String} (named : id ≠ rootsId) : (s.descendants id).Pairwise fun x y => s.indexPath x < s.indexPath y := by
  induction id using (wellFounded_children wooded).induction with
  | _ id ih =>
    have continues : ∀ {child x}, child ∈ s.children id → x ∈ child :: s.descendants child → s.indexPath child <+: s.indexPath x := by
      intro child x member listed
      have named := named_of_child wooded member
      apply begins_of_above wooded named
      cases List.mem_cons.mp listed with
      | inl same => exact same ▸ .refl
      | inr listed => exact ((below_iff wooded named).mp (mem_descendants.mp listed)).to_reflTransGen
    rw [descendants_eq wooded, List.pairwise_flatMap]
    constructor
    · intro child member
      have named' := named_of_child wooded member
      refine List.pairwise_cons.mpr ⟨fun x listed => ?_, ih child (names_of_child named member) named'⟩
      exact indexPath_lt wooded named' (mem_descendants.mp listed)
    · rw [List.pairwise_iff_getElem]
      intro i j first second less x inX y inY
      obtain ⟨more, same⟩ := continues (List.getElem_mem first) inX
      obtain ⟨more', same'⟩ := continues (List.getElem_mem second) inY
      rw [← same, ← same', indexPath_childAt wooded named (List.getElem?_eq_getElem first),
        indexPath_childAt wooded named (List.getElem?_eq_getElem second), List.append_assoc, List.append_assoc]
      exact List.append_left_lt (List.cons_lt_cons_iff.mpr (.inl less))

theorem above_root {id : String} : Relation.ReflTransGen (Names s.get?) (s.root id) id := by
  induction id using wooded.wellFounded.induction with
  | _ id ih =>
    cases found : s.parent? id with
    | none =>
      rw [root, ancestors_eq wooded, found]
      exact .refl
    | some parent =>
      have names := names_of_parent? found
      rw [root_child wooded names]
      exact .tail (ih parent names) names

theorem root_eq_of_above {top id : String} (above : Relation.ReflTransGen (Names s.get?) top id) : s.root id = s.root top := by
  induction above with
  | refl => rfl
  | tail _ names ih => exact (root_child wooded names).trans ih

theorem mem_descendants_root {top id : String} (named : top ≠ rootsId) (orphan : s.parent? top = none) :
    id ∈ s.descendants top ↔ id ≠ top ∧ s.root id = top := by
  have own : s.root top = top := by
    rw [root, ancestors_eq wooded, orphan]
    rfl
  rw [mem_descendants, below_iff wooded named]
  constructor
  · intro below
    refine ⟨fun same => wooded.acyclic top (same ▸ below), (root_eq_of_above wooded below.to_reflTransGen).trans own⟩
  · intro both
    obtain ⟨other, same⟩ := both
    exact (Relation.reflTransGen_iff_eq_or_transGen.mp (same ▸ above_root wooded)).resolve_left other

end

end Store

end MarkupEditor
