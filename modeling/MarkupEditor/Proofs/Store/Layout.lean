import Mathlib.Data.List.Nodup
import Mathlib.Data.List.Pairwise
import Mathlib.Data.String.Basic
import MarkupEditor.Proofs.Store.Below

namespace MarkupEditor

namespace Tree

variable {α : Type}

mutual

def pairs : Tree α → List (String × α)
  | mk id value children => (id, value) :: pairsAll children

def pairsAll : List (Tree α) → List (String × α)
  | [] => []
  | t :: ts => pairs t ++ pairsAll ts

end

theorem pairs_eq (t : Tree α) : t.pairs = (t.id, t.value) :: pairsAll t.children := by
  cases t
  rfl

theorem pairsAll_eq (ts : List (Tree α)) : pairsAll ts = ts.flatMap pairs := by
  induction ts with
  | nil => rfl
  | cons t ts ih => rw [pairsAll, ih, List.flatMap_cons]

section

variable {P : Tree α → Prop}

mutual

theorem children_step (step : ∀ t : Tree α, (∀ c ∈ t.children, P c) → P t) : ∀ t : Tree α, P t
  | mk id value children => step (mk id value children) (children_steps step children)

theorem children_steps (step : ∀ t : Tree α, (∀ c ∈ t.children, P c) → P t) : ∀ ts : List (Tree α), ∀ t ∈ ts, P t
  | [] => by simp
  | t :: ts => List.forall_mem_cons.mpr ⟨children_step step t, children_steps step ts⟩

end

end

theorem children_induction {P : Tree α → Prop} (step : ∀ t : Tree α, (∀ c ∈ t.children, P c) → P t) (t : Tree α) : P t :=
  children_step step t

inductive Within : Tree α → Tree α → Prop where
  | self (t : Tree α) : Within t t
  | inside {t c u : Tree α} (child : c ∈ t.children) (within : Within c u) : Within t u

theorem Within.child {t u c : Tree α} (within : t.Within u) (child : c ∈ u.children) : t.Within c := by
  induction within with
  | self t => exact .inside child (.self c)
  | inside first _ ih => exact .inside first (ih child)

theorem Within.parent {t u : Tree α} (within : t.Within u) : u = t ∨ ∃ v, t.Within v ∧ u ∈ v.children := by
  induction within with
  | self t => exact .inl rfl
  | @inside t c u child _ ih =>
    right
    rcases ih with rfl | ⟨v, within, listed⟩
    · exact ⟨t, .self t, child⟩
    · exact ⟨v, .inside child within, listed⟩

theorem mem_pairs {t : Tree α} {e : String × α} : e ∈ t.pairs ↔ ∃ u, t.Within u ∧ e = (u.id, u.value) := by
  induction t using children_induction with
  | step t ih =>
    rw [pairs_eq, pairsAll_eq, List.mem_cons, List.mem_flatMap]
    constructor
    · rintro (rfl | ⟨c, child, member⟩)
      · exact ⟨t, .self t, rfl⟩
      · obtain ⟨u, within, rfl⟩ := (ih c child).mp member
        exact ⟨u, .inside child within, rfl⟩
    · rintro ⟨u, within, rfl⟩
      cases within with
      | self => exact .inl rfl
      | @inside _ c _ child within => exact .inr ⟨c, child, (ih c child).mpr ⟨u, within, rfl⟩⟩

theorem Within.id_mem {t u : Tree α} (within : t.Within u) : u.id ∈ t.pairs.map Prod.fst :=
  List.mem_map.mpr ⟨_, mem_pairs.mpr ⟨u, within, rfl⟩, rfl⟩

theorem within_unique {t u v : Tree α} (nodup : (t.pairs.map Prod.fst).Nodup) (first : t.Within u) (second : t.Within v)
    (same : u.id = v.id) : u = v := by
  induction t using children_induction with
  | step t ih =>
    rw [pairs_eq, pairsAll_eq, List.map_cons, List.map_flatMap, List.nodup_cons, List.nodup_flatMap] at nodup
    obtain ⟨top, each, apart⟩ := nodup
    have listed : ∀ {c w : Tree α}, c ∈ t.children → c.Within w → w.id ∈ t.children.flatMap fun c => c.pairs.map Prod.fst :=
      fun child within => List.mem_flatMap.mpr ⟨_, child, within.id_mem⟩
    cases first with
    | self =>
      cases second with
      | self => rfl
      | inside child within => exact absurd (same ▸ listed child within) top
    | @inside _ c _ child within =>
      cases second with
      | self => exact absurd (same ▸ listed child within) top
      | @inside _ c' _ child' within' =>
        have one : c = c' := by
          by_contra other
          have symmetric : Std.Symm (Function.onFun List.Disjoint fun c : Tree α => c.pairs.map Prod.fst) :=
            ⟨fun _ _ separate _ one other => separate other one⟩
          exact apart.forall child child' other within.id_mem (same ▸ within'.id_mem)
        subst one
        exact ih c child (each c child) within within'

end Tree

namespace Store

variable {α : Type} [Placed α]

theorem precedes_iff (a b : String × String) : precedes a b = true ↔ a.1 < b.1 ∨ a.1 = b.1 ∧ a.2 ≤ b.2 := by
  rw [precedes, Bool.or_eq_true, Bool.and_eq_true, Bool.or_eq_true, decide_eq_true_eq, decide_eq_true_eq, beq_iff_eq, beq_iff_eq,
    le_iff_lt_or_eq]

theorem precedes_trans (a b c : String × String) (first : precedes a b = true) (second : precedes b c = true) : precedes a c = true := by
  rw [precedes_iff] at *
  rcases first with less | ⟨same, before⟩
  · rcases second with less' | ⟨same', _⟩
    · exact .inl (less.trans less')
    · exact .inl (same' ▸ less)
  · rcases second with less' | ⟨same', before'⟩
    · exact .inl (same ▸ less')
    · exact .inr ⟨same.trans same', before.trans before'⟩

theorem precedes_total (a b : String × String) : (precedes a b || precedes b a) = true := by
  rw [Bool.or_eq_true, precedes_iff, precedes_iff]
  rcases lt_trichotomy a.1 b.1 with less | same | less
  · exact .inl (.inl less)
  · exact (le_total a.2 b.2).imp (fun before => .inr ⟨same, before⟩) fun before => .inr ⟨same.symm, before⟩
  · exact .inr (.inl less)

theorem precedes_antisymm (a b : String × String) (first : precedes a b = true) (second : precedes b a = true) : a = b := by
  rw [precedes_iff] at *
  rcases first with less | ⟨same, before⟩
  · rcases second with less' | ⟨same', _⟩
    · exact absurd less (lt_asymm less')
    · exact absurd less (same' ▸ lt_irrefl _)
  · rcases second with less' | ⟨_, before'⟩
    · exact absurd less' (same ▸ lt_irrefl _)
    · exact Prod.ext same (le_antisymm before before')

theorem nodup_keyedChildren (s : Store α) (parent : String) : (s.keyedChildren parent).Nodup := by
  have ids : (s.entries.map fun e => (orderKey e.2, e.1)).Nodup := by
    apply List.Nodup.of_map Prod.snd
    rw [List.map_map]
    exact s.nodup
  exact (List.mergeSort_perm _ _).nodup_iff.mpr (ids.sublist (List.filter_sublist.map _))

theorem sorted_keyedChildren (s : Store α) (parent : String) : (s.keyedChildren parent).Pairwise fun a b => precedes a b = true :=
  List.pairwise_mergeSort precedes_trans precedes_total _

theorem eq_of_sorted {l l' : List (String × String)} (sorted : l.Pairwise fun a b => precedes a b = true)
    (sorted' : l'.Pairwise fun a b => precedes a b = true) (nodup : l.Nodup) (nodup' : l'.Nodup) (same : ∀ e, e ∈ l ↔ e ∈ l') : l = l' := by
  apply List.Perm.eq_of_pairwise (fun a b _ _ => precedes_antisymm a b) sorted sorted'
  exact (List.perm_ext_iff_of_nodup nodup nodup').mpr same

theorem keyedChildren_eq {s : Store α} {parent : String} {listed : List (String × String)}
    (sorted : listed.Pairwise fun a b => a.1 < b.1)
    (members : ∀ e, e ∈ listed ↔ ∃ r, s.get? e.2 = some r ∧ parentId r = parent ∧ orderKey r = e.1) : s.keyedChildren parent = listed := by
  have inOrder : listed.Pairwise fun a b => precedes a b = true :=
    sorted.imp fun less => (precedes_iff _ _).mpr (.inl less)
  have nodup : listed.Nodup := sorted.imp fun less => by rintro rfl; exact lt_irrefl _ less
  apply eq_of_sorted (sorted_keyedChildren s parent) inOrder (nodup_keyedChildren s parent) nodup
  intro e
  rw [members]
  exact mem_keyedChildren

-- The store holds the entries of the tree and nothing else, each naming the one above it.
structure Layout (s : Store α) (t : Tree α) : Prop where
  entries : ∀ e, e ∈ s.entries ↔ e ∈ t.pairs
  nodup : (t.pairs.map Prod.fst).Nodup
  top : parentId t.value ∉ t.pairs.map Prod.fst
  parents : ∀ u, t.Within u → ∀ c ∈ u.children, parentId c.value = u.id
  keys : ∀ u, t.Within u → u.children.Pairwise fun a b => orderKey a.value < orderKey b.value

namespace Layout

variable {s : Store α} {t u : Tree α}

theorem get? (layout : Layout s t) (within : t.Within u) : s.get? u.id = some u.value :=
  (get?_eq_some_iff s u.id u.value).mpr ((layout.entries _).mpr (Tree.mem_pairs.mpr ⟨u, within, rfl⟩))

theorem keyedChildren (layout : Layout s t) (within : t.Within u) :
    s.keyedChildren u.id = u.children.map fun c => (orderKey c.value, c.id) := by
  apply keyedChildren_eq
  · exact List.pairwise_map.mpr (layout.keys u within)
  · intro e
    constructor
    · intro member
      obtain ⟨c, child, rfl⟩ := List.mem_map.mp member
      exact ⟨c.value, layout.get? (within.child child), layout.parents u within c child, rfl⟩
    · rintro ⟨r, found, named, key⟩
      obtain ⟨w, inside, same⟩ := Tree.mem_pairs.mp ((layout.entries _).mp ((get?_eq_some_iff s e.2 r).mp found))
      obtain ⟨id, rfl⟩ := Prod.mk.inj same
      rcases inside.parent with rfl | ⟨v, above, child⟩
      · exact absurd (named ▸ within.id_mem) layout.top
      · have one : v = u := Tree.within_unique layout.nodup above within ((layout.parents v above w child).symm.trans named)
        subst one
        exact List.mem_map.mpr ⟨w, child, Prod.ext key id.symm⟩

theorem children (layout : Layout s t) (within : t.Within u) : s.children u.id = u.children.map Tree.id := by
  rw [Store.children, layout.keyedChildren within, List.map_map]
  rfl

theorem treesUpTo (layout : Layout s t) (levels : Nat) (within : t.Within u) (enough : (Tree.pairsAll u.children).length ≤ levels) :
    s.treesUpTo levels u.id = u.children := by
  induction levels generalizing u with
  | zero =>
    cases below : u.children with
    | nil => rfl
    | cons c cs =>
      rw [below, Tree.pairsAll, Tree.pairs_eq] at enough
      simp at enough
  | succ levels ih =>
    have each : ∀ c ∈ u.children, ((s.get? c.id).map fun r => Tree.mk c.id r (s.treesUpTo levels c.id)) = some c := by
      intro c child
      have fewer : (Tree.pairsAll c.children).length ≤ levels := by
        have part := (List.sublist_flatten_of_mem (List.mem_map_of_mem (f := Tree.pairs) child)).length_le
        rw [← List.flatMap_def, ← Tree.pairsAll_eq, Tree.pairs_eq, List.length_cons] at part
        omega
      rw [layout.get? (within.child child), ih (within.child child) fewer]
      cases c
      rfl
    rw [Store.treesUpTo, layout.children within, List.filterMap_map]
    exact (List.filterMap_congr each).trans List.filterMap_some

theorem trees (layout : Layout s t) : s.trees t.id = t.children := by
  apply layout.treesUpTo s.size (.self t)
  have all : t.pairs ⊆ s.entries := fun e member => (layout.entries e).mpr member
  have bound := (List.subperm_of_subset layout.nodup.of_map all).length_le
  rw [Tree.pairs_eq, List.length_cons] at bound
  exact Nat.le_of_succ_le bound

end Layout

end Store

end MarkupEditor
