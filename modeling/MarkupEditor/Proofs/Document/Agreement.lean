import MarkupEditor.Proofs.Document.Mirror

namespace MarkupEditor

def Node.place (n : Node) : Kind × Location := (n.kind, n.loc)

namespace Rebuild

variable {classAttribute : String}

-- Nothing in the tree is hidden: there is no file in it, and no text has children.
def Shows (t : Tree Record) : Prop := ∀ u, t.Within u → u.value.isFile = false ∧ (u.value.kind? = some .text → u.children = [])

theorem shows_iff {t : Tree Record} :
    Shows t ↔ (t.value.isFile = false ∧ (t.value.kind? = some .text → t.children = [])) ∧ ∀ c ∈ t.children, Shows c := by
  constructor
  · intro shows
    exact ⟨shows t (.self t), fun c child u within => shows u (.inside child within)⟩
  · rintro ⟨own, below⟩ u within
    cases within with
    | self => exact own
    | @inside _ c _ child within => exact below c child u within

-- No more shows of the tree than is there, and as much only when nothing is hidden.
def Counted (classAttribute : String) (t : Tree Record) : Prop :=
  (Tree.pairsAll (shown classAttribute t)).length ≤ t.pairs.length ∧
    (t.pairs.length ≤ (Tree.pairsAll (shown classAttribute t)).length → Shows t)

theorem counted_all {ts : List (Tree Record)} (each : ∀ t ∈ ts, Counted classAttribute t) :
    (Tree.pairsAll (shownAll classAttribute ts)).length ≤ (Tree.pairsAll ts).length ∧
      ((Tree.pairsAll ts).length ≤ (Tree.pairsAll (shownAll classAttribute ts)).length → ∀ t ∈ ts, Shows t) := by
  induction ts with
  | nil => exact ⟨Nat.le_refl _, fun _ t member => by cases member⟩
  | cons t ts ih =>
    obtain ⟨⟨fewer, whole⟩, later⟩ := List.forall_mem_cons.mp each
    obtain ⟨fewer', whole'⟩ := ih later
    rw [shownAll, Tree.pairsAll_append, Tree.pairsAll, List.length_append, List.length_append]
    exact ⟨by omega, fun enough => List.forall_mem_cons.mpr ⟨whole (by omega), whole' (by omega)⟩⟩

theorem counted (t : Tree Record) : Counted classAttribute t := by
  induction t using Tree.children_induction with
  | step t ih =>
    unfold Counted
    rw [Tree.pairs_eq, List.length_cons]
    cases node : t.value.node? with
    | none =>
      rw [shown_none node]
      refine ⟨Nat.zero_le _, fun enough => ?_⟩
      cases enough
    | some n =>
      have isNode : t.value.isFile = false := by simp [Record.isFile, node]
      rw [shown_some node, Tree.pairsAll, Tree.pairs, Tree.pairsAll, List.append_nil, List.length_cons]
      split
      · refine ⟨Nat.succ_le_succ (Nat.zero_le _), fun enough => ?_⟩
        have childless : t.children = [] := by
          cases held : t.children with
          | nil => rfl
          | cons c cs =>
            have more : Tree.pairsAll (c :: cs) = (c.id, c.value) :: (Tree.pairsAll c.children ++ Tree.pairsAll cs) := by
              rw [Tree.pairsAll, Tree.pairs_eq]
              rfl
            rw [held, more] at enough
            cases Nat.le_of_succ_le_succ enough
        refine shows_iff.mpr ⟨⟨isNode, fun _ => childless⟩, fun c child => ?_⟩
        rw [childless] at child
        cases child
      · rename_i kind
        obtain ⟨fewer, whole⟩ := counted_all ih
        refine ⟨by omega, fun enough => shows_iff.mpr ⟨⟨isNode, fun text => ?_⟩, whole (by omega)⟩⟩
        rw [Record.kind?, node] at text
        exact absurd (Option.some.inj text) kind

end Rebuild

namespace Tree

variable {α : Type}

mutual

theorem preorder_eq : ∀ t : Tree α, t.preorder = t.pairs.map Prod.fst
  | mk id value children => by rw [preorder, pairs, List.map_cons, preorderAll_eq children]

theorem preorderAll_eq : ∀ ts : List (Tree α), preorderAll ts = (pairsAll ts).map Prod.fst
  | [] => rfl
  | t :: ts => by rw [preorderAll, pairsAll, List.map_append, preorder_eq t, preorderAll_eq ts]

end

end Tree

namespace Document

variable {d : Document}

end Document

end MarkupEditor
