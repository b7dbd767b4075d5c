import MarkupEditor.Document.InPlace
import MarkupEditor.Proofs.Document.Reconstruction

namespace MarkupEditor

def unlessFailed {ε τ α : Type} (s : τ) : Except ε (α × τ) → EStateM.Result ε τ α
  | .ok (a, s') => .ok a s'
  | .error e => .error e s

section

variable {ε τ α β : Type}

theorem unlessFailed_error {s s' : τ} {r : Except ε (α × τ)} {e : ε} (failed : unlessFailed s r = .error e s') : s' = s := by
  cases r with
  | error e => cases failed; rfl
  | ok done => cases failed

theorem run_ofExcept (result : Except ε α) (s : τ) :
    (MonadExcept.ofExcept result : EStateM ε τ α).run s = unlessFailed s (result.map (·, s)) := by
  cases result <;> rfl

theorem run_finally (act : EStateM ε τ α) (leave : τ → τ) (s : τ) :
    (try act finally modify leave : EStateM ε τ α).run s = match act.run s with
      | .ok a s => .ok a (leave s)
      | .error e s => .error e (leave s) := by
  simp only [EStateM.run, tryFinally, Functor.map, EStateM.map, MonadFinally.tryFinally']
  cases act s <;> rfl

theorem run_forM {a : β → EStateM ε τ Unit} {f : τ → β → τ} (step : ∀ s b, (a b).run s = .ok () (f s b)) (bs : List β) (s : τ) :
    (bs.forM a).run s = .ok () (bs.foldl f s) := by
  induction bs generalizing s with
  | nil => rfl
  | cons b bs ih =>
    show (a b >>= fun _ => bs.forM a).run s = _
    rw [EStateM.run_bind, step]
    exact ih (f s b)

end

namespace Document

variable {α : Type} {d : Document} {path : String} {tree : SourceTree}

theorem foldl_expandPlace (d : Document) (h : Handle) (places : List (List Nat)) :
    places.foldl (·.expandPlace h) d = d.expandAll (places.filterMap (d.descendantAt? h)) := by
  have stays : ∀ (d : Document) (below : Handle), (d.setExpanded below true).descendantAt? h = d.descendantAt? h := by
    intro d below
    unfold setExpanded
    rw [if_pos rfl]
    split <;> rfl
  induction places generalizing d with
  | nil => rfl
  | cons place places ih =>
    rw [List.foldl_cons, ih, List.filterMap_cons, expandPlace]
    cases d.descendantAt? h place with
    | none => rfl
    | some below =>
      dsimp only
      rw [stays]
      rfl

namespace Action

theorem run_node (d : Document) (id : String) : (node id).run d = unlessFailed d ((d.node id).map (·, d)) := by
  rw [node, EStateM.run_bind, EStateM.run_get]
  exact run_ofExcept (d.node id) d

theorem run_build (d : Document) (path : String) (tree : SourceTree) (generation : Nat) :
    (build path tree generation).run d = .ok () (d.build path tree generation) := by
  have written := run_forM (a := fun e : String × Record => (modify (·.write e.1 (some e.2)) : Action Unit)) fun _ _ => rfl
  simp only [build, unrecorded, EStateM.run_bind, EStateM.run_get, EStateM.run_modify, run_finally, written]
  rfl

theorem run_reload (d : Document) (path : String) (tree : SourceTree) :
    (reload path tree).run d = unlessFailed d (d.reload path tree) := by
  rw [reload, EStateM.run_bind, EStateM.run_get, Document.reload]
  dsimp only
  cases d.file? path with
  | none => rfl
  | some file =>
    dsimp only
    rw [EStateM.run_bind, run_node]
    cases d.node (File.rootId path) with
    | error e => rfl
    | ok root =>
      have removed := run_forM (a := fun id => (modify (·.removeEntry id) : Action Unit)) fun _ _ => rfl
      have selected := run_forM (a := fun place => (modify (·.selectPlace root place) : Action Unit)) fun _ _ => rfl
      have expanded := run_forM (a := fun place => (modify (·.expandPlace root place) : Action Unit)) fun _ _ => rfl
      simp only [Except.map, unlessFailed, EStateM.run_bind, EStateM.run_get, EStateM.run_pure, EStateM.run_modify, unrecorded, run_finally,
        run_build, removed, selected, expanded, foldl_expandPlace]
      rfl

-- The root of a file that was built is there, so looking it up does not fail.
theorem run_load (serves : d.instances.Serves d.store) (path : String) (tree : SourceTree) :
    (load path tree).run d = unlessFailed d (d.load path tree) := by
  rw [load, EStateM.run_bind, EStateM.run_get, Document.load]
  dsimp only
  split
  · exact run_reload d path tree
  · obtain ⟨root, held⟩ := Option.isSome_iff_exists.mp (handle?_build serves path tree 0)
    have found : (d.build path tree 0).node (File.rootId path) = .ok root := by rw [Document.node, held]
    rw [EStateM.run_bind, run_build]
    dsimp only
    rw [run_node, found]
    rfl

theorem run_close (d : Document) (path : String) : (close path).run d = unlessFailed d ((d.close path).map ((), ·)) := by
  rw [close, EStateM.run_bind, run_node, Document.close]
  cases d.node (File.rootId path) with
  | error e => rfl
  | ok root =>
    simp only [Except.map, unlessFailed, EStateM.run_bind, EStateM.run_modify, unrecorded, run_finally]

end Action

end Document

end MarkupEditor
