import MarkupEditor.Proofs.Document.Viewing

namespace MarkupEditor

namespace History

variable {κ α : Type} {h : History κ α} {t : Timeline κ α}

theorem records_setTitle (records : h.Records t) (title : String) : (h.setTitle title).Records t := by
  obtain ⟨recording, extended, past, future, ends, begins, newest⟩ := records
  unfold setTitle UndoStack.setTitle
  split
  · exact ⟨recording, extended, past, future, ends, begins, newest⟩
  · rename_i c rest done
    rw [done] at past
    obtain ⟨p, ps, spans, others, same⟩ := List.forall₂_cons_left_iff.mp past
    have retitled : Spanned (⟨c.command, some title⟩ :: rest) t.past := same ▸ .cons spans others
    exact ⟨recording, extended, retitled, future, ends, begins, newest⟩

end History

namespace Store

variable {α : Type} [Placed α] {s : Store α} (wooded : Wooded s.get?)

include wooded

theorem live_of_above {top id : String} {r : α} (above : Relation.ReflTransGen (Names s.get?) top id) (found : s.get? id = some r) :
    ∃ q, s.get? top = some q := by
  cases Relation.ReflTransGen.cases_head above with
  | inl same => exact ⟨r, same ▸ found⟩
  | inr further =>
    obtain ⟨child, names, _⟩ := further
    exact (wooded.above names).live

theorem indexPath_top {id : String} (top : s.parent? id = none) : s.indexPath id = [] := by
  rw [indexPath, ancestors_eq wooded, top]
  rfl

theorem indexPath_below {id parent : String} (above : s.parent? id = some parent) :
    ∃ index, s.index? id = some index ∧ s.indexPath id = s.indexPath parent ++ [index] := by
  have names := (parent?_eq_some wooded).mp above
  obtain ⟨q, live⟩ := (wooded.above names).live
  obtain ⟨index, found⟩ := childAt?_of_names names
  exact ⟨index, index?_childAt (wooded.named live) found, indexPath_childAt wooded (wooded.named live) found⟩

end Store

namespace Document

variable {d d' : Document} {classAttribute : String}

namespace Follows

variable {P : Contents Unit Record → Prop}

theorem closed (follows : d.Follows P) : ({ d with history := d.history.close } : Document).Follows P := by
  obtain ⟨t, records, current, always⟩ := follows
  exact ⟨t.close, History.records_close records, current, always⟩

theorem forgotten (follows : d.Follows P) : ({ d with history := d.history.clear } : Document).Follows P :=
  ⟨{ current := d.contents }, History.records_start _ follows.recording rfl rfl rfl, rfl, Timeline.always_start follows.present⟩

theorem titled (follows : d.Follows P) (title : String) : ({ d with history := d.history.setTitle title } : Document).Follows P := by
  obtain ⟨t, records, current, always⟩ := follows
  exact ⟨t, History.records_setTitle records title, current, always⟩

end Follows

inductive Used (classAttribute : String) : Document → Prop where
  | new (undoWindow maxLevels : Nat) : Used classAttribute (.new classAttribute undoWindow maxLevels)
  | acted {d : Document} (before : Used classAttribute d) (now : Nat) (a : Act) : Used classAttribute (a.apply { d with now })
  | viewed {d d' : Document} (before : Used classAttribute d) (viewed : Viewed d d') : Used classAttribute d'
  | renumbered {d d' : Document} (before : Used classAttribute d) {path : String} (done : d.renumber path = .ok d') : Used classAttribute d'
  | committed {d : Document} (before : Used classAttribute d) : Used classAttribute { d with history := d.history.close }
  | forgotten {d : Document} (before : Used classAttribute d) : Used classAttribute { d with history := d.history.clear }
  | titled {d : Document} (before : Used classAttribute d) (title : String) : Used classAttribute { d with history := d.history.setTitle title }

namespace Used

theorem standing (used : d.Used classAttribute) : d.Standing := by
  induction used with
  | new undoWindow maxLevels => exact .new classAttribute undoWindow maxLevels
  | acted _ now a ih => exact (ih.at_time now).apply a
  | viewed _ viewed ih => exact ih.viewed viewed
  | renumbered _ done ih =>
    obtain ⟨⟨files, rfl⟩, _⟩ := renumber_frame done
    exact ⟨ih.follows, ih.serves⟩
  | committed _ ih => exact ⟨ih.follows.closed, ih.serves⟩
  | forgotten _ ih => exact ⟨ih.follows.forgotten, ih.serves⟩
  | titled _ title ih => exact ⟨ih.follows.titled title, ih.serves⟩

theorem wooded (used : d.Used classAttribute) : Store.Wooded d.store.get? := used.standing.planted.toWooded

theorem perform (used : d.Used classAttribute) (acts : List (Nat × Act)) : (d.perform acts).Used classAttribute := by
  unfold Document.perform
  induction acts generalizing d with
  | nil => exact used
  | cons a acts ih => exact ih (used.acted a.1 a.2)

theorem of_acts (classAttribute : String) (undoWindow maxLevels : Nat) (acts : List (Nat × Act)) :
    ((Document.new classAttribute undoWindow maxLevels).perform acts).Used classAttribute := (Used.new undoWindow maxLevels).perform acts

end Used

namespace Standing

theorem record (standing : d.Standing) {n : Handle} (held : d.handle? n.id = some n) : ∃ r, d.store.get? n.id = some r :=
  Option.ne_none_iff_exists'.mp (live_of_handle standing.serves held)

theorem handle (standing : d.Standing) {id : String} {r : Record} (live : d.store.get? id = some r) :
    ∃ n : Handle, n.id = id ∧ d.handle? n.id = some n := by
  obtain ⟨n, held⟩ := handle?_of_live standing.serves live
  obtain ⟨same, _⟩ := handle?_eq_some.mp held
  exact ⟨n, same, same ▸ held⟩

theorem tree_live (standing : d.Standing) {n : Handle} (held : d.handle? n.id = some n) : n.id :: d.store.descendants n.id ⊆ d.store.ids := by
  intro id member
  rw [← Store.get?_isSome_iff, Option.isSome_iff_exists]
  cases List.mem_cons.mp member with
  | inl same => exact same ▸ standing.record held
  | inr listed => exact (Store.mem_descendants.mp listed).live

theorem nodup_tree (standing : d.Standing) {n : Handle} (held : d.handle? n.id = some n) : (n.id :: d.store.descendants n.id).Nodup := by
  have wooded : Store.Wooded d.store.get? := standing.planted.toWooded
  obtain ⟨r, found⟩ := standing.record held
  have named := wooded.named found
  exact List.nodup_cons.mpr ⟨fun listed => Store.not_below_self wooded named (Store.mem_descendants.mp listed), Store.nodup_descendants wooded named⟩

theorem rooted (standing : d.Standing) {n : Handle} (held : d.handle? n.id = some n) :
    ∃ (root : Handle) (r : Record), root.id = d.store.root n.id ∧ d.handle? root.id = some root ∧ d.store.get? root.id = some r ∧ r.parent = none := by
  have wooded : Store.Wooded d.store.get? := standing.planted.toWooded
  obtain ⟨q, there⟩ := standing.record held
  obtain ⟨r, found⟩ := Store.live_of_above wooded (Store.above_root wooded) there
  obtain ⟨root, same, live⟩ := standing.handle found
  refine ⟨root, r, same, live, same ▸ found, ?_⟩
  have top := Store.parent?_root wooded n.id
  rwa [Store.parent?_eq wooded, found] at top

theorem leads (standing : d.Standing) {root n : Handle} (live : d.handle? root.id = some root) (held : d.handle? n.id = some n)
    (under : d.store.root n.id = root.id) : d.descendantAt? root (d.store.indexPath n.id) = some n := by
  have wooded : Store.Wooded d.store.get? := standing.planted.toWooded
  obtain ⟨r, found⟩ := standing.record live
  have orphan := Store.parent?_root wooded n.id
  rw [under, Store.parent?_eq wooded, found] at orphan
  have reached : d.store.descendantAt? root.id (d.store.indexPath n.id) = some n.id :=
    (Store.descendantAt?_iff wooded found orphan).mpr ⟨under ▸ Store.above_root wooded, rfl⟩
  rw [descendantAt?]
  split
  · rename_i empty
    rw [List.isEmpty_iff.mp empty] at reached
    exact live.symm.trans (Option.some.inj reached ▸ held)
  · rw [reached]
    exact held

theorem address_unique (standing : d.Standing) {m n : Handle} (other : d.handle? m.id = some m) (held : d.handle? n.id = some n)
    (together : d.store.root m.id = d.store.root n.id) (paths : d.store.indexPath m.id = d.store.indexPath n.id) : m = n := by
  obtain ⟨root, _, same, live, _⟩ := standing.rooted held
  have reached := standing.leads live other (together.trans same.symm)
  rw [paths, standing.leads live held same.symm] at reached
  exact (Option.some.inj reached).symm

end Standing

-- The index path of a node goes on from that of its parent and leads from the root back to the node, no two nodes under a
-- root share one, and the listing below the root has them in ascending order.
theorem index_paths_address (used : d.Used classAttribute) {n : Handle} (held : d.handle? n.id = some n) :
    (d.store.parent? n.id = none → d.store.indexPath n.id = []) ∧
      (∀ p, d.store.parent? n.id = some p →
        ∃ index, d.store.index? n.id = some index ∧ d.store.indexPath n.id = d.store.indexPath p ++ [index]) ∧
      ∃ root : Handle, root.id = d.store.root n.id ∧ d.handle? root.id = some root ∧
        d.descendantAt? root (d.store.indexPath n.id) = some n ∧
        (∀ m : Handle, d.handle? m.id = some m → d.store.root m.id = root.id → d.store.indexPath m.id = d.store.indexPath n.id → m = n) ∧
        (∀ m : Handle, d.handle? m.id = some m → (m.id ∈ d.store.descendants root.id ↔ m ≠ root ∧ d.store.root m.id = root.id)) ∧
        (d.store.descendants root.id).Pairwise fun a b => d.store.indexPath a < d.store.indexPath b := by
  have standing := used.standing
  have wooded := used.wooded
  obtain ⟨root, r, same, live, found, _⟩ := standing.rooted held
  have named := wooded.named found
  refine ⟨Store.indexPath_top wooded, fun p above => Store.indexPath_below wooded above, root, same, live, standing.leads live held same.symm,
    fun m other under => standing.address_unique other held (under.trans same), fun m other => ?_, Store.descendants_ascending wooded named⟩
  rw [Store.mem_descendants_root wooded named (same ▸ Store.parent?_root wooded n.id)]
  have ids : m.id = root.id ↔ m = root := ⟨fun ids => Option.some.inj (other.symm.trans (ids ▸ live)), congrArg Handle.id⟩
  exact and_congr_left fun _ => not_congr ids

def restoring (tree : SourceTree) : List (Nat × Act) :=
  [(0, .load "f" tree), (1, .delete (File.nodeId "f" 0 4)), (2, .undo)]

theorem index_paths_address_restored :
    ∃ tree, parse "x = <div><p><b /></p></div>;" = .ok tree ∧
      let d := (new "className" 1000 100).perform (restoring tree)
      let n : Handle := ⟨File.nodeId "f" 0 4, 6⟩
      d.Used "className" ∧ d.handle? n.id = some n ∧ d.store.indexPath n.id = [0, 0, 0, 0] ∧
        ∃ root : Handle, root.id = d.store.root n.id ∧ d.descendantAt? root [0, 0, 0, 0] = some n := by
  have ran : ((parse "x = <div><p><b /></p></div>;").toOption.map fun tree =>
      let d := (new "className" 1000 100).perform (restoring tree)
      (d.handle? (File.nodeId "f" 0 4), d.store.indexPath (File.nodeId "f" 0 4))) = some (some ⟨File.nodeId "f" 0 4, 6⟩, [0, 0, 0, 0]) := by
    decide +kernel
  simp only [Option.map_eq_some_iff, Prod.mk.injEq] at ran
  obtain ⟨tree, parsed, held, path⟩ := ran
  have used := Used.of_acts "className" 1000 100 (restoring tree)
  obtain ⟨_, _, root, same, _, leads, _⟩ := index_paths_address (n := ⟨File.nodeId "f" 0 4, 6⟩) used held
  exact ⟨tree, eq_ok_of_toOption parsed, used, held, path, root, same, path ▸ leads⟩

end Document

end MarkupEditor
