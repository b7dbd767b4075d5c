import MarkupEditor.Proofs.Document.Usage

namespace MarkupEditor

namespace Tree

variable {α : Type}

mutual

theorem postorder_perm : ∀ t : Tree α, t.postorder.Perm t.preorder
  | mk id _ children => (List.perm_append_singleton id _).trans ((postorderAll_perm children).cons id)

theorem postorderAll_perm : ∀ ts : List (Tree α), (postorderAll ts).Perm (preorderAll ts)
  | [] => .nil
  | t :: ts => (postorder_perm t).append (postorderAll_perm ts)

end

end Tree

namespace Store

variable {α : Type} [Placed α] {s s' : Store α} {gone : List String} {a b x : String}

theorem Below.trans (first : s.Below a b) (second : s.Below b x) : s.Below a x := by
  obtain ⟨i, up⟩ := first
  obtain ⟨j, up'⟩ := second
  exact ⟨j + 1 + i, by rw [Nat.add_assoc, climb_add, up', Option.bind_some, up]⟩

theorem below_total (first : s.Below a x) (second : s.Below b x) : a = b ∨ s.Below a b ∨ s.Below b a := by
  obtain ⟨i, up⟩ := first
  obtain ⟨j, up'⟩ := second
  have further : ∀ {i j a b}, i < j → s.climb (i + 1) x = some a → s.climb (j + 1) x = some b → s.Below b a := by
    intro i j a b less up up'
    obtain ⟨more, rfl⟩ := Nat.exists_eq_add_of_lt less
    rw [show i + more + 1 + 1 = i + 1 + (more + 1) by omega, climb_add, up] at up'
    exact ⟨more, up'⟩
  rcases Nat.lt_trichotomy i j with less | equal | less
  · exact .inr (.inr (further less up up'))
  · subst equal
    exact .inl (Option.some.inj (up.symm.trans up'))
  · exact .inr (.inl (further less up' up))

section

variable (acyclic : ∀ id, ¬ s.Below id id) {parent : String} (first : a ∈ s.children parent) (second : b ∈ s.children parent)

include acyclic first second

theorem siblings_not_below : ¬ s.Below a b := by
  intro below
  obtain ⟨r, found, named⟩ := mem_children.mp first
  obtain ⟨q, found', named'⟩ := mem_children.mp second
  obtain ⟨steps, up⟩ := below
  rw [climb, found', Option.bind_some, named'] at up
  cases steps with
  | zero =>
    obtain rfl := Option.some.inj up
    exact acyclic _ (below_self found named)
  | succ steps => exact acyclic a (Below.trans ⟨steps, up⟩ (below_self found named))

theorem siblings_share_nothing (other : a ≠ b) (below : x = a ∨ s.Below a x) : x ≠ b ∧ ¬ s.Below b x := by
  have apart := siblings_not_below acyclic first second
  have apart' := siblings_not_below acyclic second first
  cases below with
  | inl same => exact same ▸ ⟨other, apart'⟩
  | inr below =>
    refine ⟨fun same => apart (same ▸ below), fun below' => ?_⟩
    rcases below_total below below' with same | down | up
    · exact other same
    · exact apart down
    · exact apart' up

end

section

variable (rest : ∀ id, s'.get? id = if id ∈ gone then none else s.get? id)

include rest

theorem climb_erased {steps : Nat} (up : s'.climb steps x = some a) : s.climb steps x = some a := by
  induction steps generalizing x with
  | zero => exact up
  | succ steps ih =>
    rw [climb, rest] at up
    split at up
    · cases up
    · obtain ⟨r, found, onward⟩ := Option.bind_eq_some_iff.mp up
      rw [climb, found, Option.bind_some]
      exact ih onward

theorem treesUpTo_erased {levels : Nat} {id : String} (apart : ∀ x ∈ gone, ¬ s.Below id x) : s'.treesUpTo levels id = s.treesUpTo levels id := by
  induction levels generalizing id with
  | zero => rfl
  | succ levels ih =>
    have keys : ∀ x, keyUnder id (s'.get? x) = keyUnder id (s.get? x) := by
      intro x
      rw [rest]
      split
      · rename_i member
        cases found : s.get? x with
        | none => rfl
        | some r => exact (keyUnder_other fun here => apart x member (below_self found here.symm)).symm
      · rfl
    rw [treesUpTo, treesUpTo, children, keyedChildren_congr keys, ← children]
    apply List.filterMap_congr
    intro child member
    obtain ⟨r, found, named⟩ := mem_children.mp member
    have below := below_self found named
    rw [rest, if_neg fun erased => apart child erased below, ih fun x erased under => apart x erased (below.trans under)]

end

theorem postorder_treesUpTo (s : Store α) (levels : Nat) (id : String) :
    Tree.postorderAll (s.treesUpTo (levels + 1) id) = (s.children id).flatMap fun child => Tree.postorderAll (s.treesUpTo levels child) ++ [child] := by
  have each : ∀ ids : List String, ids ⊆ s.children id → Tree.postorderAll (ids.filterMap fun child =>
      (s.get? child).map fun record => .mk child record (s.treesUpTo levels child)) =
        ids.flatMap fun child => Tree.postorderAll (s.treesUpTo levels child) ++ [child] := by
    intro ids listed
    induction ids with
    | nil => rfl
    | cons child ids ih =>
      obtain ⟨first, later⟩ := List.cons_subset.mp listed
      obtain ⟨r, found, _⟩ := mem_children.mp first
      rw [List.filterMap_cons, found, List.flatMap_cons, ← ih later]
      rfl
  exact each _ (List.Subset.refl _)

end Store

theorem Timeline.limited_cons {κ α : Type} (maxLevels : Nat) (p : Passage κ α) (ps : List (Passage κ α)) :
    ∃ older, limited maxLevels (p :: ps) = p :: older := by
  unfold limited
  split
  · exact ⟨ps, rfl⟩
  · rename_i limit
    obtain ⟨n, levels⟩ := Nat.exists_eq_succ_of_ne_zero limit
    exact ⟨ps.take n, by rw [levels, List.take_succ_cons]⟩

namespace Document

variable {d d' d'' : Document} {classAttribute : String}

theorem write_none_entries (d : Document) (id : String) : (d.write id none).store.entries = d.store.entries.filter (·.1 ≠ id) := by
  have change := d.store.write_eq id none
  unfold write
  split
  · rename_i store same
    rw [same] at change
    split at change
    · rename_i absent
      have outside : id ∉ d.store.ids := by
        rw [← Store.get?_isSome_iff, absent.1]
        exact Bool.false_ne_true
      have other : ∀ e ∈ d.store.entries, e.1 ≠ id := fun e member here => outside (here ▸ List.mem_map_of_mem member)
      exact (List.filter_eq_self.mpr fun e member => decide_eq_true (other e member)).symm
    · cases change
  · rename_i store c same
    rw [same] at change
    split at change
    · cases change
    · obtain ⟨rfl, _⟩ := Prod.mk.inj change
      unfold replay
      rw [same]
      rfl

theorem write_hovered (d : Document) (id : String) (value : Option Record) : (d.write id value).hovered = d.hovered := by
  unfold write replay
  split <;> rfl

theorem handle?_write_other {id key : String} {value : Option Record} (other : key ≠ id) : (d.write id value).handle? key = d.handle? key := by
  have replayed : (d.replay id value).handle? key = d.handle? key := by
    unfold handle?
    cases d.replay_instances id value with
    | inl kept => rw [kept]
    | inr noted => rw [noted, Instances.note_get?, if_neg other]
  unfold write
  split
  · rfl
  · exact replayed

-- All that the second document lacks is these entries.
structure Lacks (d : Document) (gone : List String) (d' : Document) : Prop where
  entries : d'.store.entries = d.store.entries.filter (·.1 ∉ gone)
  selection : d'.selection.ids = d.selection.ids.filter (· ∉ gone)
  hovered : d'.hovered = d.hovered.filter (· ∉ gone)
  handle : ∀ id, id ∉ gone → d'.handle? id = d.handle? id
  expanded : d'.expanded = d.expanded

namespace Lacks

variable {gone gone' : List String}

theorem nothing (d : Document) : d.Lacks [] d := by
  have every : ∀ {α : Type} (xs : List α) (key : α → String), xs.filter (fun x => decide (key x ∉ [])) = xs :=
    fun xs key => List.filter_eq_self.mpr fun _ _ => by simp
  refine ⟨(every _ _).symm, (every _ id).symm, ?_, fun _ _ => rfl, rfl⟩
  cases d.hovered <;> rfl

theorem trans (first : d.Lacks gone d') (second : d'.Lacks gone' d'') : d.Lacks (gone ++ gone') d'' := by
  have both : ∀ x, (decide (x ∉ gone') && decide (x ∉ gone)) = decide (x ∉ gone ++ gone') := by
    intro x
    rw [Bool.eq_iff_iff]
    simp [and_comm]
  refine ⟨?_, ?_, ?_, fun id absent => ?_, second.expanded.trans first.expanded⟩
  · rw [second.entries, first.entries, List.filter_filter]
    exact List.filter_congr fun e _ => both e.1
  · rw [second.selection, first.selection, List.filter_filter]
    exact List.filter_congr fun x _ => both x
  · rw [second.hovered, first.hovered, Option.filter_filter]
    exact congrArg (d.hovered.filter ·) (funext fun x => (Bool.and_comm _ _).trans (both x))
  · rw [List.mem_append, not_or] at absent
    exact (second.handle id absent.2).trans (first.handle id absent.1)

theorem congr (lacks : d.Lacks gone d') (same : ∀ id, id ∈ gone ↔ id ∈ gone') : d.Lacks gone' d' := by
  have equal : (fun x => decide (x ∉ gone)) = fun x => decide (x ∉ gone') := funext fun x => by simp [same]
  refine ⟨?_, ?_, ?_, fun id absent => lacks.handle id ((same id).not.mpr absent), lacks.expanded⟩
  · rw [lacks.entries]
    exact List.filter_congr fun e _ => congrFun equal e.1
  · rw [lacks.selection, equal]
  · rw [lacks.hovered, equal]

theorem at_any_time {now : Nat} (lacks : Lacks { d with now } gone d') : d.Lacks gone d' :=
  ⟨lacks.entries, lacks.selection, lacks.hovered, lacks.handle, lacks.expanded⟩

theorem of_removeEntry (d : Document) (id : String) : d.Lacks [id] (d.removeEntry id) := by
  have single : ∀ x, decide (x ∉ [id]) = decide (x ≠ id) := fun x => by simp
  refine ⟨?_, ?_, ?_, fun key other => ?_, (Onward.of_removeEntry d id).expanded⟩
  · rw [removeEntry, write_none_entries]
    exact List.filter_congr fun e _ => (single e.1).symm
  · rw [removeEntry_selection]
    exact List.filter_congr fun x _ => (single x).symm
  · rw [removeEntry, write_hovered]
    cases d.hovered with
    | none => rfl
    | some x => simp [Option.filter_some]
  · exact handle?_write_other (d := { d with selection := d.selection.erase id, hovered := _ }) (fun same => other (List.mem_singleton.mpr same))

theorem removeAll (d : Document) (ids : List String) : d.Lacks ids (ids.foldl removeEntry d) := by
  induction ids generalizing d with
  | nil => exact nothing d
  | cons id ids ih => exact (of_removeEntry d id).trans (ih (d.removeEntry id))

end Lacks

def erasure (d : Document) (id : String) : List String := Tree.postorderAll (d.store.trees id) ++ [id]

theorem erasure_perm (d : Document) (id : String) : (d.erasure id).Perm (id :: d.store.descendants id) :=
  (List.perm_append_singleton id _).trans ((Tree.postorderAll_perm _).cons id)

theorem remove_eq (d : Document) (id : String) : d.remove id = (d.erasure id).foldl removeEntry d := by
  rw [erasure, List.foldl_append]
  rfl

theorem lacks_remove (d : Document) (id : String) : d.Lacks (id :: d.store.descendants id) (d.remove id) :=
  (remove_eq d id ▸ Lacks.removeAll d (d.erasure id)).congr fun _ => (d.erasure_perm id).mem_iff

-- Erases an entry after what is below it, whose children are looked up when their turn comes.
def removeDown : Nat → Document → String → Document
  | 0, d, id => d.removeEntry id
  | levels + 1, d, id => ((d.store.children id).foldl (removeDown levels) d).removeEntry id

theorem removeDown_children {levels : Nat} (each : ∀ (d : Document) id, (∀ x, ¬ d.store.Below x x) →
      removeDown levels d id = (Tree.postorderAll (d.store.treesUpTo levels id) ++ [id]).foldl removeEntry d)
    {parent : String} (ids : List String) (d : Document) (acyclic : ∀ x, ¬ d.store.Below x x) (distinct : ids.Nodup)
    (listed : ids ⊆ d.store.children parent) :
    ids.foldl (removeDown levels) d =
      (ids.flatMap fun child => Tree.postorderAll (d.store.treesUpTo levels child) ++ [child]).foldl removeEntry d := by
  -- What is below one child is below none of the others, so erasing it keeps their trees for the induction.
  induction ids generalizing d with
  | nil => rfl
  | cons id ids ih =>
    obtain ⟨other, distinct⟩ := List.nodup_cons.mp distinct
    obtain ⟨first, later⟩ := List.cons_subset.mp listed
    let erased := Tree.postorderAll (d.store.treesUpTo levels id) ++ [id]
    have rest : ∀ key, (erased.foldl removeEntry d).store.get? key = if key ∈ erased then none else d.store.get? key := removeAll_contents erased d
    have apart : ∀ next ∈ ids, ∀ x ∈ erased, x ≠ next ∧ ¬ d.store.Below next x := by
      intro next member x gone
      apply Store.siblings_share_nothing acyclic first (later member) (fun same => other (same ▸ member))
      cases List.mem_append.mp gone with
      | inl below =>
        obtain ⟨steps, _, up⟩ := Store.mem_postorder_treesUpTo.mp below
        exact .inr ⟨steps, up⟩
      | inr own => exact .inl (List.mem_singleton.mp own)
    have stay : ids ⊆ (erased.foldl removeEntry d).store.children parent := by
      intro next member
      obtain ⟨r, found, named⟩ := Store.mem_children.mp (later member)
      refine Store.mem_children.mpr ⟨r, ?_, named⟩
      rw [rest, if_neg fun gone => (apart next member next gone).1 rfl, found]
    have still : ∀ x, ¬ (erased.foldl removeEntry d).store.Below x x := by
      intro x below
      obtain ⟨steps, up⟩ := below
      exact acyclic x ⟨steps, Store.climb_erased rest up⟩
    have trees : (ids.flatMap fun child => Tree.postorderAll ((erased.foldl removeEntry d).store.treesUpTo levels child) ++ [child]) =
        ids.flatMap fun child => Tree.postorderAll (d.store.treesUpTo levels child) ++ [child] := by
      apply List.flatMap_congr
      intro next member
      rw [Store.treesUpTo_erased rest fun x gone => (apart next member x gone).2]
    rw [List.foldl_cons, each d id acyclic, ih _ still distinct stay, trees, List.flatMap_cons]
    exact List.foldl_append.symm

theorem removeDown_eq (levels : Nat) (d : Document) (id : String) (acyclic : ∀ x, ¬ d.store.Below x x) :
    removeDown levels d id = (Tree.postorderAll (d.store.treesUpTo levels id) ++ [id]).foldl removeEntry d := by
  induction levels generalizing d id with
  | zero => rfl
  | succ levels ih =>
    rw [removeDown, removeDown_children ih _ d acyclic (Store.nodup_children d.store id) (List.Subset.refl _), ← Store.postorder_treesUpTo,
      List.foldl_append]
    rfl

theorem remove_on_the_way (wooded : Store.Wooded d.store.get?) (id : String) : removeDown d.store.size d id = d.remove id := by
  have acyclic : ∀ x, ¬ d.store.Below x x := by
    intro x below
    obtain ⟨r, found⟩ := below.live
    exact Store.not_below_self wooded (wooded.named found) below
  rw [removeDown_eq _ d id acyclic, remove_eq, erasure, Store.trees]

def eraseAt (d : Document) (turns : List (String × Nat)) : Document := turns.foldl (fun d t => { d with now := t.2 }.removeEntry t.1) d

def removeAt (d : Document) (id : String) (times : List Nat) : Document := d.eraseAt ((d.erasure id).zip times)

theorem lacks_eraseAt (d : Document) (turns : List (String × Nat)) : d.Lacks (turns.map Prod.fst) (d.eraseAt turns) := by
  unfold eraseAt
  induction turns generalizing d with
  | nil => exact .nothing d
  | cons t turns ih =>
    exact (Lacks.of_removeEntry { d with now := t.2 } t.1).at_any_time.trans (ih _)

theorem eraseAt_constant (ids : List String) (d : Document) : d.eraseAt (ids.zip (List.replicate ids.length d.now)) = ids.foldl removeEntry d := by
  unfold eraseAt
  induction ids generalizing d with
  | nil => rfl
  | cons id ids ih =>
    have now : (d.removeEntry id).now = d.now := (Edited.of_removeEntry d id).frame.2.2.1
    rw [List.length_cons, List.replicate_succ, List.zip_cons_cons, List.foldl_cons, List.foldl_cons, ← ih, now]

-- The newest command of the history is open since some time, and leads from earlier contents to the present.
def Extends (before : Contents Unit Record) (d : Document) (last : Nat) : Prop :=
  ∃ t older, d.history.Records t ∧ t.current = d.contents ∧ t.past = ⟨before, d.contents⟩ :: older ∧ t.extended = some last

section

variable {id : String} {r : Record} (live : d.store.get? id = some r)

include live

theorem records_removeEntry {t : Timeline Unit Record} (records : d.history.Records t) (current : t.current = d.contents) :
    (d.removeEntry id).history.Records (t.change d.history.window d.history.stack.maxLevels d.now (d.removeEntry id).contents) := by
  let hidden : Document := { d with selection := d.selection.erase id, hovered := if d.hovered = some id then none else d.hovered }
  obtain ⟨written, _, _, _, staged | ⟨_, nothing⟩⟩ := hidden.write_eq id none
  · have recorded := History.records_stage records d.now () id none
    rw [current] at recorded
    unfold removeEntry
    rw [staged, written]
    exact recorded
  · have gone := congrFun (congrFun nothing ()) id
    have there : hidden.contents () id = some r := live
    rw [there, Contents.put] at gone
    simp at gone

theorem extends_closed {t : Timeline Unit Record} (records : d.history.Records t) (current : t.current = d.contents) (closed : t.extended = none) :
    (d.removeEntry id).Extends d.contents d.now := by
  have recorded := records_removeEntry live records current
  have fresh : t.joins d.history.window d.now = false := by rw [Timeline.joins, closed]
  obtain ⟨older, newest⟩ := Timeline.limited_cons d.history.stack.maxLevels ⟨t.current, (d.removeEntry id).contents⟩ t.past
  refine ⟨_, older, recorded, rfl, ?_, rfl⟩
  rw [Timeline.change, fresh, if_neg Bool.false_ne_true, newest, current]

theorem extends_further {before : Contents Unit Record} {last : Nat} (extending : d.Extends before last) (soon : d.now - last ≤ d.history.window) :
    (d.removeEntry id).Extends before d.now := by
  obtain ⟨t, older, records, current, past, extended⟩ := extending
  have recorded := records_removeEntry live records current
  have joined : t.joins d.history.window d.now = true := by simpa [Timeline.joins, extended] using soon
  refine ⟨_, older, recorded, rfl, ?_, rfl⟩
  rw [Timeline.change, joined, if_pos rfl, past]
  rfl

end

theorem removeEntry_live {id key : String} (other : key ≠ id) (live : (d.store.get? key).isSome = true) :
    ((d.removeEntry id).store.get? key).isSome = true := by
  rw [removeEntry, write_get?, if_neg other]
  exact live

theorem removeEntry_window (d : Document) (id : String) : (d.removeEntry id).history.window = d.history.window :=
  (Edited.of_removeEntry d id).frame.2.2.2.1

theorem extends_eraseAt {turns : List (String × Nat)} {before : Contents Unit Record} {last : Nat} (extending : d.Extends before last)
    (live : ∀ t ∈ turns, (d.store.get? t.1).isSome = true) (distinct : (turns.map Prod.fst).Nodup)
    (soon : (last :: turns.map Prod.snd).IsChain fun a b => b - a ≤ d.history.window) : ∃ last', (d.eraseAt turns).Extends before last' := by
  unfold eraseAt
  induction turns generalizing d last with
  | nil => exact ⟨last, extending⟩
  | cons t turns ih =>
    obtain ⟨first, later⟩ := List.forall_mem_cons.mp live
    obtain ⟨other, distinct⟩ := List.nodup_cons.mp distinct
    obtain ⟨gap, soon⟩ := List.isChain_cons_cons.mp soon
    obtain ⟨r, found⟩ := Option.isSome_iff_exists.mp first
    apply ih (extends_further (d := { d with now := t.2 }) found extending gap) _ distinct (by rw [removeEntry_window]; exact soon)
    intro u member
    exact removeEntry_live (fun same => other (same ▸ List.mem_map_of_mem member)) (later u member)

theorem undo_fst (d : Document) : d.undo.1 = d.history.undo.1.isSome := by
  unfold undo
  split <;> rename_i same <;> rw [same] <;> rfl

theorem undo_extends {before : Contents Unit Record} {last : Nat} (extending : d.Extends before last) :
    d.undo.1 = true ∧ d.undo.2.contents = before := by
  obtain ⟨t, older, records, current, past, _⟩ := extending
  have undone : t.undo = (true, { current := before, past := older, future := ⟨before, d.contents⟩ :: t.future }) := by
    rw [Timeline.undo, past]
  constructor
  · rw [undo_fst, (History.records_undo records).2, undone]
  · rw [(d.undo_eq).1, ← current, History.replay_undo records, undone]

section

variable (standing : d.Standing) {n : Handle} (held : d.handle? n.id = some n)

include standing held

theorem erasure_live : ∀ id ∈ d.erasure n.id, (d.store.get? id).isSome = true := fun id member =>
  (Store.get?_isSome_iff d.store id).mpr (standing.tree_live held ((d.erasure_perm n.id).mem_iff.mp member))

theorem nodup_erasure : (d.erasure n.id).Nodup := (d.erasure_perm n.id).nodup_iff.mpr (standing.nodup_tree held)

theorem removeAt_undone (closed : d.history.lastStaged = none) (times : List Nat) (length : times.length = (d.erasure n.id).length)
    (soon : times.IsChain fun a b => b - a ≤ d.history.window) :
    (d.removeAt n.id times).undo.1 = true ∧ (d.removeAt n.id times).undo.2.store.get? = d.store.get? := by
  obtain ⟨t, records, current, _⟩ := standing.follows
  have live := erasure_live standing held
  have distinct := nodup_erasure standing held
  have ended : t.extended = none := records.extended.symm.trans closed
  unfold removeAt
  cases order : d.erasure n.id with
  | nil => simp [erasure] at order
  | cons id ids =>
    rw [order] at live distinct length
    cases times with
    | nil => cases length
    | cons time times =>
      have covered : times.length = ids.length := Nat.succ.inj length
      obtain ⟨first, later⟩ := List.forall_mem_cons.mp live
      obtain ⟨other, distinct⟩ := List.nodup_cons.mp distinct
      obtain ⟨r, found⟩ := Option.isSome_iff_exists.mp first
      have opened := extends_closed (d := { d with now := time }) found records current ended
      have there : ∀ u ∈ ids.zip times, ((({ d with now := time } : Document).removeEntry id).store.get? u.1).isSome = true := by
        intro u member
        have listed := (List.of_mem_zip member).1
        exact removeEntry_live (fun same => other (same ▸ listed)) (later u.1 listed)
      obtain ⟨last, extending⟩ := extends_eraseAt opened there (by rw [List.map_fst_zip covered.ge]; exact distinct)
        (by rw [List.map_snd_zip covered.le, removeEntry_window]; exact soon)
      obtain ⟨undone, contents⟩ := undo_extends extending
      exact ⟨undone, congrFun contents ()⟩

end

theorem removeAt_constant (d : Document) (id : String) : d.removeAt id (List.replicate (d.erasure id).length d.now) = d.remove id := by
  rw [removeAt, eraseAt_constant, remove_eq]

theorem isOpen_of_lacks {gone : List String} (lacks : d.Lacks gone d') {id : String} (kept : id ∉ gone) : d'.isOpen id = d.isOpen id := by
  unfold isOpen isExpanded
  rw [lacks.handle id kept, lacks.expanded]

-- Deleting a node takes it and what is below it out of everything, and nothing else, unless the parent pins its children. In one
-- go after a commit, at one time or over some, it is undone by one undo.
theorem deletion_takes_subtree (used : d.Used classAttribute) {n : Handle} (held : d.handle? n.id = some n) :
    (∀ p, d.store.parent? n.id = some p → d.pinsChildren p = true → d.delete n.id = (false, d)) ∧
      ((∀ p, d.store.parent? n.id = some p → d.pinsChildren p = false) →
        let gone := n.id :: d.store.descendants n.id
        let after := (d.delete n.id).2
        let committed : Document := { d with history := d.history.close }
        d.delete n.id = (true, removeDown d.store.size d n.id) ∧ after.store.entries = d.store.entries.filter (·.1 ∉ gone) ∧
          after.selection.ids = d.selection.ids.filter (· ∉ gone) ∧ after.hovered = d.hovered.filter (· ∉ gone) ∧
          (∀ id, id ∉ gone → after.handle? id = d.handle? id ∧ after.isOpen id = d.isOpen id) ∧
          ((committed.delete n.id).2.undo.1 = true ∧ (committed.delete n.id).2.undo.2.store.get? = d.store.get?) ∧
          ∀ times : List Nat, times.length = gone.length → times.IsChain (fun a b => b - a ≤ d.history.window) →
            let cut := committed.removeAt n.id times
            cut.store.entries = after.store.entries ∧ cut.undo.1 = true ∧ cut.undo.2.store.get? = d.store.get?) := by
  constructor
  · intro p above pins
    have pinned : d.isMovable n.id = false := by simp [isMovable, above, pins]
    rw [delete, pinned, if_neg Bool.false_ne_true]
  · intro free gone after committed
    have movable : d.isMovable n.id = true := by
      unfold isMovable
      cases above : d.store.parent? n.id with
      | none => rfl
      | some p => simp [free p above]
    have deleted : d.delete n.id = (true, d.remove n.id) := by rw [delete, movable, if_pos rfl]
    have deleted' : committed.delete n.id = (true, committed.remove n.id) := by
      have movable' : committed.isMovable n.id = true := movable
      rw [delete, movable', if_pos rfl]
    have lacks : d.Lacks gone after := by
      show d.Lacks gone (d.delete n.id).2
      rw [deleted]
      exact lacks_remove d n.id
    have length := (committed.erasure_perm n.id).length_eq
    have undone := removeAt_undone (d := committed) used.committed.standing held rfl
    refine ⟨?_, lacks.entries, lacks.selection, lacks.hovered, fun id kept => ⟨lacks.handle id kept, isOpen_of_lacks lacks kept⟩, ?_, ?_⟩
    · rw [deleted, remove_on_the_way used.wooded]
    · rw [deleted', ← removeAt_constant]
      exact undone _ List.length_replicate (List.Pairwise.isChain (List.pairwise_replicate.mpr (.inr (by simp))))
    · intro times full soon cut
      have covered : times.length = (committed.erasure n.id).length := full.trans length.symm
      have taken := lacks_eraseAt committed ((committed.erasure n.id).zip times)
      rw [List.map_fst_zip covered.ge] at taken
      have lacks' : committed.Lacks gone cut := taken.congr fun _ => (committed.erasure_perm n.id).mem_iff
      exact ⟨lacks'.entries.trans lacks.entries.symm, undone times covered soon⟩

def pointing (d : Document) : Document :=
  ((d.select (File.nodeId "f" 0 2)).select (File.nodeId "f" 0 4)).hover (some (File.nodeId "f" 0 3))

theorem viewed_pointing (d : Document) : Viewed d d.pointing := ⟨rfl, rfl, rfl, rfl, rfl⟩

theorem deletion_takes_subtree_selected :
    ∃ tree, parse "x = <div><p><b /></p></div>;" = .ok tree ∧
      let d := ((new "className" 1000 100).perform [(0, .load "f" tree)]).pointing
      let n : Handle := ⟨File.nodeId "f" 0 3, 4⟩
      let cut := { d with history := d.history.close }.removeAt n.id [5, 1004]
      d.Used "className" ∧ d.handle? n.id = some n ∧ (∀ p, d.store.parent? n.id = some p → d.pinsChildren p = false) ∧
        d.history.window = 1000 ∧ (d.delete n.id).1 = true ∧ (d.delete n.id).2.selection.ids = [File.nodeId "f" 0 2] ∧
        (d.delete n.id).2.hovered = none ∧ cut.undo.1 = true ∧ cut.undo.2.store.get? = d.store.get? := by
  have ran : ((parse "x = <div><p><b /></p></div>;").toOption.map fun tree =>
      let d := ((new "className" 1000 100).perform [(0, .load "f" tree)]).pointing
      let gone := File.nodeId "f" 0 3 :: d.store.descendants (File.nodeId "f" 0 3)
      (d.handle? (File.nodeId "f" 0 3), (d.store.parent? (File.nodeId "f" 0 3)).map d.pinsChildren,
        [d.history.window, gone.length], [d.selection.ids.filter (· ∉ gone), (d.hovered.filter (· ∉ gone)).toList])) =
      some (some ⟨File.nodeId "f" 0 3, 4⟩, some false, [1000, 2], [[File.nodeId "f" 0 2], []]) := by
    decide +kernel
  simp only [Option.map_eq_some_iff, Prod.mk.injEq, List.cons.injEq, and_true, Option.toList_eq_nil_iff] at ran
  obtain ⟨tree, parsed, held, ⟨parent, above, free⟩, ⟨window, length⟩, selected, hovered⟩ := ran
  have used := (Used.of_acts "className" 1000 100 [(0, .load "f" tree)]).viewed (viewed_pointing _)
  refine ⟨tree, eq_ok_of_toOption parsed, ?_⟩
  generalize ((new "className" 1000 100).perform [(0, .load "f" tree)]).pointing = d at *
  have allowed : ∀ p, d.store.parent? (File.nodeId "f" 0 3) = some p → d.pinsChildren p = false :=
    fun p found => Option.some.inj (above.symm.trans found) ▸ free
  obtain ⟨_, effect⟩ := deletion_takes_subtree (n := ⟨File.nodeId "f" 0 3, 4⟩) used held
  obtain ⟨deleted, _, kept, pointed, _, _, timed⟩ := effect allowed
  obtain ⟨_, undone, restored⟩ := timed [5, 1004] length.symm (by rw [window]; decide)
  exact ⟨used, held, allowed, window, congrArg Prod.fst deleted, kept.trans selected, pointed.trans hovered, undone, restored⟩

end Document

end MarkupEditor
