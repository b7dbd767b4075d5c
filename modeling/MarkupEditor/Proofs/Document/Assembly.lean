import MarkupEditor.Proofs.Document.Pinned

namespace MarkupEditor

def Act.isEdit : Act → Bool
  | load .. => false
  | reload .. => false
  | close _ => false
  | _ => true

def Act.moves? : Act → Option (String × List String × Option String)
  | insertBefore parent nodes next => some (parent, nodes, next)
  | append parent nodes => some (parent, nodes, none)
  | _ => none

namespace Document

variable {d d' : Document}

theorem append_nothing (d : Document) (parent : Handle) : (d.append parent []).2 = d := by
  unfold append insertBefore
  split <;> rfl

theorem apply_edit (d : Document) {a : Act} (edits : a.isEdit = true) : ∃ e : Edit, a.apply d = e.apply d := by
  have nothing : ∃ e : Edit, d = e.apply d := ⟨.append ⟨"", 0⟩ [], (d.append_nothing _).symm⟩
  cases a with
  | load | reload | close => cases edits
  | insertBefore parent nodes next =>
    rw [Act.apply]
    split
    · exact ⟨.insertBefore _ _ _, rfl⟩
    · exact nothing
  | append parent nodes =>
    rw [Act.apply]
    split
    · exact ⟨.append _ _, rfl⟩
    · exact nothing
  | delete id =>
    rw [Act.apply]
    split
    · exact ⟨.delete _, rfl⟩
    · exact nothing
  | setClass id className =>
    rw [Act.apply]
    split
    · exact ⟨.setClass _ _, rfl⟩
    · exact nothing
  | setText id text =>
    rw [Act.apply]
    split
    · exact ⟨.setText _ _, rfl⟩
    · exact nothing
  | undo => exact ⟨.undo, rfl⟩
  | redo => exact ⟨.redo, rfl⟩

-- All that an edit can do: update records one after another, remove an entry with what is below it, or move through the history.
theorem edit_cases (d : Document) (e : Edit) :
    (∃ updates : List (String × (Record → Record)), e.apply d = updates.foldl (fun d u => d.update u.1 u.2) d) ∨
      (∃ id, e.apply d = d.remove id) ∨ e = .undo ∨ e = .redo := by
  have moved : ∀ parent nodes next, ∃ updates : List (String × (Record → Record)),
      (d.insertBefore parent nodes next).2 = updates.foldl (fun d u => d.update u.1 u.2) d := by
    intro parent nodes next
    rcases d.insertBefore_cases parent nodes next with same | ⟨moves, _, same⟩
    · exact ⟨[], same⟩
    · exact ⟨moves.map fun p => (p.1.id, (·.placed parent.id (some p.2))), by rw [same, List.foldl_map]⟩
  cases e with
  | insertBefore parent nodes next => exact .inl (moved parent nodes next)
  | append parent nodes => exact .inl (moved parent nodes none)
  | delete id =>
    rw [Edit.apply, delete]
    split
    · exact .inr (.inl ⟨id, rfl⟩)
    · exact .inl ⟨[], rfl⟩
  | setClass id className =>
    rw [Edit.apply, setClass]
    split
    · exact .inl ⟨[(id, fun r => { r with className := some className })], rfl⟩
    · exact .inl ⟨[], rfl⟩
  | setText id text =>
    rw [Edit.apply, setText]
    split
    · exact .inl ⟨[(id, fun r => { r with text := some text })], rfl⟩
    · exact .inl ⟨[], rfl⟩
  | undo => exact .inr (.inr (.inl rfl))
  | redo => exact .inr (.inr (.inr rfl))

theorem apply_frame (d : Document) {a : Act} (edits : a.isEdit = true) : (a.apply d).files = d.files ∧ (a.apply d).classAttribute = d.classAttribute := by
  have frame : ∀ {d'}, Edited d d' → d'.files = d.files ∧ d'.classAttribute = d.classAttribute := fun edited => ⟨edited.files, edited.classAttribute⟩
  obtain ⟨e, same⟩ := d.apply_edit edits
  rw [same]
  rcases d.edit_cases e with ⟨updates, updated⟩ | ⟨id, removed⟩ | rfl | rfl
  · rw [updated]
    exact frame (.foldl (fun d u => .of_update d u.1 u.2) updates d)
  · rw [removed]
    exact frame (.of_remove d id)
  · exact d.undo_eq.2.2
  · exact d.redo_eq.2.2

-- What an act that edits looked-up nodes can do: give a record another class or text, move nodes, or remove an entry with
-- everything below it. A property of contents that it keeps in doing so holds in all that can be returned to.
theorem Follows.act {P : Contents Unit Record → Prop} (follows : d.Follows P) {a : Act} (edits : a.isEdit = true)
    (updated : ∀ id f, (∀ r : Record, (f r).parent = r.parent ∧ (f r).order = r.order ∧ (f r).origin = r.origin) → P (d.update id f).contents)
    (moved : ∀ parent nodes next h, a.moves? = some (parent, nodes, next) → d.node parent = .ok h →
      P (d.insertBefore h (d.handles nodes) next).2.contents)
    (removed : ∀ id h, a = .delete id → d.node id = .ok h → d.isMovable id = true → P (d.remove id).contents) : (a.apply d).Follows P := by
  cases a with
  | load | reload | close => cases edits
  | insertBefore parent nodes next =>
    rw [Act.apply]
    split
    · rename_i h found
      exact follows.edited (d.edited_insertBefore h _ next) (moved parent nodes next h rfl found)
    · exact follows
  | append parent nodes =>
    rw [Act.apply]
    split
    · rename_i h found
      exact follows.edited (d.edited_insertBefore h _ none) (moved parent nodes none h rfl found)
    · exact follows
  | delete id =>
    rw [Act.apply]
    split
    · rename_i h found
      rw [id_of_node found, delete]
      split
      · rename_i movable
        exact follows.edited (.of_remove d _) (removed id h rfl found movable)
      · exact follows
    · exact follows
  | setClass id className =>
    rw [Act.apply]
    split
    · unfold setClass
      split
      · exact follows.edited (.of_update d _ _) (updated _ _ fun _ => ⟨rfl, rfl, rfl⟩)
      · exact follows
    · exact follows
  | setText id text =>
    rw [Act.apply]
    split
    · unfold setText
      split
      · exact follows.edited (.of_update d _ _) (updated _ _ fun _ => ⟨rfl, rfl, rfl⟩)
      · exact follows
    · exact follows
  | undo => exact follows.undo
  | redo => exact follows.redo

theorem fixed_apply {files : List File} (follows : d.Follows (Fixed files)) (standing : d.Standing) {a : Act} (edits : a.isEdit = true) :
    (a.apply d).Follows (Fixed files) := by
  have fixed := follows.present
  refine follows.act edits (fun id f same => fixed_update fixed id same) ?_ fun id _ _ _ movable => fixed_delete fixed movable
  intro parent nodes next h _ found
  have own : d.node h.id = .ok h := by rwa [id_of_node found]
  exact fixed_insertBefore fixed standing.planted standing.serves own node_of_handles next

section

variable {path : String} {tree : SourceTree} {generation : Nat}

theorem bound_fileTree (regular : tree.Regular) : ((d.fileTree path tree generation).shape Record.node?).Throughout Shape.Bound := by
  refine ⟨fun n same => ?_, (d.shape_fileTree path tree generation).symm ▸ (Shape.ofTree_bound regular).2⟩
  cases same

theorem rootId_within {path' : String} {u : Tree Record} (within : (d.fileTree path tree generation).Within u) (root : u.id = File.rootId path') :
    u = d.fileTree path tree generation ∧ path' = path := by
  obtain ⟨numbers, _, ids⟩ := @ids_fileTree d path tree generation
  have listed := within.id_mem
  rw [ids, root] at listed
  rcases List.mem_cons.mp listed with same | member
  · obtain rfl := File.rootId_injective same
    exact ⟨Tree.within_unique (nodup_fileTree ..) within (.self _) root, rfl⟩
  · obtain ⟨k, _, same⟩ := List.mem_map.mp member
    exact absurd same (File.nodeId_ne_rootId path path' generation k)

variable (planted : Planted (d.contents ())) (free : ∀ id ∈ (d.fileTree path tree generation).pairs.map Prod.fst, d.contents () id = none)

include planted free

-- The children of a new entry are those of its place in the tree, as nothing named it before.
theorem pins_within {u : Tree Record} (within : (d.fileTree path tree generation).Within u) {nodes : List Node}
    (children : u.children.map (·.value.node?) = nodes.map some) : Pins ((d.build path tree generation).contents ()) u.id nodes := by
  have grafted := grafted_build planted path tree generation
  have inOrder : (u.children.map fun c => (c.id, Store.orderKey c.value, c.value.node?)).Pairwise fun a b => a.2.1 < b.2.1 :=
    (grafted.ascending u within).map _ fun _ _ less => less
  refine ⟨u.children.map fun c => (c.id, Store.orderKey c.value, c.value.node?), by rw [List.map_map]; exact children, inOrder, fun child key n => ?_⟩
  rw [seat_eq_some]
  constructor
  · rintro ⟨r, found, named, rfl, rfl⟩
    rcases (grafted.rest child r).mp found with member | ⟨_, held⟩
    · obtain ⟨v, above, same, c, listed, rfl, rfl⟩ := grafted.place member named
      obtain rfl := Tree.within_unique grafted.nodup above within same
      exact List.mem_map.mpr ⟨c, listed, rfl⟩
    · obtain ⟨q, live⟩ := (planted.above ⟨r, held, named⟩).live
      cases live.symm.trans (free u.id within.id_mem)
  · intro member
    obtain ⟨c, listed, same⟩ := List.mem_map.mp member
    cases same
    exact ⟨c.value, (grafted.rest _ _).mpr (.inl (Tree.mem_pairs.mpr ⟨c, within.child listed, rfl⟩)), (grafted.under u within c listed).1, rfl, rfl⟩

theorem fixed_build (fixed : Fixed d.files d.contents) (regular : tree.Regular) :
    Fixed (d.build path tree generation).files (d.build path tree generation).contents := by
  have grafted := grafted_build planted path tree generation
  obtain ⟨⟨numbering, files⟩, _⟩ := d.build_frame path tree generation
  have elsewhere : ∀ {path' : String}, path' ≠ path →
      File.find? (File.put { path, tree, generation, numbering } d.files) path' = File.find? d.files path' := by
    intro path' other
    rw [File.find?_put, if_neg other]
  have outside : ∀ {path' : String}, path' ≠ path → File.rootId path' ∉ (d.fileTree path tree generation).pairs.map Prod.fst := by
    intro path' other member
    obtain ⟨e, listed, same⟩ := List.mem_map.mp member
    obtain ⟨u, within, rfl⟩ := Tree.mem_pairs.mp listed
    exact other (rootId_within within same).2
  rw [files]
  constructor
  · intro path' f r found live
    by_cases here : path' = path
    · rcases (grafted.rest _ r).mp live with member | ⟨absent, _⟩
      · obtain ⟨u, within, same⟩ := Tree.mem_pairs.mp member
        obtain ⟨id, rfl⟩ := Prod.mk.inj same
        rw [(rootId_within within id.symm).1]
        rfl
      · exact absurd List.mem_cons_self (here ▸ absent)
    · rcases (grafted.rest _ r).mp live with member | ⟨_, held⟩
      · exact absurd (List.mem_map_of_mem member) (outside here)
      · exact fixed.roots path' f r (elsewhere here ▸ found) held
  · intro id r nodes live binds
    rcases (grafted.rest id r).mp live with member | ⟨old, held⟩
    · obtain ⟨u, within, same⟩ := Tree.mem_pairs.mp member
      obtain ⟨rfl, rfl⟩ := Prod.mk.inj same
      apply pins_within planted free within
      generalize own : u.id = id at binds
      cases binds with
      | code node code => exact Shape.within (bound_fileTree regular) within _ node code
      | file found _ =>
        obtain ⟨whole, here⟩ := rootId_within within own
        rw [here, File.find?_put, if_pos rfl] at found
        cases found
        have top := (Shape.ofTree_bound regular).1
        rw [← d.shape_fileTree path tree generation, Tree.values_children] at top
        rw [whole]
        exact top
    -- The entry was there before. A new entry has its parent among the new ones, so what is pinned under an old one
    -- stays.
    · have before : Binds d.files id r nodes := by
        cases binds with
        | code node code => exact .code node code
        | @file path' f _ found isFile =>
          have other : path' ≠ path := fun here => old (here ▸ List.mem_cons_self)
          exact .file (elsewhere other ▸ found) isFile
      refine (fixed.pinned id r nodes held before).congr fun child => ?_
      by_cases new : child ∈ (d.fileTree path tree generation).pairs.map Prod.fst
      · rw [show seat (d.contents ()) id child = none from seat_eq_none fun q found => by cases found.symm.trans (free child new)]
        apply seat_eq_none
        intro q found named
        rcases (grafted.rest child q).mp found with member | ⟨absent, _⟩
        · obtain ⟨v, above, same, _⟩ := grafted.place member named
          exact old (same ▸ above.id_mem)
        · exact absent new
      · have same : (d.build path tree generation).contents () child = d.contents () child := by
          apply Option.ext
          intro q
          rw [grafted.rest]
          constructor
          · rintro (member | ⟨_, found⟩)
            · exact absurd (List.mem_map_of_mem member) new
            · exact found
          · exact fun found => .inr ⟨new, found⟩
        rw [seat, seat, same]

end

def Unused (d : Document) (path : String) : Prop :=
  d.store.get? (File.rootId path) = none ∧ ∀ count, d.store.get? (File.nodeId path 0 count) = none

-- Files whose sources parse are opened one after another, under ids that nothing has yet, and their nodes are looked up
-- and edited at any times.
inductive Assembled (classAttribute : String) : Document → Prop where
  | new (undoWindow maxLevels : Nat) : Assembled classAttribute (.new classAttribute undoWindow maxLevels)
  | load {d d' : Document} {root : Handle} {source path : String} {tree : SourceTree} (before : Assembled classAttribute d)
      (parsed : parse source = .ok tree) (closed : d.isLoaded path = false) (unused : d.Unused path)
      (loaded : d.load path tree = .ok (root, d')) : Assembled classAttribute d'
  | edit {d : Document} (before : Assembled classAttribute d) (now : Nat) {a : Act} (edits : a.isEdit = true) :
      Assembled classAttribute (a.apply { d with now })

theorem Assembled.perform {classAttribute : String} (assembled : Assembled classAttribute d) {acts : List (Nat × Act)}
    (edits : ∀ a ∈ acts, a.2.isEdit = true) : Assembled classAttribute (d.perform acts) := by
  unfold Document.perform
  induction acts generalizing d with
  | nil => exact assembled
  | cons a acts ih =>
    obtain ⟨first, later⟩ := List.forall_mem_cons.mp edits
    exact ih (.edit assembled a.1 first) later

theorem Assembled.reached {classAttribute : String} (assembled : Assembled classAttribute d) : d.Reached classAttribute := by
  induction assembled with
  | new undoWindow maxLevels => exact .new undoWindow maxLevels
  | load _ parsed _ _ loaded ih => exact .load ih parsed loaded
  | @edit d _ now a edits ih =>
    obtain ⟨e, same⟩ := apply_edit { d with now } edits
    rw [same]
    exact .edit ih now e

structure Sturdy (d : Document) : Prop where
  standing : d.Standing
  regular : d.Follows (Orderly Node.Regular d.files)
  files : ∀ f ∈ d.files, f.tree.Regular
  fixed : d.Follows (Fixed d.files)

theorem Sturdy.build {path : String} {tree : SourceTree} {root : Handle} (sturdy : d.Sturdy) (regular : tree.Regular)
    (closed : d.isLoaded path = false) (unused : d.Unused path) (loaded : d.load path tree = .ok (root, d')) : d'.Sturdy := by
  obtain ⟨orderly, _, f, _, same, files⟩ := follows_load sturdy.regular regular.nodes loaded
  have standing := sturdy.standing.load loaded
  refine ⟨standing, orderly, fun g member => ?_, ?_⟩
  · rw [files] at member
    rcases File.mem_put member with rfl | member
    · rwa [same]
    · exact sturdy.files g member
  · unfold load at loaded
    rw [if_neg (by rw [closed]; exact Bool.false_ne_true)] at loaded
    dsimp only at loaded
    split at loaded
    · cases loaded
      have free : ∀ id ∈ (d.fileTree path tree 0).pairs.map Prod.fst, d.contents () id = none := by
        intro id member
        obtain ⟨numbers, _, ids⟩ := @ids_fileTree d path tree 0
        rw [ids] at member
        rcases List.mem_cons.mp member with rfl | member
        · exact unused.1
        · obtain ⟨k, _, rfl⟩ := List.mem_map.mp member
          exact unused.2 k
      have anew : d.history.pause.paused = 1 := by simp [History.pause, sturdy.standing.follows.recording]
      exact Follows.cleared anew (d.build_frame path tree 0).2.2.1
        (fixed_build sturdy.standing.follows.present free sturdy.fixed.present regular)
    · cases loaded

theorem Sturdy.edit (sturdy : d.Sturdy) (now : Nat) {a : Act} (edits : a.isEdit = true) : (a.apply { d with now }).Sturdy := by
  have standing := sturdy.standing.at_time now
  have fixed := fixed_apply (show Follows (Fixed d.files) { d with now } from sturdy.fixed) standing edits
  obtain ⟨e, same⟩ := apply_edit { d with now } edits
  obtain ⟨orderly, files, _⟩ := follows_apply (show Follows (Orderly Node.Regular d.files) { d with now } from sturdy.regular) e
  rw [← same] at orderly files
  refine ⟨standing.apply a, orderly, ?_, ?_⟩
  · rw [files]
    exact sturdy.files
  · rw [files]
    exact fixed

theorem Assembled.sturdy {classAttribute : String} (assembled : Assembled classAttribute d) : d.Sturdy := by
  induction assembled with
  | new undoWindow maxLevels =>
    refine ⟨.new .., follows_new .., ?_, ?_⟩
    · intro f member
      cases member
    refine ⟨_, History.records_start _ rfl rfl rfl rfl, rfl, Timeline.always_start ⟨?_, ?_⟩⟩
    · intro path f r _ live
      cases live
    · intro id r nodes live
      cases live
  | load _ parsed closed unused loaded ih => exact ih.build (parse_regular parsed) closed unused loaded
  | edit _ now edits ih => exact ih.edit now edits

end Document

end MarkupEditor
