import MarkupEditor.Markup.Parse
import MarkupEditor.Proofs.Document.Moves

namespace MarkupEditor

inductive Act where
  | load (path : String) (tree : SourceTree)
  | reload (path : String) (tree : SourceTree)
  | close (path : String)
  | insertBefore (parent : String) (nodes : List String) (next : Option String)
  | append (parent : String) (nodes : List String)
  | delete (id : String)
  | setClass (id className : String)
  | setText (id text : String)
  | undo
  | redo

-- What fails leaves the document as it is.
def Act.apply (d : Document) : Act → Document
  | load path tree =>
    match d.load path tree with
    | .ok (_, after) => after
    | .error _ => d
  | reload path tree =>
    match d.reload path tree with
    | .ok (_, after) => after
    | .error _ => d
  | close path =>
    match d.close path with
    | .ok after => after
    | .error _ => d
  | insertBefore parent nodes next =>
    match d.node parent with
    | .ok h => (d.insertBefore h (d.handles nodes) next).2
    | .error _ => d
  | append parent nodes =>
    match d.node parent with
    | .ok h => (d.append h (d.handles nodes)).2
    | .error _ => d
  | delete id =>
    match d.node id with
    | .ok h => (d.delete h.id).2
    | .error _ => d
  | setClass id className =>
    match d.node id with
    | .ok h => d.setClass h.id className
    | .error _ => d
  | setText id text =>
    match d.node id with
    | .ok h => d.setText h.id text
    | .error _ => d
  | undo => d.undo.2
  | redo => d.redo.2

def Document.perform (d : Document) (acts : List (Nat × Act)) : Document :=
  acts.foldl (fun d a => a.2.apply { d with now := a.1 }) d

namespace Document

variable {d d' : Document}

theorem node_of_handles {ids : List String} : ∀ h ∈ d.handles ids, d.node h.id = .ok h := by
  intro h member
  obtain ⟨key, _, held⟩ := List.mem_filterMap.mp member
  have same : d.node key = .ok h := by
    unfold node
    rw [held]
  rwa [id_of_node same]

-- All that can be returned to is planted, and every entry has an instance.
structure Standing (d : Document) : Prop where
  follows : d.Follows fun m => Planted (m ())
  serves : d.instances.Serves d.store

theorem planted_emptied (planted : Planted (d.contents ())) (path : String) : Planted ((d.emptied path).contents ()) :=
  planted_removeBelow (d := { d with history := d.history.pause }) planted (File.rootId path)

namespace Standing

theorem planted (standing : d.Standing) : Planted d.store.get? := standing.follows.present

theorem edited (standing : d.Standing) (edited : Edited d d') (planted : Planted (d'.contents ())) : d'.Standing :=
  ⟨standing.follows.edited edited planted, serves_edited standing.serves edited⟩

theorem viewed (standing : d.Standing) (viewed : Viewed d d') : d'.Standing := by
  refine ⟨standing.follows.viewed viewed, ?_⟩
  rw [viewed.store, viewed.instances]
  exact standing.serves

theorem build (recording : d.history.paused = 0) (planted : Planted (d.contents ())) (serves : d.instances.Serves d.store) (path : String)
    (tree : SourceTree) (generation : Nat) : (d.build path tree generation).Standing := by
  have anew : d.history.pause.paused = 1 := by simp [History.pause, recording]
  exact ⟨Follows.cleared anew (d.build_frame path tree generation).2.2.1 (planted_build planted path tree generation),
    serves_build serves path tree generation⟩

theorem reload (standing : d.Standing) {path : String} {tree : SourceTree} {root : Handle}
    (loaded : d.reload path tree = .ok (root, d')) : d'.Standing := by
  obtain ⟨f, _, viewed⟩ := reload_eq loaded
  obtain ⟨_, _, history⟩ := d.emptied_frame path
  exact (Standing.build (d := d.emptied path) (history ▸ standing.follows.recording) (planted_emptied standing.follows.present path)
    (serves_emptied standing.serves path) path tree (f.generation + 1)).viewed viewed

theorem load (standing : d.Standing) {path : String} {tree : SourceTree} {root : Handle}
    (loaded : d.load path tree = .ok (root, d')) : d'.Standing := by
  unfold Document.load at loaded
  split at loaded
  · exact standing.reload loaded
  · dsimp only at loaded
    split at loaded
    · cases loaded
      exact Standing.build standing.follows.recording standing.follows.present standing.serves path tree 0
    · cases loaded

theorem close (standing : d.Standing) {path : String} (closed : d.close path = .ok d') : d'.Standing := by
  unfold Document.close at closed
  split at closed
  · cases closed
  · rename_i root found
    cases closed
    rw [id_of_node found]
    have edited := Edited.of_remove { d with history := d.history.pause } (File.rootId path)
    have planted := planted_remove (d := { d with history := d.history.pause }) standing.follows.present (File.rootId path)
    have served := serves_edited (d := { d with history := d.history.pause }) standing.serves edited
    have anew : d.history.pause.paused = 1 := by simp [History.pause, standing.follows.recording]
    have history := edited.paused (by simp [History.pause])
    exact ⟨Follows.cleared anew (congrArg (fun h => h.resume.clear) history) planted, served⟩

theorem insertBefore (standing : d.Standing) {id : String} {parent : Handle} (found : d.node id = .ok parent) (nodes : List String)
    (next : Option String) : (d.insertBefore parent (d.handles nodes) next).2.Standing := by
  have own : d.node parent.id = .ok parent := by rwa [id_of_node found]
  exact standing.edited (d.edited_insertBefore parent _ next) (planted_insertBefore standing.planted standing.serves own node_of_handles next)

theorem delete (standing : d.Standing) (id : String) : (d.delete id).2.Standing := by
  unfold Document.delete
  split
  · exact standing.edited (.of_remove d id) (planted_remove standing.follows.present id)
  · exact standing

theorem update (standing : d.Standing) (id : String) {f : Record → Record} (places : ∀ r, (f r).parent = r.parent ∧ (f r).order = r.order) :
    (d.update id f).Standing :=
  standing.edited (.of_update d id f) (planted_update standing.follows.present id places)

theorem apply (standing : d.Standing) (a : Act) : (a.apply d).Standing := by
  cases a with
  | load path tree =>
    rw [Act.apply]
    split
    · rename_i loaded
      exact standing.load loaded
    · exact standing
  | reload path tree =>
    rw [Act.apply]
    split
    · rename_i loaded
      exact standing.reload loaded
    · exact standing
  | close path =>
    rw [Act.apply]
    split
    · rename_i closed
      exact standing.close closed
    · exact standing
  | insertBefore parent nodes next =>
    rw [Act.apply]
    split
    · rename_i found
      exact standing.insertBefore found nodes next
    · exact standing
  | append parent nodes =>
    rw [Act.apply]
    split
    · rename_i found
      exact standing.insertBefore found nodes none
    · exact standing
  | delete id =>
    rw [Act.apply]
    split
    · exact standing.delete _
    · exact standing
  | setClass id className =>
    rw [Act.apply]
    split
    · unfold Document.setClass
      split
      · exact standing.update _ fun _ => ⟨rfl, rfl⟩
      · exact standing
    · exact standing
  | setText id text =>
    rw [Act.apply]
    split
    · unfold Document.setText
      split
      · exact standing.update _ fun _ => ⟨rfl, rfl⟩
      · exact standing
    · exact standing
  | undo => exact ⟨standing.follows.undo, serves_undo standing.serves⟩
  | redo => exact ⟨standing.follows.redo, serves_redo standing.serves⟩

theorem at_time (standing : d.Standing) (time : Nat) : ({ d with now := time } : Document).Standing := ⟨standing.follows, standing.serves⟩

theorem perform (standing : d.Standing) (acts : List (Nat × Act)) : (d.perform acts).Standing := by
  unfold Document.perform
  induction acts generalizing d with
  | nil => exact standing
  | cons a acts ih => exact ih ((standing.at_time a.1).apply a.2)

theorem new (classAttribute : String) (undoWindow maxLevels : Nat) : (Document.new classAttribute undoWindow maxLevels).Standing := by
  refine ⟨⟨_, History.records_start _ rfl rfl rfl rfl, rfl, Timeline.always_start planted_nothing⟩, ?_⟩
  exact Instances.serves_ofStore Store.empty 0

end Standing

-- The document stays a forest: every parent that a record names is there, no entry stands above itself, and all walks,
-- up to the root as well as down from an entry, come to their end by themselves.
theorem document_stays_forest (classAttribute : String) (undoWindow maxLevels : Nat) (acts : List (Nat × Act)) :
    let s := ((Document.new classAttribute undoWindow maxLevels).perform acts).store
    (∀ id r parent, s.get? id = some r → r.parent = some parent → (s.get? parent).isSome = true) ∧
      (∀ id, ¬ Relation.TransGen (Store.Names s.get?) id id) ∧
      WellFounded (Store.Names s.get?) ∧ WellFounded (fun child parent => Store.Names s.get? parent child) ∧
      (∀ id, s.ancestors id = match s.parent? id with
        | some parent => parent :: s.ancestors parent
        | none => []) ∧
      (∀ id, s.parent? (s.root id) = none) ∧
      ∀ id, s.trees id = (s.children id).filterMap fun child => (s.get? child).map fun record => .mk child record (s.trees child) := by
  intro s
  have wooded : Store.Wooded s.get? := ((Standing.new classAttribute undoWindow maxLevels).perform acts).planted.toWooded
  refine ⟨?_, wooded.acyclic, wooded.wellFounded, Store.wellFounded_children wooded, Store.ancestors_eq wooded, Store.parent?_root wooded,
    Store.trees_eq wooded⟩
  intro id r parent found named
  exact Option.isSome_iff_exists.mpr (wooded.above ⟨r, found, named⟩).live

-- A move is a list insertion, in every document that a run leads to and at any time.
theorem moves_refine_insertion (classAttribute : String) (undoWindow maxLevels time : Nat) (acts : List (Nat × Act)) (parent : Handle)
    (nodes : List Handle) (next : Option String) :
    let d := { (Document.new classAttribute undoWindow maxLevels).perform acts with now := time }
    d.node parent.id = .ok parent → (∀ h ∈ nodes, d.node h.id = .ok h) →
      let moved := nodes.filter fun h => d.mayMove parent.id h.id
      let after := (d.insertBefore parent nodes next).2
      (d.insertBefore parent nodes next).1 = moved ∧
        after.store.children parent.id = insertedBefore (d.store.children parent.id) (moved.map Handle.id) next ∧
        (∀ p, p ≠ parent.id → after.store.children p = (d.store.children p).filter (· ∉ moved.map Handle.id)) ∧
        ∀ id, id ∉ moved.map Handle.id → after.store.get? id = d.store.get? id := by
  intro d found resolved moved after
  have standing : d.Standing := ((Standing.new classAttribute undoWindow maxLevels).perform acts).at_time time
  obtain ⟨_, _, _, returned, _⟩ := insertBefore_eq standing.planted standing.serves found resolved next
  exact ⟨returned, insertBefore_children standing.planted standing.serves found resolved next⟩

-- A node in a file of three, listed twice, after a move that was undone.
def movingActs (tree : SourceTree) : List (Nat × Act) :=
  [(0, .load "a" tree), (1, .append (File.nodeId "a" 0 2) [File.nodeId "a" 0 3]), (2, .undo)]

theorem moves_refine_insertion_twice :
    ∃ tree, (parse "f(<p><a/><b/><i/></p>)").toOption = some tree ∧
      let d := { (Document.new "className" 1000 100).perform (movingActs tree) with now := 3 }
      let parent : Handle := ⟨File.nodeId "a" 0 2, 3⟩
      let nodes : List Handle := [⟨File.nodeId "a" 0 4, 5⟩, ⟨File.nodeId "a" 0 3, 4⟩, ⟨File.nodeId "a" 0 4, 5⟩]
      d.node parent.id = .ok parent ∧ (∀ h ∈ nodes, d.node h.id = .ok h) ∧
        (d.insertBefore parent nodes none).2.store.children parent.id =
          insertedBefore (d.store.children parent.id) ((nodes.filter fun h => d.mayMove parent.id h.id).map Handle.id) none := by
  have ran : ((parse "f(<p><a/><b/><i/></p>)").toOption.map fun tree =>
      [2, 3, 4].map fun k => ((Document.new "className" 1000 100).perform (movingActs tree)).handle? (File.nodeId "a" 0 k)) =
        some [some ⟨File.nodeId "a" 0 2, 3⟩, some ⟨File.nodeId "a" 0 3, 4⟩, some ⟨File.nodeId "a" 0 4, 5⟩] := by
    decide +kernel
  obtain ⟨tree, parsed, handles⟩ := Option.map_eq_some_iff.mp ran
  simp only [List.map_cons, List.map_nil, List.cons.injEq, and_true] at handles
  obtain ⟨parent, first, second⟩ := handles
  have isOk : ∀ {d : Document} {h : Handle}, d.handle? h.id = some h → ({ d with now := 3 } : Document).node h.id = .ok h := by
    intro d h held
    have same : ({ d with now := 3 } : Document).handle? h.id = some h := held
    rw [node, same]
  have resolved : ∀ h ∈ [(⟨File.nodeId "a" 0 4, 5⟩ : Handle), ⟨File.nodeId "a" 0 3, 4⟩, ⟨File.nodeId "a" 0 4, 5⟩],
      ({ (Document.new "className" 1000 100).perform (movingActs tree) with now := 3 } : Document).node h.id = .ok h := by
    intro h member
    apply isOk
    rcases List.mem_cons.mp member with rfl | member
    · exact second
    · rcases List.mem_cons.mp member with rfl | member
      · exact first
      · rw [List.mem_singleton.mp member]
        exact second
  have found := @isOk _ ⟨File.nodeId "a" 0 2, 3⟩ parent
  exact ⟨tree, parsed, found, resolved, (moves_refine_insertion "className" 1000 100 3 (movingActs tree) _ _ none found resolved).2.1⟩

end Document

end MarkupEditor
