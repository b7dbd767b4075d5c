import MarkupEditor.Document.Loading
import MarkupEditor.Proofs.Document.Drafts
import MarkupEditor.Proofs.Document.Orderly

namespace MarkupEditor

namespace File

theorem rootId_injective {path path' : String} (same : rootId path = rootId path') : path = path' := by
  have lists := congrArg String.toList same
  simp only [rootId, String.toList_append, List.append_cancel_left_eq] at lists
  exact String.toList_injective lists

theorem find?_cons (f : File) (files : List File) (path : String) :
    find? (f :: files) path = if path = f.path then some f else find? files path := by
  by_cases here : f.path = path
  · simp [find?, here]
  · simp [find?, here, Ne.symm here]

theorem find?_put (f : File) (files : List File) (path : String) :
    find? (put f files) path = if path = f.path then some f else find? files path := by
  induction files with
  | nil => exact find?_cons f [] path
  | cons g rest ih =>
    rw [put]
    split
    · rename_i same
      rw [find?_cons, find?_cons, same]
      by_cases here : path = f.path <;> simp [here]
    · rename_i other
      rw [find?_cons, find?_cons, ih]
      by_cases here : path = f.path
      · simp [here, Ne.symm other]
      · simp [here]

theorem find?_filter {path path' : String} (elsewhere : path' ≠ path) (files : List File) :
    find? (files.filter (·.path ≠ path)) path' = find? files path' := by
  unfold find?
  rw [List.find?_filter]
  congr 1
  funext g
  by_cases here : g.path = path'
  · simp [here, elsewhere]
  · simp [here]

theorem mem_put {f g : File} {files : List File} (member : g ∈ put f files) : g = f ∨ g ∈ files := by
  induction files with
  | nil => exact .inl (List.mem_singleton.mp member)
  | cons h rest ih =>
    rw [put] at member
    split at member
    · exact (List.mem_cons.mp member).imp_right (List.mem_cons_of_mem _)
    · rcases List.mem_cons.mp member with rfl | member
      · exact .inr List.mem_cons_self
      · exact (ih member).imp_right (List.mem_cons_of_mem _)

theorem not_mem_toDigitsCore {c : Char} (other : ∀ k < 16, c ≠ Nat.digitChar k) (fuel n : Nat) (ds : List Char) (absent : c ∉ ds) :
    c ∉ Nat.toDigitsCore 16 fuel n ds := by
  induction fuel generalizing n ds with
  | zero => exact absent
  | succ fuel ih =>
    have more : c ∉ Nat.digitChar (n % 16) :: ds := by
      simp only [List.mem_cons, not_or]
      exact ⟨other _ (Nat.mod_lt _ (by omega)), absent⟩
    rw [Nat.toDigitsCore]
    split
    · exact more
    · exact ih _ _ more

theorem not_mem_seed {c : Char} (other : ∀ k < 16, c ≠ Nat.digitChar k) (path : String) : c ∉ (seed path).toList := by
  rw [seed, Text.hexadecimal, String.toList_ofList]
  exact not_mem_toDigitsCore other _ _ [] (by simp)

theorem nodeId_ne_rootId (path path' : String) (generation count : Nat) : nodeId path generation count ≠ rootId path' := by
  have decimal : ∀ n, ':' ∉ (Text.decimal n).toList := by
    intro n member
    rw [Text.decimal, String.toList_ofList] at member
    exact absurd (Text.digits_isDigit n _ member) (by decide)
  have node : ':' ∉ (nodeId path generation count).toList := by
    have seed : ':' ∉ (seed path).toList := not_mem_seed (by decide) path
    simp [nodeId, seed, decimal]
  have root : ':' ∈ (rootId path').toList := by simp [rootId, Record.fileMark]
  exact fun same => node (same ▸ root)

end File

namespace Document

def rootRecord (d : Document) (path : String) (tree : SourceTree) : Record :=
  { origin := .file tree
    order := match d.store.get? (File.rootId path) with
      | some r => r.order
      | none => (d.store.appendKeys none 1).getLast? }

def rooted (d : Document) (path : String) (tree : SourceTree) : Document :=
  { d with history := d.history.pause }.write (File.rootId path) (some (d.rootRecord path tree))

def filled (d : Document) (entries : List (String × Record)) : Document := entries.foldl (fun d e => d.write e.1 (some e.2)) d

def drafts (d : Document) (path : String) (tree : SourceTree) (generation : Nat) : List (Tree Draft) :=
  Draft.ofTree (File.nodeId path generation) d.classAttribute tree

def placed (d : Document) (path : String) (tree : SourceTree) (generation : Nat) : Document :=
  (d.rooted path tree).filled (Draft.entriesUnder (d.rooted path tree).store (File.rootId path) ((d.rooted path tree).drafts path tree generation))

theorem edited_placed (d : Document) (path : String) (tree : SourceTree) (generation : Nat) :
    Edited { d with history := d.history.pause } (d.placed path tree generation) := by
  have first : Edited { d with history := d.history.pause } (d.rooted path tree) := .write .nothing _ _
  exact first.trans (.foldl (fun d (e : String × Record) => .write .nothing e.1 (some e.2)) _ _)

theorem build_frame (d : Document) (path : String) (tree : SourceTree) (generation : Nat) :
    (∃ numbering, (d.build path tree generation).files = File.put { path, tree, generation, numbering } d.files) ∧
      (d.build path tree generation).classAttribute = d.classAttribute ∧
      (d.build path tree generation).history = d.history.pause.resume.clear ∧
      (d.build path tree generation).contents = (d.placed path tree generation).contents := by
  have edited := d.edited_placed path tree generation
  refine ⟨⟨Draft.numbersAll ((d.rooted path tree).drafts path tree generation), ?_⟩, edited.classAttribute, ?_, rfl⟩
  · exact congrArg _ edited.files
  · exact congrArg (fun h => h.resume.clear) (edited.paused (by simp [History.pause]))

theorem serves_build {d : Document} (serves : d.instances.Serves d.store) (path : String) (tree : SourceTree) (generation : Nat) :
    (d.build path tree generation).instances.Serves (d.build path tree generation).store := by
  have served := serves_edited (d := { d with history := d.history.pause }) serves (d.edited_placed path tree generation)
  exact served

theorem filled_contents (d : Document) (entries : List (String × Record)) (key : String) :
    (key ∉ entries.map Prod.fst → (d.filled entries).contents () key = d.contents () key) ∧
      ∀ r, (d.filled entries).contents () key = some r → (key, r) ∈ entries ∨ d.contents () key = some r := by
  unfold filled
  induction entries generalizing d with
  | nil => exact ⟨fun _ => rfl, fun r found => .inr found⟩
  | cons e entries ih =>
    obtain ⟨outside, inside⟩ := ih (d.write e.1 (some e.2))
    rw [write_contents] at outside inside
    constructor
    · intro absent
      simp only [List.map_cons, List.mem_cons, not_or] at absent
      rw [List.foldl_cons, outside absent.2]
      simp [Contents.put, absent.1]
    · intro r found
      rcases inside r found with member | found
      · exact .inl (List.mem_cons_of_mem _ member)
      · by_cases here : key = e.1
        · obtain rfl : e.2 = r := by simpa [Contents.put, here] using found
          exact .inl (here ▸ List.mem_cons_self)
        · exact .inr (by simpa [Contents.put, here] using found)

end Document

def Bare (path : String) (m : Contents Unit Record) : Prop :=
  ∀ id r n, m () id = some r → r.node? = some n → n.kind = .other → r.parent ≠ some (File.rootId path)

-- Entries of a file that are made from its nodes, the statements under its root.
def Belongs (f : File) (e : String × Record) : Prop :=
  (∃ k, e.1 = File.nodeId f.path f.generation k) ∧ ∃ n ∈ f.tree.nodes, e.2.origin = .node n ∧
    (n.kind = .other → n ∈ f.tree.statements ∧ e.2.parent = some (File.rootId f.path))

theorem Belongs.root {f : File} {entries : List (String × Record)} (belong : ∀ e ∈ entries, Belongs f e) (path : String) :
    File.rootId path ∉ entries.map Prod.fst := by
  intro member
  obtain ⟨e, listed, id⟩ := List.mem_map.mp member
  obtain ⟨⟨k, named⟩, _⟩ := belong e listed
  exact File.nodeId_ne_rootId _ _ _ _ (named.symm.trans id)

theorem Orderly.load {Q : Node → Prop} {files : List File} {m m' : Contents Unit Record} {f : File} {root : Record}
    {entries : List (String × Record)} (orderly : Orderly Q files m) (bare : Bare f.path m) (isFile : root.isFile)
    (good : ∀ n ∈ f.tree.nodes, Q n) (belong : ∀ e ∈ entries, Belongs f e)
    (outside : ∀ id, id ∉ entries.map Prod.fst → m' () id = m.put () (File.rootId f.path) (some root) () id)
    (inside : ∀ id r, m' () id = some r → (id, r) ∈ entries ∨ m.put () (File.rootId f.path) (some root) () id = some r) :
    Orderly Q (File.put f files) m' := by
  have roots := Belongs.root belong
  have none : root.node? = none := by simpa [Record.isFile] using isFile
  have before : ∀ id r n, m' () id = some r → r.node? = some n → (id, r) ∈ entries ∨ m () id = some r := by
    intro id r n held node
    rcases inside id r held with member | held
    · exact .inl member
    · by_cases here : id = File.rootId f.path
      · obtain rfl : root = r := by simpa [Contents.put, here] using held
        simp [none] at node
      · exact .inr (by simpa [Contents.put, here] using held)
  constructor
  · intro id r n held node
    rcases before id r n held node with member | held
    · obtain ⟨_, m, listed, origin, _⟩ := belong _ member
      obtain rfl : m = n := by simpa [Record.node?, show r.origin = .node m from origin] using node
      exact good m listed
    · exact orderly.origins id r n held node
  · intro id r n held node other
    rcases before id r n held node with member | held
    · obtain ⟨_, m, _, origin, statement⟩ := belong _ member
      obtain rfl : m = n := by simpa [Record.node?, show r.origin = .node m from origin] using node
      obtain ⟨listed, parent⟩ := statement other
      exact ⟨f.path, f, root, by rw [File.find?_put, if_pos rfl], listed, parent, by simp [outside _ (roots f.path), Contents.put], isFile⟩
    · obtain ⟨path, g, above, loaded, listed, parent, live, aboveFile⟩ := orderly.statements id r n held node other
      have elsewhere : path ≠ f.path := by
        rintro rfl
        exact bare id r n held node other parent
      have apart : File.rootId path ≠ File.rootId f.path := fun same => elsewhere (File.rootId_injective same)
      refine ⟨path, g, above, by rw [File.find?_put, if_neg elsewhere]; exact loaded, listed, parent, ?_, aboveFile⟩
      rw [outside _ (roots path)]
      simpa [Contents.put, apart] using live

namespace Document

variable {Q : Node → Prop}

theorem orderly_build {d : Document} (orderly : Orderly Q d.files d.contents) {path : String} (bare : Bare path d.contents)
    {tree : SourceTree} (good : ∀ n ∈ tree.nodes, Q n) (generation : Nat) :
    Orderly Q (d.build path tree generation).files (d.build path tree generation).contents := by
  obtain ⟨⟨numbering, files⟩, _, _, contents⟩ := d.build_frame path tree generation
  have rooted : (d.rooted path tree).contents = d.contents.put () (File.rootId path) (some (d.rootRecord path tree)) := write_contents ..
  have filled := (d.rooted path tree).filled_contents
    (Draft.entriesUnder (d.rooted path tree).store (File.rootId path) ((d.rooted path tree).drafts path tree generation))
  rw [rooted] at filled
  rw [files, contents]
  refine orderly.load bare rfl good ?_ (fun id => (filled id).1) fun id => (filled id).2
  exact fun e member => Draft.mem_entriesUnder _ _ _ member

theorem follows_build {d : Document} (recording : d.history.paused = 0) (orderly : Orderly Q d.files d.contents) {path : String}
    (bare : Bare path d.contents) {tree : SourceTree} (good : ∀ n ∈ tree.nodes, Q n) (generation : Nat) :
    (d.build path tree generation).Follows (Orderly Q (d.build path tree generation).files) := by
  have anew : d.history.pause.paused = 1 := by simp [History.pause, recording]
  exact Follows.cleared anew (d.build_frame path tree generation).2.2.1 (orderly_build orderly bare good generation)

-- The documents differ in what is selected and expanded only.
structure Viewed (d d' : Document) : Prop where
  store : d'.store = d.store
  instances : d'.instances = d.instances
  history : d'.history = d.history
  files : d'.files = d.files
  classAttribute : d'.classAttribute = d.classAttribute

theorem Viewed.trans {d d' d'' : Document} (first : Viewed d d') (second : Viewed d' d'') : Viewed d d'' :=
  ⟨second.store.trans first.store, second.instances.trans first.instances, second.history.trans first.history, second.files.trans first.files,
    second.classAttribute.trans first.classAttribute⟩

theorem Viewed.foldl {β : Type} {step : Document → β → Document} (each : ∀ d b, Viewed d (step d b)) (bs : List β) (d : Document) :
    Viewed d (bs.foldl step d) := by
  induction bs generalizing d with
  | nil => exact ⟨rfl, rfl, rfl, rfl, rfl⟩
  | cons b bs ih => exact (each d b).trans (ih (step d b))

theorem viewed_setExpanded (d : Document) (h : Handle) (value : Bool) : Viewed d (d.setExpanded h value) := by
  unfold setExpanded
  split
  · split <;> exact ⟨rfl, rfl, rfl, rfl, rfl⟩
  · exact ⟨rfl, rfl, rfl, rfl, rfl⟩

theorem Follows.viewed {P : Contents Unit Record → Prop} {d d' : Document} (follows : Follows P d) (viewed : Viewed d d') : Follows P d' := by
  obtain ⟨t, records, current, always⟩ := follows
  have same : d'.contents = d.contents := congrArg (fun s _ => Store.get? s) viewed.store
  exact ⟨t, viewed.history ▸ records, current.trans same.symm, always⟩

theorem handle?_eq_some {d : Document} {id : String} {h : Handle} : d.handle? id = some h ↔ h.id = id ∧ d.instances.get? id = some h.serial := by
  rw [handle?, Option.map_eq_some_iff]
  constructor
  · intro found
    obtain ⟨serial, held, rfl⟩ := found
    exact ⟨rfl, held⟩
  · intro both
    obtain ⟨rfl, held⟩ := both
    exact ⟨h.serial, held, rfl⟩

theorem handle?_of_live {d : Document} (serves : d.instances.Serves d.store) {id : String} {r : Record} (live : d.store.get? id = some r) :
    ∃ h, d.handle? id = some h := by
  apply Option.isSome_iff_exists.mp
  rw [handle?, Option.isSome_map, serves.live, live]
  rfl

theorem id_of_node {d : Document} {id : String} {h : Handle} (found : d.node id = .ok h) : h.id = id := by
  unfold node at found
  split at found
  · rename_i held
    obtain rfl := Except.ok.inj found
    exact (handle?_eq_some.mp held).1
  · cases found

theorem bare_of_unloaded {d : Document} (orderly : Orderly Q d.files d.contents) {path : String} (unloaded : d.file? path = none) :
    Bare path d.contents := by
  intro id r n found node other parent
  obtain ⟨path', f, _, loaded, _, parent', _⟩ := orderly.statements id r n found node other
  obtain rfl := File.rootId_injective (Option.some.inj (parent.symm.trans parent'))
  cases unloaded.symm.trans loaded

def emptied (d : Document) (path : String) : Document :=
  let cleared := { d with history := d.history.pause }.removeBelow (File.rootId path)
  { cleared with history := cleared.history.resume }

theorem emptied_frame (d : Document) (path : String) :
    (d.emptied path).files = d.files ∧ (d.emptied path).classAttribute = d.classAttribute ∧ (d.emptied path).history = d.history := by
  have edited := Edited.of_removeBelow { d with history := d.history.pause } (File.rootId path)
  refine ⟨edited.files, edited.classAttribute, ?_⟩
  exact congrArg History.resume (edited.paused (by simp [History.pause]))

theorem emptied_get? (d : Document) (path id : String) (r : Record) :
    (d.emptied path).store.get? id = some r ↔ d.store.get? id = some r ∧ ¬ d.store.Below (File.rootId path) id :=
  removeBelow_contents { d with history := d.history.pause } (File.rootId path) id r

theorem serves_emptied {d : Document} (serves : d.instances.Serves d.store) (path : String) :
    (d.emptied path).instances.Serves (d.emptied path).store := by
  have removed := serves_edited (d := { d with history := d.history.pause }) serves (Edited.of_removeBelow _ (File.rootId path))
  exact removed

theorem bare_emptied (d : Document) (path : String) : Bare path (d.emptied path).contents := by
  intro id r n found node other parent
  obtain ⟨held, above⟩ := (d.emptied_get? path id r).mp found
  exact above (Store.below_self held (by simp [Store.parentId, Placed.parent, parent]))

theorem reload_eq {d d' : Document} {path : String} {tree : SourceTree} {root : Handle} (loaded : d.reload path tree = .ok (root, d')) :
    ∃ f, d.file? path = some f ∧ Viewed ((d.emptied path).build path tree (f.generation + 1)) d' := by
  unfold reload at loaded
  split at loaded
  · cases loaded
  · rename_i f found
    split at loaded
    · cases loaded
    · rename_i root' held
      obtain ⟨_, rfl⟩ := Prod.mk.inj (Except.ok.inj loaded)
      rw [id_of_node held]
      refine ⟨f, found, Viewed.trans (Viewed.foldl ?_ _ _) (Viewed.foldl (fun d h => viewed_setExpanded d h true) _ _)⟩
      intro d place
      split <;> exact ⟨rfl, rfl, rfl, rfl, rfl⟩

theorem follows_new (classAttribute : String) (undoWindow maxLevels : Nat) :
    (new classAttribute undoWindow maxLevels).Follows (Orderly Q (new classAttribute undoWindow maxLevels).files) := by
  refine ⟨_, History.records_start _ rfl rfl rfl rfl, rfl, Timeline.always_start ?_⟩
  constructor <;> (intro id r n found; cases found)

theorem follows_load {d d' : Document} (follows : d.Follows (Orderly Q d.files)) {path : String} {tree : SourceTree} {root : Handle}
    (good : ∀ n ∈ tree.nodes, Q n) (loaded : d.load path tree = .ok (root, d')) :
    d'.Follows (Orderly Q d'.files) ∧ d'.classAttribute = d.classAttribute ∧
      ∃ f : File, f.path = path ∧ f.tree = tree ∧ d'.files = File.put f d.files := by
  unfold load at loaded
  split at loaded
  · obtain ⟨f, _, viewed⟩ := reload_eq loaded
    obtain ⟨files, classes, history⟩ := d.emptied_frame path
    obtain ⟨⟨numbering, put⟩, same, _⟩ := (d.emptied path).build_frame path tree (f.generation + 1)
    have orderly : Orderly Q (d.emptied path).files (d.emptied path).contents :=
      files ▸ orderly_removeBelow (d := { d with history := d.history.pause }) follows.present _
    have built := follows_build (history ▸ follows.recording) orderly (bare_emptied d path) good (f.generation + 1)
    refine ⟨viewed.files ▸ built.viewed viewed, viewed.classAttribute.trans (same.trans classes), ⟨path, tree, f.generation + 1, numbering⟩, rfl, rfl, ?_⟩
    rw [viewed.files, put, files]
  · rename_i unloaded
    have absent : d.file? path = none := by simpa [isLoaded] using unloaded
    dsimp only at loaded
    split at loaded
    · cases loaded
      obtain ⟨⟨numbering, put⟩, same, _⟩ := d.build_frame path tree 0
      have built := follows_build follows.recording follows.present (bare_of_unloaded follows.present absent) good 0
      exact ⟨built, same, ⟨path, tree, 0, numbering⟩, rfl, rfl, put⟩
    · cases loaded

theorem follows_close {d d' : Document} (follows : d.Follows (Orderly Q d.files)) {path : String} (closed : d.close path = .ok d') :
    d'.Follows (Orderly Q d'.files) ∧ d'.classAttribute = d.classAttribute ∧ d'.files = d.files.filter (·.path ≠ path) := by
  unfold close at closed
  split at closed
  · cases closed
  · rename_i root found
    cases closed
    rw [id_of_node found]
    have edited := Edited.of_remove { d with history := d.history.pause } (File.rootId path)
    have history := edited.paused (by simp [History.pause])
    have removed := remove_contents { d with history := d.history.pause } (File.rootId path)
    have orderly := orderly_remove (d := { d with history := d.history.pause }) follows.present (File.rootId path)
    refine ⟨Follows.cleared (h := d.history.pause) (by simp [History.pause, follows.recording]) ?_ ?_, edited.classAttribute, ?_⟩
    · exact congrArg (fun h => h.resume.clear) history
    · refine ⟨orderly.origins, fun id r n held node other => ?_⟩
      obtain ⟨path', f, above, loaded, listed, parent, live, isFile⟩ := orderly.statements id r n held node other
      refine ⟨path', f, above, ?_, listed, parent, live, isFile⟩
      have elsewhere : path' ≠ path := by
        rintro rfl
        exact ((removed _ above).mp live).2 (.inl rfl)
      exact (congrArg (File.find? · path') (congrArg _ edited.files)).trans ((File.find?_filter elsewhere d.files).trans loaded)
    · exact congrArg _ edited.files

end Document

end MarkupEditor
