import MarkupEditor.Proofs.Document.Touching

namespace MarkupEditor

namespace File

theorem paths_put (f : File) (files : List File) :
    (put f files).map path = if f.path ∈ files.map path then files.map path else files.map path ++ [f.path] := by
  induction files with
  | nil => rfl
  | cons g rest ih =>
    rw [put]
    split
    · rename_i same
      simp [same]
    · rename_i other
      rw [List.map_cons, List.map_cons, ih]
      by_cases member : f.path ∈ rest.map path
      · rw [if_pos member, if_pos (List.mem_cons_of_mem _ member)]
      · rw [if_neg member, if_neg (fun listed => (List.mem_cons.mp listed).elim (fun same => other same.symm) member)]
        rfl

theorem mem_paths_put (f : File) (files : List File) (other : String) :
    other ∈ (put f files).map path ↔ other = f.path ∨ other ∈ files.map path := by
  rw [paths_put]
  split
  · rename_i member
    exact ⟨.inr, fun either => either.elim (fun same => same ▸ member) id⟩
  · rw [List.mem_append, List.mem_singleton, or_comm]

theorem mem_paths_filter (files : List File) (closed other : String) :
    other ∈ (files.filter (·.path ≠ closed)).map path ↔ other ∈ files.map path ∧ other ≠ closed := by
  simp only [List.mem_map, List.mem_filter, decide_eq_true_eq]
  constructor
  · rintro ⟨f, ⟨open_, differs⟩, rfl⟩
    exact ⟨⟨f, open_, rfl⟩, differs⟩
  · rintro ⟨⟨f, open_, rfl⟩, differs⟩
    exact ⟨f, ⟨open_, differs⟩, rfl⟩

theorem find?_isSome (files : List File) (path : String) : (find? files path).isSome = true ↔ path ∈ files.map File.path := by
  unfold find?
  rw [List.find?_isSome]
  simp

end File

namespace Document

variable {d d' : Document} {path : String} {tree : SourceTree} {generation : Nat}

theorem isLoaded_iff : d.isLoaded path = true ↔ path ∈ d.files.map File.path := File.find?_isSome d.files path

theorem modifiedTree_congr (classes : d'.classAttribute = d.classAttribute) (source : (d'.file? path).map File.tree = (d.file? path).map File.tree)
    (trees : d'.store.trees (File.rootId path) = d.store.trees (File.rootId path)) : d'.modifiedTree path = d.modifiedTree path := by
  unfold modifiedTree
  rw [classes, trees]
  cases found : d.file? path with
  | none =>
    rw [found] at source
    rw [Option.map_eq_none_iff.mp source]
  | some f =>
    rw [found] at source
    obtain ⟨g, held, same⟩ := Option.map_eq_some_iff.mp source
    rw [held]
    simp only [same]

theorem homed_fileTree {u : Tree Record} (within : (d.fileTree path tree generation).Within u) : File.Homed path u.id := by
  obtain ⟨numbers, _, ids⟩ := @ids_fileTree d path tree generation
  have listed := within.id_mem
  rw [ids] at listed
  rcases List.mem_cons.mp listed with same | member
  · exact .inl same
  · obtain ⟨k, _, same⟩ := List.mem_map.mp member
    exact .inr ⟨generation, k, same.symm⟩

theorem build_elsewhere {id : String} (elsewhere : ¬ File.Homed path id) :
    (d.build path tree generation).store.get? id = d.store.get? id := by
  have absent : id ∉ (d.fileTree path tree generation).pairs.map Prod.fst := by
    intro member
    obtain ⟨e, listed, rfl⟩ := List.mem_map.mp member
    obtain ⟨u, within, rfl⟩ := Tree.mem_pairs.mp listed
    exact elsewhere (homed_fileTree within)
  apply Option.ext
  intro r
  refine (build_contents path tree generation id r).trans ⟨?_, fun held => .inr ⟨absent, held⟩⟩
  rintro (member | ⟨_, held⟩)
  · exact absurd (List.mem_map_of_mem member) absent
  · exact held

theorem housed_build {paths paths' : List String} (planted : Planted (d.contents ())) (housed : Housed paths (d.contents ())) (tree : SourceTree)
    (generation : Nat) (more : ∀ other ∈ paths, other ∈ paths') (here : path ∈ paths') : Housed paths' ((d.build path tree generation).contents ()) := by
  have grafted := grafted_build planted path tree generation
  intro id r held
  rcases (grafted.rest id r).mp held with member | ⟨_, before⟩
  · obtain ⟨u, within, same⟩ := Tree.mem_pairs.mp member
    obtain ⟨rfl, rfl⟩ := Prod.mk.inj same
    refine ⟨path, here, homed_fileTree within, fun parent named => ?_, fun orphan => ?_⟩
    · rcases within.parent with rfl | ⟨v, above, child⟩
      · cases grafted.orphan.symm.trans named
      · obtain rfl := Option.some.inj ((grafted.under v above u child).1.symm.trans named)
        exact homed_fileTree above
    · rcases within.parent with rfl | ⟨v, above, child⟩
      · exact ⟨rfl, rfl⟩
      · cases orphan.symm.trans (grafted.under v above u child).1
  · obtain ⟨other, member, lodged⟩ := housed id r before
    exact ⟨other, more other member, lodged⟩

theorem close_frame (closed : d.close path = .ok d') :
    (∃ h, d.node (File.rootId path) = .ok h) ∧ d'.files = d.files.filter (·.path ≠ path) ∧ d'.classAttribute = d.classAttribute ∧
      d'.history = d.history.pause.resume.clear ∧ ∀ id r, d'.store.get? id = some r ↔
        d.store.get? id = some r ∧ ¬ (id = File.rootId path ∨ d.store.Below (File.rootId path) id) := by
  unfold close at closed
  split at closed
  · cases closed
  · rename_i h found
    have edited := Edited.of_remove { d with history := d.history.pause } h.id
    have history := edited.paused (by simp [History.pause])
    have rest := ({ d with history := d.history.pause } : Document).remove_contents h.id
    rw [id_of_node found] at edited history rest
    obtain rfl := Except.ok.inj closed
    rw [id_of_node found]
    exact ⟨⟨h, found⟩, congrArg _ edited.files, edited.classAttribute, congrArg (fun h => h.resume.clear) history, rest⟩

theorem root_below {s : Store Record} (wooded : Store.Wooded s.get?) {top id : String} (above : Relation.ReflTransGen (Store.Names s.get?) top id) :
    s.root id = s.root top := by
  induction above with
  | refl => rfl
  | tail _ names ih => exact (Store.root_child wooded names).trans ih

theorem below_of_sheltered {get : String → Option Record} {id : String} (sheltered : Sheltered path get id) :
    Relation.ReflTransGen (Store.Names get) (File.rootId path) id := by
  induction sheltered with
  | root => exact .refl
  | under _ found named _ ih => exact ih.tail ⟨_, found, named⟩

-- Every open file but one was open before and has the form that it had.
def Spares (path : String) (d d' : Document) : Prop :=
  ∀ other ∈ d'.files.map File.path, other = path ∨ other ∈ d.files.map File.path ∧ d'.modifiedTree other = d.modifiedTree other

theorem renumber_frame (done : d.renumber path = .ok d') : (∃ files, d' = { d with files }) ∧ d'.files.map File.path = d.files.map File.path ∧
    ∀ other, d'.modifiedTree other = d.modifiedTree other := by
  unfold renumber at done
  split at done
  · cases done
  · split at done
    · cases done
    · cases done
    · rename_i f _ found
      obtain rfl := Except.ok.inj done
      have here : f.path = path := by simpa using List.find?_some found
      refine ⟨⟨_, rfl⟩, ?_, fun other => modifiedTree_congr rfl ?_ rfl⟩
      · rw [File.paths_put, if_pos (List.mem_map_of_mem (List.mem_of_find?_eq_some found))]
      · rw [file?, File.find?_put]
        split
        · rename_i same
          have held : d.file? other = some f := by rw [same, here, found]
          rw [held]
          rfl
        · rfl

structure WellKept (d : Document) : Prop where
  standing : d.Standing
  housed : d.Follows fun m => Housed (d.files.map File.path) (m ())
  differ : File.SeedsDiffer (d.files.map File.path)

namespace WellKept

theorem wooded (kept : d.WellKept) : Store.Wooded d.store.get? := kept.standing.planted.toWooded

theorem gathered (kept : d.WellKept) {path : String} (loaded : path ∈ d.files.map File.path) : Gathered path d.store.get? :=
  kept.housed.present.gathered kept.differ kept.wooded loaded

theorem apart (kept : d.WellKept) {path other id : String} {r : Record} (loaded : path ∈ d.files.map File.path) (loaded' : other ∈ d.files.map File.path)
    (differs : other ≠ path) (homed : File.Homed other id) (found : d.store.get? id = some r) :
    ¬ Relation.ReflTransGen (Store.Names d.store.get?) (File.rootId path) id := by
  intro above
  have own := (kept.gathered loaded' id r homed found).root_eq
  have live : ∃ q, d.store.get? (File.rootId path) = some q := by
    rcases Relation.ReflTransGen.cases_head above with rfl | ⟨_, names, _⟩
    · exact ⟨r, found⟩
    · exact (kept.wooded.above names).live
  obtain ⟨q, root⟩ := live
  have top := (kept.gathered loaded (File.rootId path) q (.inl rfl) root).root_eq
  rw [root_below kept.wooded above, top] at own
  exact differs (File.rootId_injective own).symm

theorem viewed (kept : d.WellKept) (viewed : Viewed d d') : d'.WellKept := by
  refine ⟨kept.standing.viewed viewed, ?_, ?_⟩
  · rw [viewed.files]
    exact kept.housed.viewed viewed
  · rw [viewed.files]
    exact kept.differ

theorem new (classAttribute : String) (undoWindow maxLevels : Nat) : (Document.new classAttribute undoWindow maxLevels).WellKept := by
  refine ⟨.new .., ⟨_, History.records_start _ rfl rfl rfl rfl, rfl, Timeline.always_start ?_⟩, ?_⟩
  · intro id r held
    cases held
  · intro path member
    cases member

end WellKept

theorem wellKept_build (recording : d.history.paused = 0) (planted : Planted (d.contents ())) (serves : d.instances.Serves d.store)
    (housed : Housed (d.files.map File.path) (d.contents ())) (differ : File.SeedsDiffer (path :: d.files.map File.path)) (tree : SourceTree)
    (generation : Nat) : (d.build path tree generation).WellKept ∧ Spares path d (d.build path tree generation) := by
  obtain ⟨⟨numbering, files⟩, classes, history, _⟩ := d.build_frame path tree generation
  have standing := Standing.build recording planted serves path tree generation
  have anew : d.history.pause.paused = 1 := by simp [History.pause, recording]
  have listed : ∀ other, other ∈ (d.build path tree generation).files.map File.path ↔ other = path ∨ other ∈ d.files.map File.path := by
    rw [files]
    exact File.mem_paths_put _ d.files
  have housed' := housed_build planted housed tree generation (fun other member => (listed other).mpr (.inr member))
    ((listed path).mpr (.inl rfl))
  have differ' : File.SeedsDiffer ((d.build path tree generation).files.map File.path) := fun one first two second =>
    differ one (List.mem_cons.mpr ((listed one).mp first)) two (List.mem_cons.mpr ((listed two).mp second))
  refine ⟨⟨standing, Follows.cleared anew history housed', differ'⟩, fun other member' => or_iff_not_imp_left.mpr fun differs => ?_⟩
  have member := ((listed other).mp member').resolve_left differs
  refine ⟨member, ?_⟩
  have before : File.SeedsDiffer (d.files.map File.path) := fun one first two second =>
    differ one (List.mem_cons_of_mem _ first) two (List.mem_cons_of_mem _ second)
  apply modifiedTree_congr classes
  · rw [file?, files, File.find?_put, if_neg differs]
    rfl
  · apply trees_kept housed housed' before differ' planted.toWooded standing.planted.toWooded member member'
    intro id homed
    apply build_elsewhere
    exact fun here => differs (homed.unique here (differ other (List.mem_cons_of_mem _ member) path List.mem_cons_self))

namespace WellKept

theorem load (kept : d.WellKept) {root : Handle} (closed : d.isLoaded path = false) (differ : File.SeedsDiffer (path :: d.files.map File.path))
    (loaded : d.load path tree = .ok (root, d')) : d'.WellKept ∧ Spares path d d' := by
  unfold Document.load at loaded
  rw [if_neg (by rw [closed]; exact Bool.false_ne_true)] at loaded
  dsimp only at loaded
  split at loaded
  · cases loaded
    exact wellKept_build kept.standing.follows.recording kept.standing.planted kept.standing.serves kept.housed.present differ tree 0
  · cases loaded

theorem others (kept : d.WellKept) (loaded : path ∈ d.files.map File.path) {gone : String → Prop}
    (below : ∀ id, gone id → Relation.ReflTransGen (Store.Names d.store.get?) (File.rootId path) id)
    (rest : ∀ id r, d'.store.get? id = some r ↔ d.store.get? id = some r ∧ ¬ gone id) (wooded : Store.Wooded d'.store.get?)
    (classes : d'.classAttribute = d.classAttribute) {other : String} (member : other ∈ d.files.map File.path) (differs : other ≠ path)
    (source : d'.file? other = d.file? other) : d'.modifiedTree other = d.modifiedTree other := by
  have housed : Housed (d.files.map File.path) d'.store.get? := fun id r held => kept.housed.present id r ((rest id r).mp held).1
  apply modifiedTree_congr classes (congrArg _ source)
  apply trees_kept kept.housed.present housed kept.differ kept.differ kept.wooded wooded member member
  intro id homed
  apply Option.ext
  intro r
  rw [rest]
  exact and_iff_left_of_imp fun found away => kept.apart loaded member differs homed found (below id away)

theorem reload (kept : d.WellKept) {root : Handle} (loaded : d.reload path tree = .ok (root, d')) : d'.WellKept ∧ Spares path d d' := by
  obtain ⟨f, found, viewed⟩ := reload_eq loaded
  have member : path ∈ d.files.map File.path := by
    rw [← isLoaded_iff, isLoaded, found]
    rfl
  obtain ⟨files, classes, history⟩ := d.emptied_frame path
  have rest := d.emptied_get? path
  have planted := planted_emptied kept.standing.follows.present path
  have serves := serves_emptied kept.standing.serves path
  have housed : Housed ((d.emptied path).files.map File.path) ((d.emptied path).contents ()) := by
    rw [files]
    exact fun id r held => kept.housed.present id r ((rest id r).mp held).1
  have differ : File.SeedsDiffer (path :: (d.emptied path).files.map File.path) := by
    rw [files]
    intro one first two second
    exact kept.differ one ((List.mem_cons.mp first).elim (fun same => same ▸ member) id) two
      ((List.mem_cons.mp second).elim (fun same => same ▸ member) id)
  obtain ⟨built, others⟩ := wellKept_build (d := d.emptied path) (history ▸ kept.standing.follows.recording) planted serves housed differ tree
    (f.generation + 1)
  refine ⟨built.viewed viewed, fun other listed => or_iff_not_imp_left.mpr fun differs => ?_⟩
  obtain ⟨before, form⟩ := (others other (viewed.files ▸ listed)).resolve_left differs
  rw [files] at before
  have away : (d.emptied path).modifiedTree other = d.modifiedTree other := by
    refine kept.others member (fun id below => ?_) rest planted.toWooded classes before differs (by rw [file?, file?, files])
    exact ((Store.below_iff kept.wooded (File.rootId_ne_empty path)).mp below).to_reflTransGen
  rw [← away, ← form]
  exact ⟨before, modifiedTree_congr viewed.classAttribute (by rw [file?, file?, viewed.files]) (by rw [viewed.store])⟩

theorem loaded_of_root (kept : d.WellKept) {r : Record} (found : d.store.get? (File.rootId path) = some r) : path ∈ d.files.map File.path := by
  obtain ⟨path', member, lodged⟩ := kept.housed.present _ r found
  rcases lodged.homed with same | ⟨generation, count, same⟩
  · exact File.rootId_injective same ▸ member
  · exact absurd same.symm (File.nodeId_ne_rootId path' path generation count)

theorem close (kept : d.WellKept) (closed : d.close path = .ok d') : d'.WellKept ∧ Spares path d d' ∧ path ∉ d'.files.map File.path := by
  have standing := kept.standing.close closed
  obtain ⟨⟨h, root⟩, files, classes, history, rest⟩ := close_frame closed
  obtain ⟨q, live⟩ := live_of_node kept.standing.serves root
  have member := kept.loaded_of_root live
  have gone : ∀ id, id = File.rootId path ∨ d.store.Below (File.rootId path) id ↔
      Relation.ReflTransGen (Store.Names d.store.get?) (File.rootId path) id := by
    intro id
    rw [Relation.reflTransGen_iff_eq_or_transGen, Store.below_iff kept.wooded (File.rootId_ne_empty path)]
  have listed : ∀ other, other ∈ d'.files.map File.path ↔ other ∈ d.files.map File.path ∧ other ≠ path := by
    rw [files]
    exact File.mem_paths_filter d.files path
  have anew : d.history.pause.paused = 1 := by simp [History.pause, kept.standing.follows.recording]
  refine ⟨⟨standing, Follows.cleared anew history ?_, ?_⟩, ?_, fun still => ((listed path).mp still).2 rfl⟩
  · intro id r held
    obtain ⟨found, stays⟩ := (rest id r).mp held
    obtain ⟨path', member', lodged⟩ := kept.housed.present id r found
    refine ⟨path', (listed path').mpr ⟨member', ?_⟩, lodged⟩
    rintro rfl
    exact stays ((gone id).mpr (below_of_sheltered (kept.gathered member' id r lodged.homed found)))
  · exact fun one first two second => kept.differ one ((listed one).mp first).1 two ((listed two).mp second).1
  · intro other member'
    obtain ⟨member', differs⟩ := (listed other).mp member'
    refine .inr ⟨member', ?_⟩
    refine kept.others member (fun id => (gone id).mp) rest standing.planted.toWooded classes member' differs ?_
    rw [file?, file?, files, File.find?_filter differs]

theorem apply (kept : d.WellKept) {a : Act} (edits : a.isEdit = true) (inside : d.StaysInside a) :
    (a.apply d).WellKept ∧ (a.apply d).files = d.files ∧
      ∀ path ∈ d.files.map File.path, path ∈ (a.apply d).touched ∨ (a.apply d).modifiedTree path = d.modifiedTree path := by
  obtain ⟨files, classes⟩ := d.apply_frame edits
  refine ⟨⟨kept.standing.apply a, ?_, ?_⟩, files, fun path member => ?_⟩
  · rw [files]
    exact housed_apply kept.housed kept.differ kept.standing edits inside
  · rw [files]
    exact kept.differ
  · refine (touched_or_kept kept.housed kept.differ kept.standing edits inside member).imp_right fun trees => ?_
    exact modifiedTree_congr classes (by rw [file?, file?, files]) trees

theorem renumber (kept : d.WellKept) (done : d.renumber path = .ok d') :
    d'.WellKept ∧ d'.files.map File.path = d.files.map File.path ∧ ∀ other, d'.modifiedTree other = d.modifiedTree other := by
  obtain ⟨⟨files, rfl⟩, paths, forms⟩ := renumber_frame done
  refine ⟨⟨⟨kept.standing.follows, kept.standing.serves⟩, ?_, ?_⟩, paths, forms⟩
  · rw [paths]
    exact kept.housed
  · rw [paths]
    exact kept.differ

end WellKept

end Document

end MarkupEditor
