import MarkupEditor.Proofs.Document.Histories

namespace MarkupEditor

structure Rooted (paths : List String) (get : String → Option Record) : Prop where
  there : ∀ path ∈ paths, ∃ r, get (File.rootId path) = some r
  top : ∀ path r, get (File.rootId path) = some r → r.parent = none ∧ r.isFile = true
  alone : ∀ id r, get id = some r → r.parent = none → ∃ path ∈ paths, id = File.rootId path

namespace Rooted

variable {paths paths' : List String} {get get' : String → Option Record} {path : String}

theorem mem_iff (rooted : Rooted paths get) : path ∈ paths ↔ ∃ r, get (File.rootId path) = some r := by
  refine ⟨rooted.there path, fun ⟨r, found⟩ => ?_⟩
  obtain ⟨path', member, same⟩ := rooted.alone _ r found (rooted.top path r found).1
  exact File.rootId_injective same ▸ member

theorem spread (rooted : Rooted paths get) (same : ∀ path, path ∈ paths' ↔ path ∈ paths)
    (stays : ∀ path r, get (File.rootId path) = some r → ∃ r', get' (File.rootId path) = some r')
    (comes : ∀ id r', get' id = some r' → (∃ r, get id = some r ∧ r'.parent = r.parent ∧ r'.origin = r.origin) ∨
      (∀ path, id ≠ File.rootId path) ∧ r'.parent ≠ none) : Rooted paths' get' := by
  refine ⟨fun path member => ?_, fun path r' found => ?_, fun id r' found orphan => ?_⟩
  · obtain ⟨r, found⟩ := rooted.there path ((same path).mp member)
    exact stays path r found
  · rcases comes _ r' found with ⟨r, held, parent, origin⟩ | ⟨other, _⟩
    · obtain ⟨orphan, isFile⟩ := rooted.top path r held
      rw [Record.isFile, Record.node?_eq origin]
      exact ⟨parent.trans orphan, isFile⟩
    · exact absurd rfl (other path)
  · rcases comes id r' found with ⟨r, held, parent, _⟩ | ⟨_, under⟩
    · obtain ⟨path, member, here⟩ := rooted.alone id r held (parent.symm.trans orphan)
      exact ⟨path, (same path).mpr member, here⟩
    · exact absurd orphan under

end Rooted

namespace Document

variable {d d' : Document} {paths : List String} {classAttribute : String}

def SparesRoots (d : Document) (a : Act) : Prop :=
  ∀ path, a ≠ .delete (File.rootId path) ∧ ∀ parent nodes next, a.moves? = some (parent, nodes, next) → File.rootId path ∈ nodes →
    d.mayMove parent (File.rootId path) = false

theorem rooted_update (rooted : Rooted paths (d.contents ())) (id : String) {f : Record → Record}
    (same : ∀ r, (f r).parent = r.parent ∧ (f r).order = r.order ∧ (f r).origin = r.origin) : Rooted paths ((d.update id f).contents ()) := by
  refine rooted.spread (fun _ => Iff.rfl) (fun path r found => ?_) fun key r' found => .inl ?_
  · rcases d.update_contents id same (File.rootId path) with ⟨absent, _⟩ | ⟨_, r', _, held, _⟩
    · cases absent.symm.trans found
    · exact ⟨r', held⟩
  · rcases d.update_contents id same key with ⟨_, absent⟩ | ⟨r, q, held, found', parent, origin⟩
    · cases absent.symm.trans found
    · obtain rfl := Option.some.inj (found'.symm.trans found)
      exact ⟨r, held, parent, origin⟩

theorem not_below_root (rooted : Rooted paths d.store.get?) (wooded : Store.Wooded d.store.get?) {top path : String} {r : Record}
    (found : d.store.get? (File.rootId path) = some r) (named : top ≠ Store.rootsId) : ¬ d.store.Below top (File.rootId path) :=
  Store.not_below_orphan wooded named found (rooted.top path r found).1

theorem rooted_apply (standing : d.Standing) (follows : d.Follows fun m => Rooted paths (m ())) {a : Act} (edits : a.isEdit = true)
    (spares : d.SparesRoots a) : (a.apply d).Follows fun m => Rooted paths (m ()) := by
  have rooted : Rooted paths d.store.get? := follows.present
  have wooded := standing.planted.toWooded
  refine follows.act edits (fun id f same => rooted_update rooted id same) ?_ ?_
  · intro parent nodes next h moves found
    have own : d.node h.id = .ok h := by rwa [id_of_node found]
    obtain ⟨place, contents, moved⟩ := insertBefore_moved standing.planted standing.serves own (@node_of_handles d nodes) next
    -- A root among the nodes may not move, and no other entry is one.
    have unmoved : ∀ path, place (File.rootId path) = none := by
      intro path
      cases given : place (File.rootId path) with
      | none => rfl
      | some key =>
        obtain ⟨may, node, member, same⟩ := moved _ key given
        obtain ⟨id, listed, held⟩ := List.mem_filterMap.mp member
        obtain ⟨serial, _, rfl⟩ := Option.map_eq_some_iff.mp held
        obtain rfl : id = File.rootId path := same
        rw [id_of_node found, (spares path).2 parent nodes next moves listed] at may
        cases may
    show Rooted paths ((d.insertBefore h (d.handles nodes) next).2.store.get?)
    rw [contents]
    refine rooted.spread (fun _ => Iff.rfl) (fun path r found => ⟨r, (Planted.moved_none (unmoved path)).trans found⟩) fun id r' found => ?_
    rcases Planted.moved_cases found with ⟨_, before⟩ | ⟨key, r, given, before, rfl⟩
    · exact .inl ⟨r', before, rfl, rfl⟩
    · refine .inr ⟨fun path here => ?_, nofun⟩
      cases (unmoved path).symm.trans (here ▸ given)
  · rintro id h rfl found _
    obtain ⟨q, live⟩ := live_of_node standing.serves found
    have rest := d.remove_contents id
    refine rooted.spread (fun _ => Iff.rfl) (fun path r held => ⟨r, (rest _ r).mpr ⟨held, ?_⟩⟩) fun key r held =>
      .inl ⟨r, ((rest key r).mp held).1, rfl, rfl⟩
    rintro (here | below)
    · exact (spares path).1 (here ▸ rfl)
    · exact not_below_root rooted wooded held (wooded.named live) below

section

variable {path : String} {tree : SourceTree} {generation : Nat}

theorem rooted_build (planted : Planted d.store.get?) (rooted : Rooted (d.files.map File.path) d.store.get?) :
    Rooted ((d.build path tree generation).files.map File.path) (d.build path tree generation).store.get? := by
  obtain ⟨⟨numbering, files⟩, _⟩ := d.build_frame path tree generation
  have grafted := grafted_build planted path tree generation
  have listed := File.mem_paths_put ⟨path, tree, generation, numbering⟩ d.files
  rw [files]
  refine ⟨fun path' member => ?_, fun path' r found => ?_, fun id r found orphan => ?_⟩
  · by_cases here : path' = path
    · exact ⟨d.rootRecord path tree, (grafted.rest _ _).mpr (.inl (here ▸ List.mem_cons_self))⟩
    · obtain ⟨r, held⟩ := rooted.there path' (((listed path').mp member).resolve_left here)
      refine ⟨r, (grafted.rest _ r).mpr (.inr ⟨fun member => ?_, held⟩)⟩
      obtain ⟨e, member, same⟩ := List.mem_map.mp member
      rcases mem_fileTree member with ⟨root, _⟩ | ⟨⟨count, node⟩, _⟩
      · exact here (File.rootId_injective (same.symm.trans root))
      · exact File.nodeId_ne_rootId _ _ _ _ (node.symm.trans same)
  · rcases (grafted.rest _ r).mp found with member | ⟨_, held⟩
    · rcases mem_fileTree member with ⟨_, rfl⟩ | ⟨⟨count, node⟩, _⟩
      · exact ⟨rfl, rfl⟩
      · exact absurd node.symm (File.nodeId_ne_rootId _ _ _ _)
    · exact rooted.top path' r held
  · rcases (grafted.rest id r).mp found with member | ⟨_, held⟩
    · rcases mem_fileTree member with ⟨rfl, _⟩ | ⟨_, parent, _, under⟩
      · exact ⟨path, (listed path).mpr (.inl rfl), rfl⟩
      · cases orphan.symm.trans under
    · obtain ⟨path', member, same⟩ := rooted.alone id r held orphan
      exact ⟨path', (listed path').mpr (.inr member), same⟩

theorem rooted_emptied (standing : d.Standing) (rooted : Rooted (d.files.map File.path) d.store.get?) (path : String) :
    Rooted ((d.emptied path).files.map File.path) (d.emptied path).store.get? := by
  have rest := d.emptied_get? path
  rw [(d.emptied_frame path).1]
  refine rooted.spread (fun _ => Iff.rfl) (fun path' r found => ⟨r, (rest _ r).mpr ⟨found, ?_⟩⟩) fun id r found => .inl ⟨r, ((rest id r).mp found).1, rfl, rfl⟩
  exact not_below_root rooted standing.planted.toWooded found (File.rootId_ne_empty path)

theorem rooted_close (standing : d.Standing) (rooted : Rooted (d.files.map File.path) d.store.get?) (closed : d.close path = .ok d') :
    Rooted (d'.files.map File.path) d'.store.get? := by
  obtain ⟨_, files, _, _, rest⟩ := close_frame closed
  have listed : ∀ other, other ∈ d'.files.map File.path ↔ other ∈ d.files.map File.path ∧ other ≠ path := by
    rw [files]
    exact File.mem_paths_filter d.files path
  refine ⟨fun other member => ?_, fun other r found => rooted.top other r ((rest _ r).mp found).1, fun id r found orphan => ?_⟩
  · obtain ⟨member, differs⟩ := (listed other).mp member
    obtain ⟨r, found⟩ := rooted.there other member
    refine ⟨r, (rest _ r).mpr ⟨found, ?_⟩⟩
    rintro (same | below)
    · exact differs (File.rootId_injective same)
    · exact not_below_root rooted standing.planted.toWooded found (File.rootId_ne_empty path) below
  · obtain ⟨held, stays⟩ := (rest id r).mp found
    obtain ⟨other, member, rfl⟩ := rooted.alone id r held orphan
    exact ⟨other, (listed other).mpr ⟨member, fun same => stays (.inl (congrArg File.rootId same))⟩, rfl⟩

end

theorem rooted_turns (standing : d.Standing) (rooted : Rooted (d.files.map File.path) d.store.get?) {a : Act} (turns : Turns d a d') :
    Rooted (d'.files.map File.path) d'.store.get? := by
  cases turns with
  | opened absent => exact rooted_build standing.planted rooted
  | @reread path tree f _ _ reads found viewed =>
    rw [viewed.files, viewed.store]
    exact rooted_build (planted_emptied standing.follows.present path) (rooted_emptied standing rooted path)
  | closed done => exact rooted_close standing rooted done

theorem rooted_of_ran (ran : d.Ran SparesRoots classAttribute) : Rooted (d.files.map File.path) d.store.get? := by
  refine (ran.follows (P := fun files get => Rooted (files.map File.path) get) ⟨nofun, nofun, nofun⟩ ?_ ?_).present
  · exact fun standing follows edits spares => rooted_apply standing follows edits spares
  · exact fun standing rooted _ _ turns => rooted_turns standing rooted turns

theorem mem_handles (serves : d.instances.Serves d.store) {ids : List String} {id : String} :
    (∃ h ∈ d.handles ids, h.id = id) ↔ id ∈ ids ∧ ∃ r, d.store.get? id = some r := by
  constructor
  · rintro ⟨h, member, rfl⟩
    obtain ⟨key, listed, held⟩ := List.mem_filterMap.mp member
    have found := node_of_handles h member
    obtain ⟨serial, _, rfl⟩ := Option.map_eq_some_iff.mp held
    exact ⟨listed, live_of_node serves found⟩
  · rintro ⟨listed, r, found⟩
    obtain ⟨serial, held⟩ := Option.isSome_iff_exists.mp ((serves.live id).trans (Option.isSome_iff_exists.mpr ⟨r, found⟩))
    exact ⟨⟨id, serial⟩, List.mem_filterMap.mpr ⟨id, listed, Option.map_eq_some_iff.mpr ⟨serial, held, rfl⟩⟩, rfl⟩

theorem mem_roots (wooded : Store.Wooded d.store.get?) {id : String} : id ∈ d.store.roots ↔ ∃ r, d.store.get? id = some r ∧ r.parent = none := by
  rw [Store.roots, Store.mem_children]
  refine exists_congr fun r => and_congr_right fun found => ?_
  constructor
  · intro listed
    cases named : r.parent with
    | none => rfl
    | some parent =>
      -- The empty id, under which entries without a parent are listed, is no entry's.
      obtain rfl : parent = Store.rootsId := by simpa [Store.parentId, Placed.parent, named] using listed
      obtain ⟨_, live⟩ := (wooded.above ⟨r, found, named⟩).live
      cases wooded.unnamed.symm.trans live
  · intro orphan
    simp [Store.parentId, Placed.parent, orphan]

theorem roots_are_open_files (ran : d.Ran SparesRoots classAttribute) :
    (∀ path, path ∈ d.files.map File.path ↔ ∃ r, d.store.get? (File.rootId path) = some r ∧ r.isFile = true ∧ r.parent = none) ∧
      ∀ id, (∃ h ∈ d.handles d.store.roots, h.id = id) ↔ ∃ path ∈ d.files.map File.path, id = File.rootId path := by
  have rooted := rooted_of_ran ran
  have standing := ran.standing
  constructor
  · intro path
    rw [rooted.mem_iff]
    constructor
    · rintro ⟨r, found⟩
      obtain ⟨orphan, isFile⟩ := rooted.top path r found
      exact ⟨r, found, isFile, orphan⟩
    · rintro ⟨r, found, _⟩
      exact ⟨r, found⟩
  · intro id
    rw [mem_handles standing.serves, mem_roots standing.planted.toWooded]
    constructor
    · rintro ⟨⟨r, found, orphan⟩, _⟩
      exact rooted.alone id r found orphan
    · rintro ⟨path, member, rfl⟩
      obtain ⟨r, found⟩ := rooted.there path member
      exact ⟨⟨r, found, (rooted.top path r found).1⟩, r, found⟩

-- Two files are opened, an element goes to the other one and back, and the file that it came from is closed.
def guestActs (a b : SourceTree) : List (Nat × Act) :=
  [(0, .load "a.jsx" a), (1, .load "b.jsx" b), (2, .append (File.nodeId "b.jsx" 0 2) [File.nodeId "a.jsx" 0 3]), (3, .undo), (4, .close "a.jsx")]

theorem roots_are_open_files_guest :
    ∃ a b, parse "x = <p><b /></p>;" = .ok a ∧ parse "y = <div></div>;" = .ok b ∧
      let d := (new "className" 1000 100).perform (guestActs a b)
      d.Ran SparesRoots "className" ∧ d.files.map File.path = ["b.jsx"] ∧
        (∃ r, d.store.get? (File.rootId "b.jsx") = some r ∧ r.isFile = true ∧ r.parent = none) ∧
        ∀ id, (∃ h ∈ d.handles d.store.roots, h.id = id) ↔ id = File.rootId "b.jsx" := by
  have ran : ((parse "x = <p><b /></p>;").toOption.bind fun a => (parse "y = <div></div>;").toOption.map fun b =>
      ((new "className" 1000 100).perform (guestActs a b)).files.map File.path) = some ["b.jsx"] := by
    decide +kernel
  simp only [Option.bind_eq_some_iff, Option.map_eq_some_iff] at ran
  obtain ⟨a, first, b, second, files⟩ := ran
  have spared : ((new "className" 1000 100).perform (guestActs a b)).Ran SparesRoots "className" := by
    refine (Ran.new 1000 100).perform fun d act member path => ?_
    have elsewhere : ∀ path' generation count, File.rootId path ∉ [File.nodeId path' generation count] :=
      fun path' generation count here => File.nodeId_ne_rootId path' path generation count (List.mem_singleton.mp here).symm
    simp only [guestActs, List.mem_cons, List.not_mem_nil, or_false] at member
    rcases member with rfl | rfl | rfl | rfl | rfl
    · exact ⟨nofun, nofun⟩
    · exact ⟨nofun, nofun⟩
    · refine ⟨nofun, fun parent nodes next moves => ?_⟩
      rw [← (Prod.mk.inj (Prod.mk.inj (Option.some.inj moves)).2).1]
      exact fun listed => absurd listed (elsewhere _ _ _)
    · exact ⟨nofun, nofun⟩
    · exact ⟨nofun, nofun⟩
  obtain ⟨there, roots⟩ := roots_are_open_files spared
  rw [files] at there roots
  refine ⟨a, b, eq_ok_of_toOption first, eq_ok_of_toOption second, spared, files, (there "b.jsx").mp List.mem_cons_self, fun id => ?_⟩
  rw [roots id]
  simp

-- The root of a file is deleted like any other node, and the file stays open without it.
theorem open_without_root :
    ¬ ∀ d : Document, d.Ran (fun _ _ => True) "className" → ∀ path, path ∈ d.files.map File.path ↔
      ∃ r, d.store.get? (File.rootId path) = some r ∧ r.isFile = true ∧ r.parent = none := by
  intro corresponds
  have ran : ((parse "x = <p />;").toOption.map fun a =>
      let d := (new "className" 1000 100).perform [(0, .load "a.jsx" a), (1, .delete (File.rootId "a.jsx"))]
      (d.files.map File.path, (d.store.get? (File.rootId "a.jsx")).isSome)) = some (["a.jsx"], false) := by
    decide +kernel
  obtain ⟨a, _, facts⟩ := Option.map_eq_some_iff.mp ran
  obtain ⟨files, gone⟩ := Prod.mk.inj facts
  obtain ⟨r, found, _⟩ := (corresponds _ ((Ran.new 1000 100).perform fun _ _ _ => trivial) "a.jsx").mp (files ▸ List.mem_cons_self)
  rw [found] at gone
  cases gone

end Document

end MarkupEditor
