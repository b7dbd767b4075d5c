import MarkupEditor.Proofs.Document.Assembly
import MarkupEditor.Proofs.Document.Numbers

namespace MarkupEditor

namespace File

-- The ids that the entries of a file have, however often it was read.
def Homed (path id : String) : Prop := id = rootId path ∨ ∃ generation count, id = nodeId path generation count

theorem seed_of_nodeId {path path' : String} {generation generation' count count' : Nat}
    (same : nodeId path generation count = nodeId path' generation' count') : seed path = seed path' := by
  have first : ∀ path generation count, (nodeId path generation count).toList.takeWhile (· ≠ '-') = (seed path).toList := by
    intro path generation count
    have plain : ∀ c ∈ (seed path).toList, decide (c ≠ '-') = true := by
      intro c member
      have absent := not_mem_seed (c := '-') (by decide) path
      exact decide_eq_true fun dash => absent (dash ▸ member)
    have spelled : (nodeId path generation count).toList =
        (seed path).toList ++ '-' :: ((Text.decimal generation).toList ++ '-' :: (Text.decimal count).toList) := by simp [nodeId]
    rw [spelled, List.takeWhile_append_of_pos plain]
    simp
  apply String.toList_injective
  rw [← first path generation count, same, first]

theorem Homed.unique {path path' id : String} (homed : Homed path id) (homed' : Homed path' id) (apart : seed path = seed path' → path = path') :
    path = path' := by
  rcases homed with rfl | ⟨generation, count, rfl⟩
  · rcases homed' with same | ⟨generation, count, same⟩
    · exact rootId_injective same
    · exact absurd same.symm (nodeId_ne_rootId path' path generation count)
  · rcases homed' with same | ⟨generation', count', same⟩
    · exact absurd same (nodeId_ne_rootId path path' generation count)
    · exact apart (seed_of_nodeId same)

end File

theorem Store.Anchored.acyclic {get : String → Option Record} {id : String} (anchored : Anchored get id) : ¬ Relation.TransGen (Names get) id id := by
  induction anchored with
  | root found orphan =>
    intro circle
    obtain ⟨_, _, r, held, named⟩ := Relation.TransGen.tail'_iff.mp circle
    cases found.symm.trans held
    cases orphan.symm.trans named
  | under found named _ ih =>
    intro circle
    obtain ⟨_, between, names⟩ := Relation.TransGen.tail'_iff.mp circle
    obtain rfl := names.unique ⟨_, found, named⟩
    exact ih (Relation.TransGen.head' names between)

-- The entry stands below the root of a file, with nothing but entries of the file between.
inductive Sheltered (path : String) (get : String → Option Record) : String → Prop where
  | root {r : Record} (found : get (File.rootId path) = some r) (orphan : r.parent = none) (isFile : r.isFile = true) :
      Sheltered path get (File.rootId path)
  | under {id parent : String} {r : Record} (homed : File.Homed path id) (found : get id = some r) (named : r.parent = some parent)
      (above : Sheltered path get parent) : Sheltered path get id

namespace Sheltered

variable {path id : String} {get get' : String → Option Record}

theorem top (sheltered : Sheltered path get id) : ∃ r, get (File.rootId path) = some r ∧ r.parent = none ∧ r.isFile = true := by
  induction sheltered with
  | root found orphan isFile => exact ⟨_, found, orphan, isFile⟩
  | under _ _ _ _ ih => exact ih

theorem anchored (sheltered : Sheltered path get id) : Store.Anchored get id := by
  induction sheltered with
  | root found orphan _ => exact .root found orphan
  | under _ found named _ ih => exact .under found named ih

theorem transfer (sheltered : Sheltered path get id) (kept : ∀ key r, File.Homed path key → get key = some r → get' key = some r) :
    Sheltered path get' id := by
  induction sheltered with
  | root found orphan isFile => exact .root (kept _ _ (.inl rfl) found) orphan isFile
  | under homed found named _ ih => exact .under homed (kept _ _ homed found) named ih

theorem erase (sheltered : Sheltered path get id) (gone : String) (kept : ∀ key r, key ≠ gone → get key = some r → get' key = some r)
    (elsewhere : ¬ Relation.ReflTransGen (Store.Names get) gone id) : Sheltered path get' id := by
  induction sheltered with
  | root found orphan isFile =>
    refine .root (kept _ _ ?_ found) orphan isFile
    rintro rfl
    exact elsewhere .refl
  | under homed found named _ ih =>
    refine .under homed (kept _ _ ?_ found) named (ih fun between => elsewhere (between.tail ⟨_, found, named⟩))
    rintro rfl
    exact elsewhere .refl

theorem cases_of {r : Record} (sheltered : Sheltered path get id) (found : get id = some r) :
    r.parent = none ∧ id = File.rootId path ∧ r.isFile = true ∨ ∃ parent, r.parent = some parent ∧ Sheltered path get parent := by
  cases sheltered with
  | root held orphan isFile =>
    obtain rfl := Option.some.inj (held.symm.trans found)
    exact .inl ⟨orphan, rfl, isFile⟩
  | under _ held named above =>
    obtain rfl := Option.some.inj (held.symm.trans found)
    exact .inr ⟨_, named, above⟩

variable {s : Store Record}

theorem walk (sheltered : Sheltered path s.get? id) : ∃ above : List String, (∀ more, s.ancestorsUpTo (above.length + more) id = above) ∧
    above.getLast?.getD id = File.rootId path ∧ (id :: above).Nodup ∧ id :: above ⊆ s.ids := by
  have live : ∀ {key : String} {r : Record}, s.get? key = some r → key ∈ s.ids := fun found => (s.get?_isSome_iff _).mp (by rw [found]; rfl)
  induction sheltered with
  | @root r found orphan _ =>
    have alone : s.parent? (File.rootId path) = none := by simp [Store.parent?, found, Placed.parent, orphan]
    refine ⟨[], fun more => ?_, rfl, List.nodup_singleton _, ?_⟩
    · cases more with
      | zero => rfl
      | succ more => rw [List.length_nil, Nat.zero_add, Store.ancestorsUpTo, alone]
    · intro key member
      rw [List.mem_singleton.mp member]
      exact live found
  | @under id parent r homed found named above ih =>
    obtain ⟨ancestors, walked, last, nodup, listed⟩ := ih
    have contained : s.contains parent = true := (s.contains_iff parent).mpr (listed List.mem_cons_self)
    have next : s.parent? id = some parent := by simp [Store.parent?, found, Placed.parent, named, contained]
    have walked' : ∀ more, s.ancestorsUpTo ((parent :: ancestors).length + more) id = parent :: ancestors := by
      intro more
      rw [List.length_cons, Nat.add_right_comm, Store.ancestorsUpTo, next]
      exact congrArg _ (walked more)
    refine ⟨parent :: ancestors, walked', ?_, List.nodup_cons.mpr ⟨fun member => ?_, nodup⟩, ?_⟩
    · rw [List.getLast?_cons]
      exact last
    · rw [← walked' 0] at member
      exact (Sheltered.under homed found named above).anchored.acyclic (Store.mem_ancestorsUpTo member).1
    · intro key member
      rcases List.mem_cons.mp member with rfl | member
      · exact live found
      · exact listed member

theorem root_eq (sheltered : Sheltered path s.get? id) : s.root id = File.rootId path := by
  obtain ⟨above, walked, last, nodup, listed⟩ := sheltered.walk
  have short := (List.subperm_of_subset nodup listed).length_le
  rw [List.length_cons, Store.ids, List.length_map] at short
  have size : s.size = above.length + (s.size - above.length) := (Nat.add_sub_cancel' (Nat.le_of_succ_le short)).symm
  rw [Store.root, Store.ancestors, size, walked, last]

end Sheltered

-- Only the entries of the file are asked for: others in the store may stand nowhere.
def Gathered (path : String) (get : String → Option Record) : Prop := ∀ id r, File.Homed path id → get id = some r → Sheltered path get id

theorem Gathered.congr {path : String} {get get' : String → Option Record} (gathered : Gathered path get)
    (same : ∀ id, File.Homed path id → get' id = get id) : Gathered path get' := by
  intro id r homed found
  rw [same id homed] at found
  exact (gathered id r homed found).transfer fun key r homed held => (same key homed).trans held

-- The record stands in a file: under an entry of it, or as its root.
structure Lodged (path id : String) (r : Record) : Prop where
  homed : File.Homed path id
  under : ∀ parent, r.parent = some parent → File.Homed path parent
  top : r.parent = none → id = File.rootId path ∧ r.isFile = true

def Housed (paths : List String) (get : String → Option Record) : Prop := ∀ id r, get id = some r → ∃ path ∈ paths, Lodged path id r

def File.SeedsDiffer (paths : List String) : Prop := ∀ path ∈ paths, ∀ path' ∈ paths, seed path = seed path' → path = path'

namespace Housed

variable {paths : List String} {get : String → Option Record}

theorem lodged (housed : Housed paths get) (differ : File.SeedsDiffer paths) {path id : String} {r : Record} (member : path ∈ paths)
    (homed : File.Homed path id) (found : get id = some r) : Lodged path id r := by
  obtain ⟨path', member', lodged⟩ := housed id r found
  obtain rfl := homed.unique lodged.homed (differ path member path' member')
  exact lodged

theorem closed (housed : Housed paths get) (differ : File.SeedsDiffer paths) {path child parent : String} {r : Record} (member : path ∈ paths)
    (found : get child = some r) (named : r.parent = some parent) (homed : File.Homed path parent) : File.Homed path child := by
  obtain ⟨path', member', lodged⟩ := housed child r found
  obtain rfl := homed.unique (lodged.under parent named) (differ path member path' member')
  exact lodged.homed

theorem gathered (housed : Housed paths get) (differ : File.SeedsDiffer paths) (wooded : Store.Wooded get) {path : String} (member : path ∈ paths) :
    Gathered path get := by
  intro id r homed found
  have anchored := wooded.anchored id r found
  clear found
  induction anchored with
  | root found orphan =>
    obtain ⟨rfl, isFile⟩ := (housed.lodged differ member homed found).top orphan
    exact .root found orphan isFile
  | under found named _ ih =>
    have lodged := housed.lodged differ member homed found
    exact .under homed found named (ih (lodged.under _ named))

end Housed

namespace Document

variable {path : String} {s : Store Record}

theorem filePathAbove?_eq {id : String} (sheltered : Sheltered path s.get? id) : owner?.filePathAbove? s id = some path := by
  obtain ⟨r, found, orphan, isFile⟩ := sheltered.top
  simp only [owner?.filePathAbove?, sheltered.root_eq, found, orphan, isFile]
  exact Record.pathOf?_rootId path

theorem filePathOf?_eq {d : Document} {id : String} (sheltered : Sheltered path d.store.get? id) : d.filePathOf? id = some path := by
  obtain ⟨r, found, _, isFile⟩ := sheltered.top
  simp only [filePathOf?, sheltered.root_eq, filePath?, found, isFile, if_true]
  exact Record.pathOf?_rootId path

theorem owner?_eq {c : Change Record} {r : Record} (held : c.after.or c.before = some r)
    (place : r.parent = none ∧ c.id = File.rootId path ∧ r.isFile = true ∨ ∃ parent, r.parent = some parent ∧ Sheltered path s.get? parent) :
    owner? s c = some path := by
  rw [owner?, held]
  rcases place with ⟨orphan, id, isFile⟩ | ⟨parent, named, sheltered⟩
  · simp only [orphan, isFile, if_true, id]
    exact Record.pathOf?_rootId path
  · obtain ⟨q, live⟩ := sheltered.anchored.live
    have contained : s.contains parent = true := by rw [Store.contains_eq_isSome, live]; rfl
    simp only [named, contained, if_true]
    exact filePathAbove?_eq sheltered

variable {d : Document} {paths : List String}

theorem housed_update (housed : Housed paths (d.contents ())) (id : String) {f : Record → Record}
    (same : ∀ r, (f r).parent = r.parent ∧ (f r).order = r.order ∧ (f r).origin = r.origin) : Housed paths ((d.update id f).contents ()) := by
  unfold update
  split
  · rename_i r found
    intro key r' held
    rw [write_contents, Contents.put] at held
    split at held
    · rename_i here
      obtain rfl := Option.some.inj held
      obtain ⟨parent, _, origin⟩ := same r
      obtain ⟨path, member, lodged⟩ := housed id r found
      refine ⟨path, member, here.2 ▸ lodged.homed, fun p named => lodged.under p (parent ▸ named), fun orphan => ?_⟩
      rw [here.2, Record.isFile, Record.node?_eq origin]
      exact lodged.top (parent ▸ orphan)
    · exact housed key r' held
  · exact housed

def StaysInside (d : Document) (a : Act) : Prop :=
  ∀ parent nodes next, a.moves? = some (parent, nodes, next) → ∀ node ∈ nodes, d.store.contains node = true →
    d.filePathOf? node = d.filePathOf? parent

theorem filePathOf?_lodged (housed : Housed paths d.store.get?) (differ : File.SeedsDiffer paths) (wooded : Store.Wooded d.store.get?) {id : String}
    {r : Record} (found : d.store.get? id = some r) : ∃ path ∈ paths, Lodged path id r ∧ d.filePathOf? id = some path := by
  obtain ⟨path, member, lodged⟩ := housed id r found
  exact ⟨path, member, lodged, filePathOf?_eq (housed.gathered differ wooded member id r lodged.homed found)⟩

theorem housed_apply (follows : d.Follows fun m => Housed paths (m ())) (differ : File.SeedsDiffer paths) (standing : d.Standing) {a : Act}
    (edits : a.isEdit = true) (inside : d.StaysInside a) : (a.apply d).Follows fun m => Housed paths (m ()) := by
  have housed : Housed paths d.store.get? := follows.present
  have wooded := standing.planted.toWooded
  refine follows.act edits (fun id f same => housed_update housed id same) ?_ ?_
  · intro parent nodes next h moves found
    have own : d.node h.id = .ok h := by rwa [id_of_node found]
    obtain ⟨q, live⟩ := live_of_node standing.serves own
    have resolved : ∀ h ∈ d.handles nodes, d.node h.id = .ok h := node_of_handles
    obtain ⟨place, contents, taken⟩ := insertBefore_moved standing.planted standing.serves own resolved next
    intro id r' held
    have held : Planted.moved d.store.get? h.id place id = some r' := contents ▸ held
    rcases Planted.moved_cases held with ⟨_, before⟩ | ⟨key, r, given, before, rfl⟩
    · exact housed id r' before
    · obtain ⟨_, node, member, rfl⟩ := taken id key given
      obtain ⟨path, member', lodged, here⟩ := filePathOf?_lodged housed differ wooded before
      obtain ⟨path', member'', lodged', there⟩ := filePathOf?_lodged housed differ wooded live
      have listed : node.id ∈ nodes := by
        obtain ⟨key', listed, resolved⟩ := List.mem_filterMap.mp member
        obtain ⟨serial, _, rfl⟩ := Option.map_eq_some_iff.mp resolved
        exact listed
      have contained : d.store.contains node.id = true := by rw [Store.contains_eq_isSome, before]; rfl
      have same := inside parent nodes next moves node.id listed contained
      rw [← id_of_node found, here, there] at same
      obtain rfl := Option.some.inj same
      refine ⟨path, member', lodged.homed, fun p named => ?_, fun orphan => by cases orphan⟩
      obtain rfl := Option.some.inj named
      exact lodged'.homed
  · intro id _ _ _ _ key r held
    exact housed key r ((d.remove_contents id key r).mp held).1

end Document

end MarkupEditor
