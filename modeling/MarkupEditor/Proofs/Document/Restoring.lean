import MarkupEditor.Proofs.Document.Separation
import MarkupEditor.Proofs.Document.Viewing

namespace MarkupEditor

namespace Document

variable {d d' : Document} {path classAttribute : String} {tree : SourceTree} {generation : Nat} {root : Handle}

theorem Viewed.handle? (viewed : Viewed d d') (id : String) : d'.handle? id = d.handle? id := by
  unfold Document.handle?
  rw [viewed.instances]

theorem Viewed.descendantAt? (viewed : Viewed d d') (h : Handle) : d'.descendantAt? h = d.descendantAt? h := by
  funext place
  unfold Document.descendantAt? Document.handle?
  rw [viewed.store, viewed.instances]

theorem handle?_emptied (wooded : Store.Wooded d.store.get?) (held : d.handle? (File.rootId path) = some root) :
    (d.emptied path).handle? (File.rootId path) = some root := by
  have apart : ∀ id ∈ Tree.postorderAll (d.store.trees (File.rootId path)), File.rootId path ≠ id := by
    intro id listed same
    have below := Store.mem_postorder_trees.mp listed
    exact Store.not_below_self wooded (File.rootId_ne_empty path) (same ▸ below)
  have removed : ∀ (ids : List String) (d : Document), (∀ id ∈ ids, File.rootId path ≠ id) → d.handle? (File.rootId path) = some root →
      (ids.foldl removeEntry d).handle? (File.rootId path) = some root := by
    intro ids
    induction ids with
    | nil => exact fun _ _ held => held
    | cons id ids ih =>
      intro d apart held
      obtain ⟨first, later⟩ := List.forall_mem_cons.mp apart
      exact ih _ later (handle?_removeEntry held first)
  exact removed _ { d with history := d.history.pause } apart held

theorem handle?_build_kept (held : d.handle? (File.rootId path) = some root) (tree : SourceTree) (generation : Nat) :
    (d.build path tree generation).handle? (File.rootId path) = some root := by
  have filled : ∀ (entries : List (String × Record)) (d : Document), d.handle? (File.rootId path) = some root →
      (d.filled entries).handle? (File.rootId path) = some root := by
    intro entries
    unfold Document.filled
    induction entries with
    | nil => exact fun _ held => held
    | cons e entries ih => exact fun d held => ih _ (handle?_write held fun _ => rfl)
  have rooted : (d.rooted path tree).handle? (File.rootId path) = some root :=
    handle?_write (d := { d with history := d.history.pause }) held fun _ => rfl
  exact filled _ _ rooted

theorem mem_selection_emptied {x : String} :
    x ∈ (d.emptied path).selection.ids ↔ x ∈ d.selection.ids ∧ ¬ d.store.Below (File.rootId path) x := by
  have removed : ∀ (ids : List String) (d : Document), x ∈ (ids.foldl removeEntry d).selection.ids ↔ x ∈ d.selection.ids ∧ x ∉ ids := by
    intro ids
    induction ids with
    | nil => simp
    | cons id ids ih =>
      intro d
      rw [List.foldl_cons, ih, removeEntry_selection, IdSet.mem_erase, List.mem_cons, not_or, and_assoc]
  rw [← Store.mem_postorder_trees]
  exact removed _ { d with history := d.history.pause }

theorem selection_build (d : Document) (path : String) (tree : SourceTree) (generation : Nat) :
    (d.build path tree generation).selection = d.selection := by
  have filled : ∀ (entries : List (String × Record)) (d : Document), (d.filled entries).selection = d.selection := by
    intro entries
    unfold Document.filled
    induction entries with
    | nil => exact fun _ => rfl
    | cons e entries ih => exact fun d => (ih _).trans (d.write_selection e.1 _)
  have rooted : (d.rooted path tree).selection = d.selection := write_selection ..
  exact (filled _ _).trans rooted

theorem mem_placesOf {id : String} {chosen : String → Bool} {place : List Nat} :
    place ∈ d.placesOf id chosen ↔ ∃ x ∈ d.store.descendants id, chosen x = true ∧ d.store.indexPath x = place := by
  simp only [placesOf, List.mem_map, List.mem_filter, and_assoc]

theorem placesOf_ordered (wooded : Store.Wooded d.store.get?) {id : String} (named : id ≠ Store.rootsId) (chosen : String → Bool) :
    (d.placesOf id chosen).Pairwise fun p q => ¬ q <+: p :=
  List.pairwise_map.mpr ((Store.indexPaths_preorder wooded named).filter chosen)

theorem ne_nil_of_placesOf (wooded : Store.Wooded d.store.get?) {id : String} (named : id ≠ Store.rootsId) {chosen : String → Bool}
    {place : List Nat} (member : place ∈ d.placesOf id chosen) : place ≠ [] := by
  obtain ⟨x, listed, _, rfl⟩ := mem_placesOf.mp member
  exact Store.indexPath_ne_nil wooded (Store.mem_descendants.mp listed) named

-- What reading the file again leaves selected and expanded, with the instances that it makes.
structure Reviewed (d : Document) (root : Handle) (d' : Document) : Prop where
  selected : ∀ x, x ∈ d'.selection.ids ↔
    (∃ place ∈ d.placesOf root.id d.isSelected, ∃ h, d'.descendantAt? root place = some h ∧ h.id = x) ∨
      (x ∈ d.selection.ids ∧ ¬ d.store.Below root.id x) ∧
        ∀ place ∈ d.placesOf root.id d.isSelected, ∀ h, d'.descendantAt? root place = some h → ¬ d'.store.Below h.id x
  expanded : ∀ serial, serial ∈ d'.expanded ↔
    serial ∈ d.expanded ∨ ∃ place ∈ d.placesOf root.id d.isOpen, ∃ h, d'.descendantAt? root place = some h ∧ h.serial = serial
  later : d.instances.Later d'.instances
  before : d.handle? root.id = some root
  after : d'.handle? root.id = some root
  orphan : ∃ r, d'.store.get? root.id = some r ∧ r.parent = none

theorem reload_reviewed (standing : d.Standing) (reloaded : d.reload path tree = .ok (root, d')) : root.id = File.rootId path ∧ d.Reviewed root d' := by
  have wooded := standing.planted.toWooded
  obtain ⟨f, opened, held, shape⟩ := reload_stages reloaded
  obtain ⟨g, opened', viewed⟩ := reload_eq reloaded
  obtain rfl := Option.some.inj (opened.symm.trans opened')
  obtain ⟨named, _⟩ := handle?_eq_some.mp held
  have nonroot : root.id ≠ Store.rootsId := named ▸ File.rootId_ne_empty path
  have wooded' : Store.Wooded ((d.emptied path).build path tree (f.generation + 1)).store.get? :=
    (planted_build (planted_emptied standing.follows.present path) path tree (f.generation + 1)).toWooded
  have live : ((d.emptied path).build path tree (f.generation + 1)).store.get? root.id = some ((d.emptied path).rootRecord path tree) :=
    named ▸ ((d.emptied path).build_contents path tree (f.generation + 1) _ _).mpr (.inl List.mem_cons_self)
  have kept := handle?_build_kept (handle?_emptied wooded held) tree (f.generation + 1)
  have onward := (Onward.of_emptied d path).trans (.of_build (d.emptied path) path tree (f.generation + 1))
  have selection := (d.emptied path).selection_build path tree (f.generation + 1)
  have chosen := fun x => @mem_selectPlaces _ _ wooded' _ live rfl _ (placesOf_ordered wooded nonroot d.isSelected) x
  generalize (d.emptied path).build path tree (f.generation + 1) = built at *
  obtain ⟨looked, unexpanded⟩ := built.viewed_selectPlaces root (d.placesOf root.id d.isSelected)
  have reaches := viewed.descendantAt? root
  refine ⟨named, fun x => ?_, fun serial => ?_, viewed.instances ▸ onward.later, named ▸ held, ?_, _, viewed.store ▸ live, rfl⟩
  · rw [shape, expandAll_selection, chosen, ← shape, reaches, viewed.store, selection, mem_selection_emptied, named]
  · rw [shape, mem_expandAll, unexpanded, ← shape, onward.expanded, reaches, looked.descendantAt? root]
    simp only [List.mem_filterMap]
    refine or_congr_right ⟨?_, ?_⟩
    · intro chosen
      obtain ⟨h, ⟨place, listed, found⟩, same⟩ := chosen
      exact ⟨place, listed, h, found, same⟩
    · intro chosen
      obtain ⟨place, listed, h, found, same⟩ := chosen
      exact ⟨h, ⟨place, listed, found⟩, same⟩
  · rw [viewed.handle?, named]
    exact kept

-- The id is not one that an open file gives out only when it is read again.
def Known (d : Document) (id : String) : Prop :=
  ∀ path f generation count, d.file? path = some f → id = File.nodeId path generation count → generation ≤ f.generation

-- What selects and expands nodes. They may have been looked up at any time: each had an id that was given out, and an instance
-- that was made.
inductive Look (d : Document) : Document → Prop where
  | select {id : String} (known : d.Known id) : Look d (d.select id)
  | deselect (id : String) : Look d (d.deselect id)
  | clearSelection : Look d d.clearSelection
  | selectBetween {hs : List Handle} (known : ∀ h ∈ hs, d.Known h.id) : Look d (d.selectBetween hs)
  | expand {h : Handle} (made : h.serial ≤ d.instances.made) (value : Bool) : Look d (d.setExpanded h value)
  | expandAncestors (id : String) : Look d (d.expandAncestors id)

-- The documents that come of opening one file: its nodes are edited, selected and expanded, edits are undone and redone, and the
-- file is read again.
inductive Browsed (classAttribute path : String) : Document → Prop where
  | opened (undoWindow maxLevels : Nat) {tree : SourceTree} {root : Handle} {d : Document}
      (loaded : (new classAttribute undoWindow maxLevels).load path tree = .ok (root, d)) : Browsed classAttribute path d
  | edited {d : Document} (before : Browsed classAttribute path d) (now : Nat) {a : Act} (edits : a.isEdit = true) :
      Browsed classAttribute path (a.apply { d with now })
  | looked {d d' : Document} (before : Browsed classAttribute path d) (look : d.Look d') : Browsed classAttribute path d'
  | reread {d d' : Document} {tree : SourceTree} {root : Handle} (before : Browsed classAttribute path d)
      (reloaded : d.reload path tree = .ok (root, d')) : Browsed classAttribute path d'

structure Seen (d : Document) : Prop where
  standing : d.Standing
  follows : d.Follows fun m => Filed d.files (m ()) ∧ Dated d.files (m ())
  known : ∀ id ∈ d.selection.ids, d.Known id
  made : ∀ serial ∈ d.expanded, serial ≤ d.instances.made

theorem known_of_handle (serves : d.instances.Serves d.store) (dated : Dated d.files d.store.get?) {id : String} {h : Handle}
    (held : d.handle? id = some h) : d.Known h.id := by
  obtain ⟨r, live⟩ := Option.ne_none_iff_exists'.mp (live_of_handle serves held)
  intro path f generation count opened same
  exact dated.dated path f opened generation count r (same ▸ live)

theorem Known.of_files {id : String} (known : d.Known id) (files : d'.files = d.files) : d'.Known id := by
  intro path f generation count opened
  rw [file?, files] at opened
  exact known path f generation count opened

theorem Turns.known {a : Act} (turns : Turns d a d') (here : a.file? = some path) (opening : ∀ path, a ≠ .close path)
    (opened : (d.file? path).isSome = true) {id : String} (known : d.Known id) : d'.Known id := by
  intro other f generation count found same
  by_cases own : other = path
  · subst own
    obtain ⟨g, before⟩ := Option.isSome_iff_exists.mp opened
    obtain ⟨f', after, next⟩ := ((turns.file?_self here).resolve_left fun closed => opening _ closed.1).2
    obtain rfl := Option.some.inj (after.symm.trans found)
    rw [next, nextGeneration, before]
    exact Nat.le_succ_of_le (known other g generation count before same)
  · exact known other f generation count ((turns.file?_other here own).symm.trans found) same

namespace Seen

theorem made_of_handle (seen : d.Seen) {id : String} {h : Handle} (held : d.handle? id = some h) : h.serial ≤ d.instances.made :=
  seen.standing.serves.apart.serial_le (handle?_eq_some.mp held).2

theorem at_time (seen : d.Seen) (now : Nat) : ({ d with now } : Document).Seen :=
  ⟨seen.standing.at_time now, seen.follows, seen.known, seen.made⟩

theorem edited (seen : d.Seen) {a : Act} (edits : a.isEdit = true) : (a.apply d).Seen := by
  have files := (d.apply_frame edits).1
  have follows : (a.apply d).Follows fun m => Filed d.files (m ()) ∧ Dated d.files (m ()) :=
    Follows.stems (P := fun get => Filed d.files get ∧ Dated d.files get) seen.follows seen.standing edits fun both stems =>
      ⟨Filed.stems both.1 stems, Dated.stems both.2 stems⟩
  obtain ⟨e, same⟩ := d.apply_edit edits
  have onward := Onward.of_edit d e
  rw [← same] at onward
  refine ⟨seen.standing.apply a, files.symm ▸ follows, fun id selected => ?_, fun serial expanded => ?_⟩
  · exact (seen.known id (onward.selected selected)).of_files files
  · exact (seen.made serial (onward.expanded ▸ expanded)).trans onward.later.made

theorem viewed (seen : d.Seen) (viewed : Viewed d d') (known : ∀ id ∈ d'.selection.ids, d.Known id)
    (made : ∀ serial ∈ d'.expanded, serial ≤ d.instances.made) : d'.Seen := by
  refine ⟨seen.standing.viewed viewed, ?_, fun id selected => (known id selected).of_files viewed.files, ?_⟩
  · rw [viewed.files]
    exact seen.follows.viewed viewed
  · rw [viewed.instances]
    exact made

theorem looked (seen : d.Seen) (look : d.Look d') : d'.Seen := by
  cases look with
  | @select id known =>
    refine seen.viewed ⟨rfl, rfl, rfl, rfl, rfl⟩ (fun x selected => ?_) seen.made
    cases mem_select.mp selected with
    | inl same => exact same ▸ known
    | inr before => exact seen.known x before.1
  | deselect id => exact seen.viewed ⟨rfl, rfl, rfl, rfl, rfl⟩ (fun x selected => seen.known x (IdSet.mem_eraseAll.mp selected).1) seen.made
  | clearSelection => exact seen.viewed ⟨rfl, rfl, rfl, rfl, rfl⟩ nofun seen.made
  | @selectBetween hs known =>
    have viewed := viewed_selectBetween d hs
    unfold Document.selectBetween at viewed ⊢
    dsimp only at viewed ⊢
    split at viewed
    · rename_i first last head _
      have start := known first (mem_inOrder (List.mem_of_mem_head? head))
      have rows := forall_rows (P := fun h => d.Known h.id) (fun _ _ held => known_of_handle seen.standing.serves seen.follows.present.2 held)
        (some last) d.store.size start
      refine seen.viewed viewed (fun x selected => ?_) ?_
      · obtain ⟨h, listed, rfl⟩ := (selected_foldl _ _ selected).resolve_left List.not_mem_nil
        exact rows h listed
      · rw [expanded_foldl]
        exact seen.made
    · exact seen
  | @expand h made value =>
    refine seen.viewed (viewed_setExpanded d h value) (by rw [setExpanded_selection]; exact seen.known) fun serial expanded => ?_
    cases value with
    | true =>
      cases mem_setExpanded.mp expanded with
      | inl before => exact seen.made serial before
      | inr same => exact same ▸ made
    | false => exact seen.made serial (List.mem_of_mem_filter expanded)
  | expandAncestors id =>
    refine seen.viewed (viewed_expandAll d _) (by rw [expandAncestors, expandAll_selection]; exact seen.known) fun serial expanded => ?_
    cases mem_expandAll.mp expanded with
    | inl before => exact seen.made serial before
    | inr opened =>
      obtain ⟨h, listed, rfl⟩ := opened
      obtain ⟨_, _, held⟩ := List.mem_filterMap.mp listed
      exact seen.made_of_handle held

theorem turned (seen : d.Seen) {a : Act} (turns : Turns d a d') (here : a.file? = some path) (opens : d.OpensFresh a) (standing : d'.Standing)
    (known : Dated d'.files d'.store.get? → ∀ id ∈ d'.selection.ids, d'.Known id) (made : ∀ serial ∈ d'.expanded, serial ≤ d'.instances.made) :
    d'.Seen := by
  obtain ⟨filed, dated⟩ := seen.follows.present
  have after := dated_turns seen.standing filed dated opens turns here
  have follows := turns.cleared (P := fun m => Filed d'.files (m ()) ∧ Dated d'.files (m ())) seen.standing.follows.recording
    ⟨filed_turns seen.standing filed turns here, after⟩
  exact ⟨standing, follows, known after, made⟩

theorem opened (undoWindow maxLevels : Nat) (loaded : (new classAttribute undoWindow maxLevels).load path tree = .ok (root, d)) : d.Seen := by
  have standing := Standing.new classAttribute undoWindow maxLevels
  have start : (new classAttribute undoWindow maxLevels).Seen := ⟨standing, Follows.new ⟨nofun, nofun, nofun⟩ .., nofun, nofun⟩
  obtain ⟨root', loaded'⟩ := load_new classAttribute undoWindow maxLevels path tree
  obtain ⟨_, rfl⟩ := Prod.mk.inj (Except.ok.inj (loaded'.symm.trans loaded))
  have opens : (new classAttribute undoWindow maxLevels).OpensFresh (.load path tree) := fun _ _ _ _ => ⟨nofun, fun _ _ => rfl⟩
  refine start.turned (.opened rfl) rfl opens (standing.load loaded) (fun _ => ?_) ?_
  · rw [selection_build]
    exact nofun
  · rw [(Onward.of_build _ path tree 0).expanded]
    exact nofun

theorem reread (seen : d.Seen) (reloaded : d.reload path tree = .ok (root, d')) : d'.Seen := by
  have standing := seen.standing.reload reloaded
  obtain ⟨f, opened, viewed⟩ := reload_eq reloaded
  have turns : Turns d (.reload path tree) d' := .reread (.inr rfl) opened viewed
  have opens : d.OpensFresh (.reload path tree) := nofun
  obtain ⟨named, reviewed⟩ := reload_reviewed seen.standing reloaded
  have nonroot : root.id ≠ Store.rootsId := named ▸ File.rootId_ne_empty path
  have held : ∀ {chosen place h}, place ∈ d.placesOf root.id chosen → d'.descendantAt? root place = some h → d'.handle? h.id = some h :=
    fun listed found => (descendantAt?_found found).2 (ne_nil_of_placesOf seen.standing.planted.toWooded nonroot listed)
  refine seen.turned turns rfl opens standing (fun dated id selected => ?_) fun serial expanded => ?_
  · cases (reviewed.selected id).mp selected with
    | inl chosen =>
      obtain ⟨place, listed, h, found, rfl⟩ := chosen
      exact known_of_handle standing.serves dated (held listed found)
    | inr before => exact turns.known rfl nofun (Option.isSome_iff_exists.mpr ⟨f, opened⟩) (seen.known id before.1.1)
  · cases (reviewed.expanded serial).mp expanded with
    | inl before => exact (seen.made serial before).trans reviewed.later.made
    | inr chosen =>
      obtain ⟨place, listed, h, found, rfl⟩ := chosen
      exact standing.serves.apart.serial_le (handle?_eq_some.mp (held listed found)).2

end Seen

theorem Browsed.seen (browsed : d.Browsed classAttribute path) : d.Seen := by
  induction browsed with
  | opened undoWindow maxLevels loaded => exact .opened undoWindow maxLevels loaded
  | edited _ now edits ih => exact (ih.at_time now).edited edits
  | looked _ look ih => exact ih.looked look
  | reread _ reloaded ih => exact ih.reread reloaded

section

variable (seen : d.Seen) (reloaded : d.reload path tree = .ok (root, d'))

include seen reloaded

theorem reload_renews : (∀ id, d'.store.Below root.id id → ¬ d.Known id) ∧ ∀ id, d.store.Below root.id id → d'.store.get? id = none := by
  have standing := seen.standing.reload reloaded
  have wooded := seen.standing.planted.toWooded
  have wooded' := standing.planted.toWooded
  obtain ⟨f, opened, viewed⟩ := reload_eq reloaded
  have turns : Turns d (.reload path tree) d' := .reread (.inr rfl) opened viewed
  obtain ⟨new, renewed, _⟩ := turns_renewed seen.standing seen.follows.present.1 turns rfl
  rw [nextGeneration, opened] at renewed
  -- The new ids carry the next generation, of which none was given out; the root alone keeps its id.
  have free : ∀ id r, d.store.get? id = some r → id ∈ new.map Prod.fst → id = File.rootId path := by
    intro id r live listed
    refine (renewed.id_of_mem listed).resolve_right fun node => ?_
    obtain ⟨count, same⟩ := node
    exact Nat.not_succ_le_self _ (seen.follows.present.2.dated path f opened _ count r (same ▸ live))
  rw [(reload_reviewed seen.standing reloaded).1]
  have apart : ∀ {s : Store Record} {id}, Store.Wooded s.get? → s.Below (File.rootId path) id → id ≠ File.rootId path :=
    fun wooded below same => Store.not_below_self wooded (File.rootId_ne_empty path) (same ▸ below)
  constructor
  · intro id below known
    obtain ⟨r, found⟩ := below.live
    cases (renewed.rest id r).mp found with
    | inl member =>
      obtain ⟨count, same⟩ := ((renewed.nodes id r member).resolve_left fun root => apart wooded' below root.1).1
      exact Nat.not_succ_le_self _ (known path f _ count opened same)
    | inr kept =>
      exact kept.2.2 (renewed.inside_before free wooded kept.2.1 ((inside_iff wooded').mpr (.inr below)))
  · intro id below
    obtain ⟨r, found⟩ := below.live
    cases held : d'.store.get? id with
    | none => rfl
    | some q =>
      cases (renewed.rest id q).mp held with
      | inl member => exact absurd (free id r found (List.mem_map_of_mem member)) (apart wooded below)
      | inr kept => exact absurd ((inside_iff wooded).mpr (.inr below)) kept.2.2

theorem reload_below {id : String} (below : d'.store.Below root.id id) :
    (d'.isSelected id = true ↔
        ∃ old ∈ d.store.descendants root.id, d.isSelected old = true ∧ d.store.indexPath old = d'.store.indexPath id) ∧
      (d'.isOpen id = true ↔
        ∃ old ∈ d.store.descendants root.id, d.isOpen old = true ∧ d.store.indexPath old = d'.store.indexPath id) := by
  have standing := seen.standing.reload reloaded
  have wooded' := standing.planted.toWooded
  obtain ⟨named, reviewed⟩ := reload_reviewed seen.standing reloaded
  have nonroot : root.id ≠ Store.rootsId := named ▸ File.rootId_ne_empty path
  obtain ⟨r, live, orphan⟩ := reviewed.orphan
  have unknown := (reload_renews seen reloaded).1 id below
  obtain ⟨h, found, held⟩ := found_of_below wooded' live orphan standing.serves below
  obtain ⟨own, serial⟩ := handle?_eq_some.mp held
  have again : ∀ chosen, (∃ place ∈ d.placesOf root.id chosen, ∃ h, d'.descendantAt? root place = some h ∧ h.id = id) ↔
      ∃ old ∈ d.store.descendants root.id, chosen old = true ∧ d.store.indexPath old = d'.store.indexPath id := by
    intro chosen
    constructor
    · intro chosen
      obtain ⟨place, listed, h', found', same⟩ := chosen
      obtain ⟨old, member, was, rfl⟩ := mem_placesOf.mp listed
      exact ⟨old, member, was, same ▸ (place_of_found wooded' live orphan found').2.symm⟩
    · intro before
      obtain ⟨old, member, was, same⟩ := before
      exact ⟨_, mem_placesOf.mpr ⟨old, member, was, same⟩, h, found, own⟩
  constructor
  · rw [isSelected_iff, reviewed.selected, ← again]
    exact or_iff_left fun before => unknown (seen.known id before.1.1)
  -- Expanding goes by instances, and this one was made by reading again.
  · have fresh : h.serial ∉ d.expanded := by
      intro before
      cases reviewed.later.serials id h.serial serial with
      | inl old => exact unknown (own ▸ known_of_handle seen.standing.serves seen.follows.present.2 (handle?_eq_some.mpr ⟨own, old⟩))
      | inr new => exact absurd (seen.made _ before) (Nat.not_le_of_lt new)
    have whose : ∀ {place h'}, place ∈ d.placesOf root.id d.isOpen → d'.descendantAt? root place = some h' → (h'.serial = h.serial ↔ h'.id = id) := by
      intro place h' listed found'
      have held' := (descendantAt?_found found').2 (ne_nil_of_placesOf seen.standing.planted.toWooded nonroot listed)
      constructor
      · intro same
        exact standing.serves.apart.id_unique (same ▸ (handle?_eq_some.mp held').2) serial
      · intro same
        rw [same, held] at held'
        rw [Option.some.inj held']
    have shown : d'.isOpen id = true ↔ h.serial ∈ d'.expanded := by
      rw [isOpen_iff, held]
      simp
    rw [shown, reviewed.expanded, ← again, or_iff_right fresh]
    constructor
    · intro chosen
      obtain ⟨place, listed, h', found', same⟩ := chosen
      exact ⟨place, listed, h', found', (whose listed found').mp same⟩
    · intro chosen
      obtain ⟨place, listed, h', found', same⟩ := chosen
      exact ⟨place, listed, h', found', (whose listed found').mpr same⟩

theorem reload_root : d'.isSelected root.id = d.isSelected root.id ∧ d'.isExpanded root = d.isExpanded root := by
  have standing := seen.standing.reload reloaded
  have wooded := seen.standing.planted.toWooded
  have wooded' := standing.planted.toWooded
  obtain ⟨named, reviewed⟩ := reload_reviewed seen.standing reloaded
  have nonroot : root.id ≠ Store.rootsId := named ▸ File.rootId_ne_empty path
  obtain ⟨r, live, orphan⟩ := reviewed.orphan
  have away : ∀ {chosen place h}, place ∈ d.placesOf root.id chosen → d'.descendantAt? root place = some h → ¬ Relation.ReflTransGen
      (Store.Names d'.store.get?) h.id root.id := by
    intro chosen place h listed found above
    have below := below_of_found wooded' live orphan found (ne_nil_of_placesOf wooded nonroot listed)
    exact wooded'.acyclic _ (((Store.below_iff wooded' nonroot).mp below).trans_left above)
  constructor
  · rw [Bool.eq_iff_iff, isSelected_iff, isSelected_iff, reviewed.selected]
    constructor
    · intro selected
      cases selected with
      | inl chosen =>
        obtain ⟨place, listed, h, found, same⟩ := chosen
        exact absurd (same ▸ .refl) (away listed found)
      | inr before => exact before.1.1
    · intro before
      refine .inr ⟨⟨before, Store.not_below_self wooded nonroot⟩, fun place listed h found below => ?_⟩
      have above := (place_of_found wooded' live orphan found).1
      have named := Store.named_of_above wooded' nonroot above
      exact away listed found ((Store.below_iff wooded' named).mp below).to_reflTransGen
  · rw [Bool.eq_iff_iff, isExpanded, isExpanded, List.contains_iff_mem, List.contains_iff_mem, reviewed.expanded]
    refine or_iff_left fun chosen => ?_
    obtain ⟨place, listed, h, found, same⟩ := chosen
    have held := (descendantAt?_found found).2 (ne_nil_of_placesOf wooded nonroot listed)
    have own := standing.serves.apart.id_unique (handle?_eq_some.mp held).2 (same ▸ (handle?_eq_some.mp reviewed.after).2)
    exact absurd (own ▸ .refl) (away listed found)

end

-- A file that was opened is read again, whatever was done before. Below its root exactly those nodes are selected that have the
-- index path of one that was selected, and exactly those expanded that have the index path of one that was expanded. The root
-- keeps its instance and is selected or expanded if it was. No entry that was below it is left, and there is nothing to undo or redo.
theorem reload_restores_view (browsed : d.Browsed classAttribute path) (reloaded : d.reload path tree = .ok (root, d')) :
    (∀ id ∈ d'.store.descendants root.id,
        (d'.isSelected id = true ↔
          ∃ old ∈ d.store.descendants root.id, d.isSelected old = true ∧ d.store.indexPath old = d'.store.indexPath id) ∧
        (d'.isOpen id = true ↔
          ∃ old ∈ d.store.descendants root.id, d.isOpen old = true ∧ d.store.indexPath old = d'.store.indexPath id)) ∧
      root.id = File.rootId path ∧ d.handle? root.id = some root ∧ d'.handle? root.id = some root ∧
      d'.isSelected root.id = d.isSelected root.id ∧ d'.isExpanded root = d.isExpanded root ∧
      (∀ old ∈ d.store.descendants root.id, d'.store.get? old = none) ∧
      d'.history.stack.done = [] ∧ d'.history.stack.undone = [] := by
  have seen := browsed.seen
  obtain ⟨named, reviewed⟩ := reload_reviewed seen.standing reloaded
  obtain ⟨f, opened, viewed⟩ := reload_eq reloaded
  have turns : Turns d (.reload path tree) d' := .reread (.inr rfl) opened viewed
  obtain ⟨selected, expanded⟩ := reload_root seen reloaded
  refine ⟨fun id listed => reload_below seen reloaded (Store.mem_descendants.mp listed), named, reviewed.before, reviewed.after, selected, expanded,
    fun old listed => (reload_renews seen reloaded).2 old (Store.mem_descendants.mp listed), ?_, ?_⟩
  · rw [turns.history]
    rfl
  · rw [turns.history]
    rfl

def nesting (d : Document) : Document :=
  let restored := Act.undo.apply { (Act.delete (File.nodeId "f" 0 3)).apply { d with now := 1 } with now := 2 }
  ((restored.select (File.nodeId "f" 0 2)).select (File.nodeId "f" 0 3)).setExpanded ⟨File.nodeId "f" 0 2, 3⟩ true

theorem reload_restores_view_nested :
    ∃ t t' root₀ d₀ root d', parse "x = <p><b /></p>;" = .ok t ∧ parse "y = <div><i /></div>;" = .ok t' ∧
      (new "className" 1000 100).load "f" t = .ok (root₀, d₀) ∧ (nesting d₀).Browsed "className" "f" ∧ (nesting d₀).reload "f" t' = .ok (root, d') ∧
      d'.selection.ids = [File.nodeId "f" 1 2, File.nodeId "f" 1 3] ∧
      (∃ old ∈ (nesting d₀).store.descendants root.id, (nesting d₀).isSelected old = true ∧
        (nesting d₀).store.indexPath old = d'.store.indexPath (File.nodeId "f" 1 3)) ∧
      (∃ old ∈ (nesting d₀).store.descendants root.id, (nesting d₀).isOpen old = true ∧
        (nesting d₀).store.indexPath old = d'.store.indexPath (File.nodeId "f" 1 2)) := by
  have ran : ((parse "x = <p><b /></p>;").toOption.bind fun t => (parse "y = <div><i /></div>;").toOption.bind fun t' =>
      ((new "className" 1000 100).load "f" t).toOption.bind fun o => ((nesting o.2).reload "f" t').toOption.map fun q =>
        (decide (3 ≤ (nesting o.2).instances.made), q.2.selection.ids, q.2.store.descendants q.1.id, q.2.isOpen (File.nodeId "f" 1 2))) =
      some (true, [File.nodeId "f" 1 2, File.nodeId "f" 1 3], [File.nodeId "f" 1 1, File.nodeId "f" 1 2, File.nodeId "f" 1 3], true) := by
    decide +kernel
  simp only [Option.bind_eq_some_iff, Option.map_eq_some_iff, Prod.mk.injEq, decide_eq_true_eq] at ran
  obtain ⟨t, parsed, t', parsed', ⟨root₀, d₀⟩, opened, ⟨root, d'⟩, reread, made, selected, listed, expanded⟩ := ran
  have loaded := eq_ok_of_toOption opened
  have reloaded := eq_ok_of_toOption reread
  have known : ∀ {d : Document} count, d.Known (File.nodeId "f" 0 count) :=
    fun count path f generation count' _ same => File.generation_of_nodeId same ▸ Nat.zero_le _
  have browsed : (nesting d₀).Browsed "className" "f" := by
    have first := Browsed.edited (.opened 1000 100 loaded) 1 (a := .delete (File.nodeId "f" 0 3)) rfl
    have second := first.edited 2 (a := .undo) rfl
    have third := (second.looked (.select (known 2))).looked (.select (known 3))
    refine third.looked (.expand ?_ true)
    rwa [nesting, (viewed_setExpanded _ _ true).instances] at made
  obtain ⟨view, _⟩ := reload_restores_view browsed reloaded
  refine ⟨t, t', root₀, d₀, root, d', eq_ok_of_toOption parsed, eq_ok_of_toOption parsed', loaded, browsed, reloaded, selected, ?_, ?_⟩
  · exact (view _ (by rw [listed]; simp)).1.mp (isSelected_iff.mpr (by rw [selected]; simp))
  · exact (view _ (by rw [listed]; simp)).2.mp expanded

end Document

end MarkupEditor
