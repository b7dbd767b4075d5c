import MarkupEditor.Proofs.Document.Forms
import MarkupEditor.Proofs.Document.Recording

namespace MarkupEditor

inductive Edit where
  | insertBefore (parent : Handle) (nodes : List Handle) (next : Option String)
  | append (parent : Handle) (nodes : List Handle)
  | delete (id : String)
  | setClass (id className : String)
  | setText (id text : String)
  | undo
  | redo

def Edit.apply (d : Document) : Edit → Document
  | insertBefore parent nodes next => (d.insertBefore parent nodes next).2
  | append parent nodes => (d.append parent nodes).2
  | delete id => (d.delete id).2
  | setClass id className => d.setClass id className
  | setText id text => d.setText id text
  | undo => d.undo.2
  | redo => d.redo.2

def Document.run (d : Document) (edits : List (Nat × Edit)) : Document :=
  edits.foldl (fun d e => e.2.apply { d with now := e.1 }) d

theorem Record.node?_eq {r r' : Record} (origin : r'.origin = r.origin) : r'.node? = r.node? := by
  rw [node?, node?, origin]

def Stands (files : List File) (m : Contents Unit Record) (r : Record) (n : Node) : Prop :=
  ∃ path f root, File.find? files path = some f ∧ n ∈ f.tree.statements ∧ r.parent = some (File.rootId path) ∧
    m () (File.rootId path) = some root ∧ root.isFile

structure Orderly (Q : Node → Prop) (files : List File) (m : Contents Unit Record) : Prop where
  origins : ∀ id r n, m () id = some r → r.node? = some n → Q n
  statements : ∀ id r n, m () id = some r → r.node? = some n → n.kind = .other → Stands files m r n

namespace Orderly

variable {Q : Node → Prop} {files : List File} {m m' : Contents Unit Record}

theorem put (orderly : Orderly Q files m) {id : String} {r r' : Record} (found : m () id = some r) (origin : r'.origin = r.origin)
    (place : r.kind? = some .other → r'.parent = r.parent) : Orderly Q files (m.put () id (some r')) := by
  have source : r'.node? = r.node? := Record.node?_eq origin
  have stands : ∀ s n, Stands files m s n → Stands files (m.put () id (some r')) s n := by
    rintro s n ⟨path, f, root, loaded, listed, parent, live, isFile⟩
    by_cases here : File.rootId path = id
    · refine ⟨path, f, r', loaded, listed, parent, by simp [Contents.put, here], ?_⟩
      obtain rfl : root = r := Option.some.inj (live.symm.trans (here ▸ found))
      rwa [Record.isFile, source]
    · exact ⟨path, f, root, loaded, listed, parent, by simpa [Contents.put, here] using live, isFile⟩
  constructor
  · intro key s n held node
    by_cases here : key = id
    · obtain rfl : r' = s := by simpa [Contents.put, here] using held
      exact orderly.origins id r n found (source ▸ node)
    · exact orderly.origins key s n (by simpa [Contents.put, here] using held) node
  · intro key s n held node other
    apply stands
    by_cases here : key = id
    · obtain rfl : r' = s := by simpa [Contents.put, here] using held
      have kind : r.kind? = some .other := by simp [Record.kind?, ← source, node, other]
      obtain ⟨path, f, root, loaded, listed, parent, rest⟩ := orderly.statements id r n found (source ▸ node) other
      exact ⟨path, f, root, loaded, listed, (place kind).trans parent, rest⟩
    · exact orderly.statements key s n (by simpa [Contents.put, here] using held) node other

theorem erase (orderly : Orderly Q files m) (gone : String → Prop) (rest : ∀ id r, m' () id = some r ↔ m () id = some r ∧ ¬ gone id)
    (closed : ∀ id r parent, m () id = some r → r.parent = some parent → gone parent → gone id) : Orderly Q files m' := by
  constructor
  · intro id r n held node
    exact orderly.origins id r n ((rest id r).mp held).1 node
  · intro id r n held node other
    obtain ⟨found, stays⟩ := (rest id r).mp held
    obtain ⟨path, f, root, loaded, listed, parent, live, isFile⟩ := orderly.statements id r n found node other
    have above : ¬ gone (File.rootId path) := fun gone => stays (closed id r _ found parent gone)
    exact ⟨path, f, root, loaded, listed, parent, (rest _ root).mpr ⟨live, above⟩, isFile⟩

end Orderly

namespace Document

variable {Q : Node → Prop} {files : List File}

theorem kind_of_isMovable {d : Document} (orderly : Orderly Q files d.contents) {id : String} (movable : d.isMovable id = true) {r : Record}
    (found : d.contents () id = some r) : r.kind? ≠ some .other := by
  intro kind
  obtain ⟨n, node, other⟩ := Option.map_eq_some_iff.mp kind
  obtain ⟨path, _, root, _, _, parent, live, isFile⟩ := orderly.statements id r n found node other
  have above : d.store.parent? id = some (File.rootId path) := by
    have held : d.store.get? id = some r := found
    have contained : d.store.contains (File.rootId path) = true := by
      rw [Store.contains_eq_isSome]
      exact Option.isSome_iff_exists.mpr ⟨root, live⟩
    simp [Store.parent?, held, Placed.parent, parent, contained]
  have pins : d.pinsChildren (File.rootId path) = true := by
    have held : d.store.get? (File.rootId path) = some root := live
    have none : root.node? = none := by simpa [Record.isFile] using isFile
    simp [pinsChildren, held, Record.pinsChildren, Record.kind?, none]
  simp [isMovable, above, pins] at movable

theorem orderly_update {d : Document} (orderly : Orderly Q files d.contents) (id : String) {f : Record → Record}
    (origin : ∀ r, (f r).origin = r.origin)
    (place : ∀ r, d.contents () id = some r → r.kind? = some .other → (f r).parent = r.parent) :
    Orderly Q files (d.update id f).contents := by
  unfold update
  split
  · rename_i r found
    rw [write_contents]
    exact orderly.put found (origin r) (place r found)
  · exact orderly

theorem kind_update {d : Document} {id key : String} {f : Record → Record} (origin : ∀ r, (f r).origin = r.origin) :
    (((d.update id f).contents () key).bind Record.kind?) = (d.contents () key).bind Record.kind? := by
  unfold update
  split
  · rename_i r found
    rw [write_contents]
    by_cases here : key = id
    · have held : d.contents () id = some r := found
      simp [Contents.put, here, held, Record.kind?, Record.node?_eq (origin r)]
    · simp [Contents.put, here]
  · rfl

theorem orderly_moves {d : Document} (orderly : Orderly Q files d.contents) (parent : String) (moves : List (Handle × String))
    (movable : ∀ p ∈ moves, (d.contents () p.1.id).bind Record.kind? ≠ some .other) :
    Orderly Q files (moves.foldl (fun d p => d.update p.1.id (·.placed parent (some p.2))) d).contents := by
  induction moves generalizing d with
  | nil => exact orderly
  | cons p moves ih =>
    obtain ⟨first, later⟩ := List.forall_mem_cons.mp movable
    refine ih (orderly_update orderly _ (fun _ => rfl) fun r found kind => absurd ?_ first) fun q member => ?_
    · simpa [found] using kind
    · have same := @kind_update d p.1.id q.1.id (·.placed parent (some p.2)) fun _ => rfl
      exact same ▸ later q member

theorem insertBefore_cases (d : Document) (parent : Handle) (nodes : List Handle) (next : Option String) :
    (d.insertBefore parent nodes next).2 = d ∨ ∃ moves : List (Handle × String), (∀ p ∈ moves, d.isMovable p.1.id = true) ∧
      (d.insertBefore parent nodes next).2 = moves.foldl (fun d p => d.update p.1.id (·.placed parent.id (some p.2))) d := by
  rw [insertBefore]
  split
  · exact .inl rfl
  · dsimp only
    split
    · exact .inl rfl
    · refine .inr ⟨_, fun p member => ?_, rfl⟩
      have moved := (List.of_mem_zip member).1
      simp only [movedUnder, List.mem_filter, Bool.and_eq_true] at moved
      exact moved.2.2

theorem orderly_insertBefore {d : Document} (orderly : Orderly Q files d.contents) (parent : Handle) (nodes : List Handle)
    (next : Option String) : Orderly Q files (d.insertBefore parent nodes next).2.contents := by
  rcases d.insertBefore_cases parent nodes next with same | ⟨moves, movable, same⟩
  · rwa [same]
  · rw [same]
    apply orderly_moves orderly
    intro p member
    cases found : d.contents () p.1.id with
    | none => simp
    | some r => simpa using kind_of_isMovable orderly (movable p member) found

theorem removeAll_contents (ids : List String) (d : Document) (key : String) :
    (ids.foldl removeEntry d).contents () key = if key ∈ ids then none else d.contents () key := by
  induction ids generalizing d with
  | nil => simp
  | cons id ids ih =>
    have removed : (d.removeEntry id).contents = d.contents.put () id none := write_contents ..
    rw [List.foldl_cons, ih, removed]
    by_cases later : key ∈ ids
    · simp [later]
    · by_cases here : key = id <;> simp [Contents.put, later, here]

theorem removeBelow_contents (d : Document) (id key : String) (r : Record) :
    (d.removeBelow id).contents () key = some r ↔ d.contents () key = some r ∧ ¬ d.store.Below id key := by
  rw [removeBelow, removeAll_contents, ← Store.mem_postorder_trees]
  split <;> simp_all

theorem remove_contents (d : Document) (id key : String) (r : Record) :
    (d.remove id).contents () key = some r ↔ d.contents () key = some r ∧ ¬ (key = id ∨ d.store.Below id key) := by
  have removed : (d.remove id).contents = (d.removeBelow id).contents.put () id none := write_contents ..
  rw [removed]
  by_cases here : key = id
  · simp [Contents.put, here]
  · simp [Contents.put, here, removeBelow_contents]

theorem orderly_removeBelow {d : Document} (orderly : Orderly Q files d.contents) (id : String) :
    Orderly Q files (d.removeBelow id).contents := by
  refine orderly.erase _ (removeBelow_contents d id) fun child r parent found named below => ?_
  exact Store.below_of_child below found (by simp [Store.parentId, Placed.parent, named])

theorem orderly_remove {d : Document} (orderly : Orderly Q files d.contents) (id : String) : Orderly Q files (d.remove id).contents := by
  refine orderly.erase _ (remove_contents d id) fun child r parent found named gone => .inr ?_
  have under : Store.parentId r = parent := by simp [Store.parentId, Placed.parent, named]
  rcases gone with rfl | below
  · exact Store.below_self found under
  · exact Store.below_of_child below found under

theorem edited_insertBefore (d : Document) (parent : Handle) (nodes : List Handle) (next : Option String) :
    Edited d (d.insertBefore parent nodes next).2 := by
  rcases d.insertBefore_cases parent nodes next with same | ⟨moves, _, same⟩
  · rw [same]
    exact .nothing
  · rw [same]
    exact .foldl (fun d p => .of_update d _ _) moves d

theorem follows_apply {d : Document} (follows : d.Follows (Orderly Q d.files)) (e : Edit) :
    (e.apply d).Follows (Orderly Q (e.apply d).files) ∧ (e.apply d).files = d.files ∧ (e.apply d).classAttribute = d.classAttribute := by
  have orderly := follows.present
  have onward : ∀ d', Edited d d' → Orderly Q d.files d'.contents →
      d'.Follows (Orderly Q d'.files) ∧ d'.files = d.files ∧ d'.classAttribute = d.classAttribute := by
    intro d' edited holds
    rw [edited.files]
    exact ⟨follows.edited edited holds, rfl, edited.classAttribute⟩
  have moved := fun parent nodes next => onward _ (d.edited_insertBefore parent nodes next) (orderly_insertBefore orderly parent nodes next)
  cases e with
  | insertBefore parent nodes next => exact moved parent nodes next
  | append parent nodes => exact moved parent nodes none
  | delete id =>
    rw [Edit.apply, delete]
    split
    · exact onward _ (.of_remove d id) (orderly_remove orderly id)
    · exact onward d .nothing orderly
  | setClass id className =>
    rw [Edit.apply, setClass]
    split
    · exact onward _ (.of_update d id _) (orderly_update orderly id (fun _ => rfl) fun _ _ _ => rfl)
    · exact onward d .nothing orderly
  | setText id text =>
    rw [Edit.apply, setText]
    split
    · exact onward _ (.of_update d id _) (orderly_update orderly id (fun _ => rfl) fun _ _ _ => rfl)
    · exact onward d .nothing orderly
  | undo =>
    obtain ⟨_, _, files, classes⟩ := d.undo_eq
    exact ⟨files ▸ follows.undo, files, classes⟩
  | redo =>
    obtain ⟨_, _, files, classes⟩ := d.redo_eq
    exact ⟨files ▸ follows.redo, files, classes⟩

theorem follows_run {d : Document} (follows : d.Follows (Orderly Q d.files)) (edits : List (Nat × Edit)) :
    (d.run edits).Follows (Orderly Q (d.run edits).files) ∧ (d.run edits).files = d.files ∧
      (d.run edits).classAttribute = d.classAttribute := by
  induction edits generalizing d with
  | nil => exact ⟨follows, rfl, rfl⟩
  | cons e edits ih =>
    obtain ⟨later, files, classes⟩ := follows_apply (show Follows (Orderly Q d.files) { d with now := e.1 } from follows) e.2
    obtain ⟨last, files', classes'⟩ := ih later
    exact ⟨last, files'.trans files, classes'.trans classes⟩

theorem entries_formed {d : Document} (orderly : Orderly Q files d.contents) (closed : Rebuild.FormClosed d.classAttribute Q)
    (levels : Nat) (id : String) {q : Node × Node} (member : q ∈ Rebuild.entries d.classAttribute (d.store.treesUpTo levels id)) :
    Rebuild.Kept Q q ∧ (∃ child r, d.contents () child = some r ∧ Store.parentId r = id ∧ r.node? = some q.1) ∧
      ∃ r kids, q.2 = Rebuild.form d.classAttribute r kids q.1 ∧ ∀ k ∈ kids, Rebuild.Kept Q k := by
  induction levels generalizing id q with
  | zero => cases member
  | succ levels ih =>
    obtain ⟨t, listed, made⟩ := Rebuild.mem_entries.mp member
    obtain ⟨child, r, found, named, rfl⟩ := Store.mem_treesUpTo.mp listed
    rw [Rebuild.entry] at made
    split at made
    · rename_i n node
      cases made
      have kids := fun k member => @ih child k member
      have lists : Rebuild.Lists n (Rebuild.entries d.classAttribute (d.store.treesUpTo levels child)) := by
        intro markup k member other
        obtain ⟨_, ⟨below, s, held, under, source⟩, _⟩ := kids k member
        obtain ⟨path, f, root, _, _, parent, live, isFile⟩ := orderly.statements below s k.1 held source other
        obtain rfl : File.rootId path = child := by simpa [Store.parentId, Placed.parent, parent] using under
        obtain rfl : root = r := Option.some.inj (live.symm.trans found)
        simp [Record.isFile, node] at isFile
      have own := orderly.origins child r n found node
      have kept := fun k member => (kids k member).1
      refine ⟨⟨own, closed r n _ own kept lists, Rebuild.form_kind .., Rebuild.form_loc ..⟩, ⟨child, r, found, named, node⟩, r, _, rfl, kept⟩
    · cases made

end Document

end MarkupEditor
