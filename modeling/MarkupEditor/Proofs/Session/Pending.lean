import MarkupEditor.Proofs.Document.Opening
import MarkupEditor.Proofs.Store.ChildIndex
import MarkupEditor.Session.Basic

namespace MarkupEditor

theorem IdSet.mem_insertAll {s : IdSet} {ids : List String} {x : String} : x ∈ (s.insertAll ids).ids ↔ x ∈ s.ids ∨ x ∈ ids := by
  unfold insertAll
  induction ids generalizing s with
  | nil => simp
  | cons id ids ih => rw [List.foldl_cons, ih, mem_insert, List.mem_cons, or_assoc]

namespace Session

variable {σ : Type} {s s' s'' : Session σ} {path : String}

def text? (s : Session σ) (path : String) : Option String := (s.document.modifiedTree path).toOption.map SourceTree.print

def recorded (texts : String → Option String) (published : List PublishedEdit) : String → Option String :=
  published.foldl (fun texts e => Function.update texts e.path (some e.source)) texts

-- The sessions that can come about, each with the text that every file had when it was last opened, read again or written.
-- Files with the same seed are never open together, and only acts that are allowed are done. The storage may be changed by
-- others at any time, and may then refuse what it took before.
inductive Ran [Storage σ] (allowed : Document → Act → Prop) (config : Config) : Session σ → (String → Option String) → Prop
  | start (storage : σ) : Ran allowed config (new storage config) fun _ => none
  | opened {s s' : Session σ} {texts : String → Option String} {path : String} (ran : Ran allowed config s texts)
      (differ : File.SeedsDiffer (path :: s.document.files.map File.path)) (done : s.openFile path = .ok s') :
      Ran allowed config s' (if s.document.isLoaded path then texts else Function.update texts path (s'.text? path))
  | reopened {s s' : Session σ} {texts : String → Option String} {path : String} (ran : Ran allowed config s texts)
      (done : s.reopenFile path = .ok s') : Ran allowed config s' (Function.update texts path (s'.text? path))
  | closed {s s' : Session σ} {texts : String → Option String} {path : String} (ran : Ran allowed config s texts)
      (done : s.closeFile path = .ok s') : Ran allowed config s' texts
  | saved {s : Session σ} {texts : String → Option String} (ran : Ran allowed config s texts) :
      Ran allowed config s.save.2 (recorded texts (s.save.2.edits.sent.drop s.edits.sent.length))
  | edited {s : Session σ} {texts : String → Option String} (ran : Ran allowed config s texts) (now : Nat) {a : Act} (edits : a.isEdit = true)
      (allows : allowed { s.document with now } a) : Ran allowed config (s.edited (a.apply { s.document with now })) texts
  | advanced {s : Session σ} {texts : String → Option String} (ran : Ran allowed config s texts) (ms : Nat) : Ran allowed config (s.advance ms) texts
  | stored {s : Session σ} {texts : String → Option String} (ran : Ran allowed config s texts) (storage : σ) :
      Ran allowed config { s with storage } texts

theorem text?_congr (same : s'.document.modifiedTree path = s.document.modifiedTree path) : s'.text? path = s.text? path := by
  rw [text?, text?, same]

theorem recorded_of_mem {texts : String → Option String} {f : String → Option String} {published : List PublishedEdit}
    (sources : ∀ e ∈ published, f e.path = some e.source) (member : path ∈ published.map PublishedEdit.path ∨ texts path = f path) :
    recorded texts published path = f path := by
  unfold recorded
  induction published generalizing texts with
  | nil => exact member.resolve_left List.not_mem_nil
  | cons e published ih =>
    obtain ⟨first, later⟩ := List.forall_mem_cons.mp sources
    rw [List.foldl_cons]
    apply ih later
    rw [Function.update_apply]
    split
    · rename_i here
      exact .inr (here ▸ first.symm)
    · rename_i other
      exact member.imp_left fun listed => (List.mem_cons.mp listed).resolve_left other

theorem closeFile_cases (done : s.closeFile path = .ok s') :
    ∃ d active, s.document.close path = .ok d ∧ s' = { (s.withDocument d).forget path with active } := by
  unfold Session.closeFile at done
  split at done
  · cases done
  · rename_i d closed
    obtain rfl := Except.ok.inj done
    split
    · exact ⟨d, none, closed, rfl⟩
    · exact ⟨d, s.active, closed, rfl⟩

theorem openFile_cases [Storage σ] (done : s.openFile path = .ok s') : (s.document.isLoaded path = true ∧ s' = s.activate path) ∨
    s.document.isLoaded path = false ∧ ∃ tree root d, s.document.load path tree = .ok (root, d) ∧ s' = (s.withDocument d).activate path := by
  unfold Session.openFile at done
  split at done
  · rename_i loaded
    exact .inl ⟨loaded, (Except.ok.inj done).symm⟩
  · rename_i closed
    split at done
    · cases done
    · split at done
      · cases done
      · rename_i tree _ _ root d loaded
        exact .inr ⟨Bool.eq_false_iff.mpr closed, tree, root, d, loaded, (Except.ok.inj done).symm⟩

theorem reopenFile_cases [Storage σ] (done : s.reopenFile path = .ok s') :
    ∃ tree root d, s.document.reload path tree = .ok (root, d) ∧ s' = (s.withDocument d).forget path := by
  unfold Session.reopenFile at done
  split at done
  · split at done
    · cases done
    · split at done
      · cases done
      · rename_i tree _ _ root d loaded
        exact ⟨tree, root, d, loaded, (Except.ok.inj done).symm⟩
  · cases done

-- What saving does: it publishes the texts of files and changes none.
structure Wrote (s s' : Session σ) (published : List PublishedEdit) : Prop where
  kept : s'.document.WellKept
  files : s'.document.files.map File.path = s.document.files.map File.path
  forms : ∀ path, s'.document.modifiedTree path = s.document.modifiedTree path
  sent : s'.edits.sent = s.edits.sent ++ published
  sources : ∀ e ∈ published, s.text? e.path = some e.source

namespace Wrote

variable {published later : List PublishedEdit}

theorem nothing (kept : s.document.WellKept) (document : s'.document = s.document) (edits : s'.edits = s.edits) : Wrote s s' [] :=
  ⟨document ▸ kept, by rw [document], fun _ => by rw [document], by rw [edits, List.append_nil], fun _ member => by cases member⟩

theorem trans (first : Wrote s s' published) (second : Wrote s' s'' later) : Wrote s s'' (published ++ later) where
  kept := second.kept
  files := second.files.trans first.files
  forms path := (second.forms path).trans (first.forms path)
  sent := by rw [second.sent, first.sent, List.append_assoc]
  sources e member := by
    rcases List.mem_append.mp member with member | member
    · exact first.sources e member
    · rw [← text?_congr (first.forms e.path)]
      exact second.sources e member

theorem remark (wrote : Wrote s s' published) (pending : IdSet) : Wrote s { s' with pending } published :=
  ⟨wrote.kept, wrote.files, wrote.forms, wrote.sent, wrote.sources⟩

end Wrote

-- The open files are kept apart, and those that are not marked have the texts given.
structure Tracked (s : Session σ) (texts : String → Option String) : Prop where
  kept : s.document.WellKept
  unmarked : ∀ path ∈ s.document.files.map File.path, path ∉ s.pending.ids → s.text? path = texts path

namespace Tracked

variable {texts texts' : String → Option String}

theorem spared (tracked : Tracked s texts) (kept : s'.document.WellKept) (spares : Document.Spares path s.document s'.document)
    (marks : ∀ other, other ≠ path → other ∈ s.pending.ids → other ∈ s'.pending.ids) (elsewhere : ∀ other, other ≠ path → texts' other = texts other)
    (here : path ∈ s'.document.files.map File.path → s'.text? path = texts' path) : Tracked s' texts' := by
  refine ⟨kept, fun other loaded unmarked => ?_⟩
  by_cases same : other = path
  · subst same
    exact here loaded
  · obtain ⟨before, form⟩ := (spares other loaded).resolve_left same
    rw [text?_congr form, elsewhere other same]
    exact tracked.unmarked other before fun marked => unmarked (marks other same marked)

theorem read (tracked : Tracked s texts) (kept : s'.document.WellKept) (spares : Document.Spares path s.document s'.document)
    (marks : ∀ other, other ≠ path → other ∈ s.pending.ids → other ∈ s'.pending.ids) : Tracked s' (Function.update texts path (s'.text? path)) :=
  tracked.spared kept spares marks (fun _ differs => Function.update_of_ne differs _ _) fun _ => (Function.update_self path _ texts).symm

theorem closeFile (tracked : Tracked s texts) (done : s.closeFile path = .ok s') : Tracked s' texts := by
  obtain ⟨d, active, closed, rfl⟩ := closeFile_cases done
  obtain ⟨kept, spares, gone⟩ := tracked.kept.close closed
  exact tracked.spared (kept.viewed ⟨rfl, rfl, rfl, rfl, rfl⟩) spares (fun _ differs marked => IdSet.mem_erase.mpr ⟨marked, differs⟩)
    (fun _ _ => rfl) fun still => absurd still gone

theorem edited (tracked : Tracked s texts) (now : Nat) {a : Act} (edits : a.isEdit = true)
    (inside : Document.StaysInside { s.document with now } a) : Tracked (s.edited (a.apply { s.document with now })) texts := by
  have timed : Document.WellKept { s.document with now } := tracked.kept.viewed ⟨rfl, rfl, rfl, rfl, rfl⟩
  obtain ⟨kept, files, each⟩ := timed.apply edits inside
  generalize a.apply { s.document with now } = d at kept files each
  have document : (s.edited d).document = { d with touched := [] } := by
    unfold Session.edited
    split <;> rfl
  have marks : ∀ path, path ∉ (s.edited d).pending.ids → path ∉ s.pending.ids ∧ path ∉ d.touched := by
    intro path
    unfold Session.edited
    split
    · rename_i none_
      rw [List.isEmpty_iff.mp none_]
      exact fun unmarked => ⟨unmarked, List.not_mem_nil⟩
    · intro unmarked
      exact not_or.mp fun either => unmarked (IdSet.mem_insertAll.mpr either)
  refine ⟨document ▸ kept.viewed ⟨rfl, rfl, rfl, rfl, rfl⟩, fun path loaded unmarked => ?_⟩
  obtain ⟨before, untouched⟩ := marks path unmarked
  have loaded : path ∈ s.document.files.map File.path := by
    rw [document] at loaded
    exact files ▸ loaded
  have form := (each path loaded).resolve_left untouched
  rw [← tracked.unmarked path loaded before]
  apply text?_congr
  rw [document]
  exact form

end Tracked

variable [Storage σ]

theorem wrote_saveFile (kept : s.document.WellKept) (path : String) :
    ∃ published, Wrote s (s.saveFile path).2 published ∧ ((s.saveFile path).1 = none → path ∈ published.map PublishedEdit.path) := by
  unfold saveFile
  split
  · exact ⟨[], .nothing kept rfl rfl, fun failed => by cases failed⟩
  · rename_i tree present
    dsimp only
    split
    · exact ⟨[], .nothing kept rfl rfl, fun failed => by cases failed⟩
    · have text : s.text? path = some tree.print := by rw [text?, present]; rfl
      have sources : ∀ e ∈ [(⟨path, tree.print⟩ : PublishedEdit)], s.text? e.path = some e.source := by
        intro e member
        rw [List.mem_singleton.mp member]
        exact text
      split
      · exact ⟨_, ⟨kept, rfl, fun _ => rfl, rfl, sources⟩, fun _ => List.mem_cons_self⟩
      · rename_i d numbered
        obtain ⟨after, paths, forms⟩ := kept.renumber numbered
        exact ⟨_, ⟨after.viewed ⟨rfl, rfl, rfl, rfl, rfl⟩, paths, forms, rfl, sources⟩, fun _ => List.mem_cons_self⟩

theorem wrote_saveAll (kept : s.document.WellKept) (saved paths : List String) :
    ∃ published, Wrote s (s.saveAll saved paths).2 published ∧ ∀ path ∈ paths, path ∈ s.document.files.map File.path →
      path ∈ published.map PublishedEdit.path ∨ path ∈ (s.saveAll saved paths).2.pending.ids := by
  induction paths generalizing s saved with
  | nil => exact ⟨[], .nothing kept rfl rfl, fun _ member => by cases member⟩
  | cons first rest ih =>
    rw [saveAll]
    split
    · obtain ⟨published, wrote, written⟩ := wrote_saveFile kept first
      split
      · rename_i s' done
        rw [done] at wrote written
        obtain ⟨later, wrote', covered⟩ := ih wrote.kept (saved ++ [first])
        refine ⟨published ++ later, wrote.trans wrote', fun path member loaded => ?_⟩
        rw [List.map_append, List.mem_append]
        rcases List.mem_cons.mp member with rfl | member
        · exact .inl (.inl (written rfl))
        · exact (covered path member (wrote.files ▸ loaded)).imp_left .inr
      · rename_i e s' failed
        rw [failed] at wrote
        exact ⟨published, wrote.remark _, fun path member _ => .inr (IdSet.mem_insertAll.mpr (.inr member))⟩
    · rename_i closed
      obtain ⟨published, wrote, covered⟩ := ih kept saved
      refine ⟨published, wrote, fun path member loaded => ?_⟩
      rcases List.mem_cons.mp member with rfl | member
      · exact absurd (Document.isLoaded_iff.mpr loaded) closed
      · exact covered path member loaded

namespace Tracked

variable {texts : String → Option String}

theorem openFile (tracked : Tracked s texts) (differ : File.SeedsDiffer (path :: s.document.files.map File.path)) (done : s.openFile path = .ok s') :
    Tracked s' (if s.document.isLoaded path then texts else Function.update texts path (s'.text? path)) := by
  rcases openFile_cases done with ⟨loaded, rfl⟩ | ⟨closed, tree, root, d, loaded, rfl⟩
  · rw [if_pos loaded]
    exact ⟨tracked.kept, tracked.unmarked⟩
  · rw [if_neg (Bool.eq_false_iff.mp closed)]
    obtain ⟨kept, spares⟩ := tracked.kept.load closed differ loaded
    exact tracked.read (kept.viewed ⟨rfl, rfl, rfl, rfl, rfl⟩) spares fun _ _ marked => marked

theorem reopenFile (tracked : Tracked s texts) (done : s.reopenFile path = .ok s') : Tracked s' (Function.update texts path (s'.text? path)) := by
  obtain ⟨tree, root, d, loaded, rfl⟩ := reopenFile_cases done
  obtain ⟨kept, spares⟩ := tracked.kept.reload loaded
  exact tracked.read (kept.viewed ⟨rfl, rfl, rfl, rfl, rfl⟩) spares fun _ differs marked => IdSet.mem_erase.mpr ⟨marked, differs⟩

theorem save (tracked : Tracked s texts) : Tracked s.save.2 (recorded texts (s.save.2.edits.sent.drop s.edits.sent.length)) := by
  unfold Session.save
  split
  · rw [List.drop_length]
    exact tracked
  · rename_i deadline _
    generalize settled : ({ s with clock := max s.clock deadline, deadline := none, pending := {} } : Session σ) = s₀
    have document : s₀.document = s.document := by rw [← settled]
    have edits : s₀.edits = s.edits := by rw [← settled]
    obtain ⟨published, wrote, covered⟩ := wrote_saveAll (s := s₀) (document ▸ tracked.kept) [] s.pending.ids
    rw [wrote.sent, edits, List.drop_left]
    refine ⟨wrote.kept, fun path loaded unmarked => ?_⟩
    have before : path ∈ s.document.files.map File.path := document ▸ wrote.files ▸ loaded
    have text : s₀.text? path = s.text? path := text?_congr (by rw [document])
    rw [text?_congr (wrote.forms path)]
    refine (recorded_of_mem wrote.sources ?_).symm
    by_cases marked : path ∈ s.pending.ids
    · exact .inl ((covered path marked (wrote.files ▸ loaded)).resolve_right unmarked)
    · exact .inr ((tracked.unmarked path before marked).symm.trans text.symm)

end Tracked

theorem tracked_of_ran {config : Config} {texts : String → Option String} (ran : Ran Document.StaysInside config s texts) : Tracked s texts := by
  induction ran with
  | start storage => exact ⟨.new .., fun _ loaded => by cases loaded⟩
  | opened _ differ done ih => exact ih.openFile differ done
  | reopened _ done ih => exact ih.reopenFile done
  | closed _ done ih => exact ih.closeFile done
  | saved _ ih => exact ih.save
  | edited _ now edits inside ih => exact ih.edited now edits inside
  | advanced _ ms ih => exact ⟨ih.kept, ih.unmarked⟩
  | stored _ storage ih => exact ⟨ih.kept, ih.unmarked⟩

-- An open file that is not marked for saving has the text that it had when it was last opened, read again or written.
theorem unmarked_as_recorded {config : Config} {texts : String → Option String} (ran : Ran Document.StaysInside config s texts)
    (loaded : s.document.isLoaded path = true) (unmarked : path ∉ s.pending.ids) :
    ∃ tree, s.document.modifiedTree path = .ok tree ∧ texts path = some tree.print := by
  have text := (tracked_of_ran ran).unmarked path (Document.isLoaded_iff.mp loaded) unmarked
  obtain ⟨f, found⟩ := Option.isSome_iff_exists.mp loaded
  have present : s.document.modifiedTree path = .ok (Rebuild.file s.document.classAttribute f.tree (s.document.store.trees (File.rootId path))) := by
    rw [Document.modifiedTree, found]
  refine ⟨_, present, text.symm.trans ?_⟩
  rw [text?, present]
  rfl

def drafts : MemoryFiles := { texts := (Store.empty.set "a.jsx" "x = <p><b /></p>;").set "b.jsx" "y = <div></div>;" }

def draftsOpened : Option (Session MemoryFiles) :=
  ((new drafts {}).openFile "a.jsx").toOption.bind fun s => (s.openFile "b.jsx").toOption

theorem ran_draftsOpened (allowed : Document → Act → Prop) :
    ∃ s texts, draftsOpened = some s ∧ Ran allowed {} s texts ∧ texts "a.jsx" = some "x = <p><b /></p>;" := by
  have shown : (((new drafts {}).openFile "a.jsx").toOption.bind fun s => (s.openFile "b.jsx").toOption.map fun _ =>
      (s.document.files.map File.path, s.text? "a.jsx")) = some (["a.jsx"], some "x = <p><b /></p>;") := by
    decide +kernel
  simp only [Option.bind_eq_some_iff, Option.map_eq_some_iff] at shown
  obtain ⟨s, first, s', second, facts⟩ := shown
  obtain ⟨files, text⟩ := Prod.mk.inj facts
  have none_ : ¬ (new drafts {}).document.isLoaded "a.jsx" = true := by decide
  have alone : File.SeedsDiffer ("a.jsx" :: (new drafts {}).document.files.map File.path) := by
    unfold File.SeedsDiffer
    decide +kernel
  have apart : File.SeedsDiffer ("b.jsx" :: s.document.files.map File.path) := by
    rw [files]
    unfold File.SeedsDiffer
    decide +kernel
  have one : ¬ s.document.isLoaded "b.jsx" = true := by
    rw [Document.isLoaded_iff, files]
    decide
  have opened : Ran allowed {} s _ := .opened (.start drafts) alone (Document.eq_ok_of_toOption first)
  refine ⟨s', _, ?_, .opened opened apart (Document.eq_ok_of_toOption second), ?_⟩
  · exact Option.bind_eq_some_iff.mpr ⟨s, first, second⟩
  · rw [if_neg one, if_neg none_, Function.update_of_ne (by decide), Function.update_self, text]

def widen (id : String) (s : Session MemoryFiles) : Session MemoryFiles :=
  (s.edited ((Act.setClass id "wide").apply { s.document with now := 0 })).save.2

-- The element of the second file becomes wide after that of the first, when nothing can be written any more.
def widened (s : Session MemoryFiles) : Session MemoryFiles :=
  let s := widen (File.nodeId "a.jsx" 0 2) s
  widen (File.nodeId "b.jsx" 0 2) { s with storage := { s.storage with refusing := true } }

theorem unmarked_as_recorded_widened :
    ∃ s texts tree, draftsOpened.map widened = some s ∧ Ran Document.StaysInside {} s texts ∧ s.document.isLoaded "a.jsx" = true ∧
      s.pending.ids = ["b.jsx"] ∧ s.document.modifiedTree "a.jsx" = .ok tree ∧ texts "a.jsx" = some tree.print ∧
        tree.print = "x = <p className=\"wide\"><b /></p>;" := by
  obtain ⟨s, texts, opened, ran, _⟩ := ran_draftsOpened Document.StaysInside
  have shown : (draftsOpened.map widened).map (fun s => (s.document.isLoaded "a.jsx", s.pending.ids, s.text? "a.jsx")) =
      some (true, ["b.jsx"], some "x = <p className=\"wide\"><b /></p>;") := by
    decide +kernel
  rw [opened, Option.map_some, Option.map_some] at shown
  obtain ⟨loaded, pending, text⟩ := by simpa only [Option.some.injEq, Prod.mk.injEq] using shown
  have ran_widen : ∀ {s : Session MemoryFiles} {texts : String → Option String} (id : String), Ran Document.StaysInside {} s texts →
      ∃ texts', Ran Document.StaysInside {} (widen id s) texts' :=
    fun id ran => ⟨_, (ran.edited 0 rfl fun _ _ _ moves => by cases moves).saved⟩
  obtain ⟨_, ran⟩ := ran_widen (File.nodeId "a.jsx" 0 2) ran
  obtain ⟨_, ran⟩ := ran_widen (File.nodeId "b.jsx" 0 2) (ran.stored { (widen (File.nodeId "a.jsx" 0 2) s).storage with refusing := true })
  obtain ⟨tree, present, same⟩ := unmarked_as_recorded (s := widened s) ran loaded (by rw [pending]; decide)
  refine ⟨widened s, _, tree, by rw [opened]; rfl, ran, loaded, pending, present, same, ?_⟩
  rw [text?, present] at text
  exact Option.some.inj text

def handedOver (s : Session MemoryFiles) : Session MemoryFiles :=
  s.edited ((Act.append (File.nodeId "b.jsx" 0 2) [File.nodeId "a.jsx" 0 3]).apply { s.document with now := 0 })

-- A move to another file marks only that one.
theorem unmarked_after_move :
    ¬ ∀ (s : Session MemoryFiles) (texts : String → Option String) (path : String), Ran (fun _ _ => True) {} s texts →
      s.document.isLoaded path = true → path ∉ s.pending.ids → ∃ tree, s.document.modifiedTree path = .ok tree ∧ texts path = some tree.print := by
  intro recorded
  obtain ⟨s, texts, opened, ran, text⟩ := ran_draftsOpened fun _ _ => True
  have shown : (draftsOpened.map handedOver).map (fun s => (s.document.isLoaded "a.jsx", s.pending.ids, s.text? "a.jsx")) =
      some (true, ["b.jsx"], some "x = <p></p>;") := by
    decide +kernel
  rw [opened, Option.map_some, Option.map_some] at shown
  obtain ⟨loaded, pending, now⟩ := by simpa only [Option.some.injEq, Prod.mk.injEq] using shown
  obtain ⟨tree, present, same⟩ := recorded (handedOver s) texts "a.jsx" (ran.edited 0 rfl trivial) loaded (by rw [pending]; decide)
  rw [text?, present] at now
  rw [text] at same
  exact absurd (same.trans now) (by decide)

end Session

end MarkupEditor
