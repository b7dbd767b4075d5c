import MarkupEditor.Proofs.Document.Renumbering
import MarkupEditor.Proofs.Session.Pending
import MarkupEditor.Proofs.Storage.Files

namespace MarkupEditor

theorem IdSet.ids_insertAll {s : IdSet} {ids : List String} (nodup : (s.ids ++ ids).Nodup) : (s.insertAll ids).ids = s.ids ++ ids := by
  unfold insertAll
  induction ids generalizing s with
  | nil => simp
  | cons id ids ih =>
    have absent : id ∉ s.ids := fun listed => (List.nodup_append.mp nodup).2.2 id listed id List.mem_cons_self rfl
    have added : (s.insert id).ids = s.ids ++ [id] := by simp [insert, absent]
    rw [List.foldl_cons, ih (by rw [added, List.append_assoc]; exact nodup), added, List.append_assoc, List.singleton_append]

section

variable {σ : Type} [Storage σ]

inductive Takes : σ → List PublishedEdit → σ → Prop
  | nothing (m : σ) : Takes m [] m
  | text {m m' m'' : σ} {e : PublishedEdit} {rest : List PublishedEdit} (taken : Storage.save m e.path e.source = (m', none))
      (later : Takes m' rest m'') : Takes m (e :: rest) m''

-- What is stored after some texts were taken, one after another. A path loads the text that it was written with, unless a later
-- one was written to the same file.
structure Stored (files : Storage.Files σ) (m : σ) (written : List PublishedEdit) (m' : σ) : Prop where
  named : files.named m' = files.named m
  last : ∀ earlier e later, written = earlier ++ e :: later → (∀ e' ∈ later, files.named m e'.path ≠ files.named m e.path) →
    Storage.load m' e.path = .ok e.source
  others : ∀ file, (∀ e ∈ written, files.named m e.path ≠ file) → files.text? m' file = files.text? m file
  kept : ∀ path text, (∀ e ∈ written, files.named m e.path ≠ files.named m path) → Storage.load m path = .ok text →
    Storage.load m' path = .ok text

theorem Takes.stored {m m' : σ} {written : List PublishedEdit} (takes : Takes m written m') (files : Storage.Files σ) :
    Stored files m written m' := by
  induction takes with
  | nothing m => exact ⟨rfl, fun earlier e later cut => absurd cut (by simp), fun _ _ => rfl, fun _ _ _ => id⟩
  | @text m m₁ m₂ e rest taken _ ih =>
    have named := files.stays taken
    constructor
    case named => exact ih.named.trans named
    case last =>
      intro earlier e' later cut differs
      cases earlier with
      | nil =>
        obtain ⟨rfl, rfl⟩ := List.cons.inj cut
        exact ih.kept _ _ (named ▸ differs) (files.taken taken)
      | cons first earlier =>
        obtain ⟨rfl, rfl⟩ := List.cons.inj cut
        exact ih.last earlier e' later rfl (named ▸ differs)
    case others =>
      intro file differs
      obtain ⟨first, later⟩ := List.forall_mem_cons.mp differs
      exact (ih.others file (named ▸ later)).trans (files.others taken fun _ => first.symm)
    case kept =>
      intro path text differs stored
      obtain ⟨first, later⟩ := List.forall_mem_cons.mp differs
      exact ih.kept path text (named ▸ later) (files.kept taken (fun _ => first.symm) stored)

theorem Stored.refused {files : Storage.Files σ} {m m' m'' : σ} {written : List PublishedEdit} {path text : String} {fault : FileFault}
    (stored : Stored files m written m') (refused : Storage.save m' path text = (m'', some fault)) : Stored files m written m'' where
  named := (files.stays refused).trans stored.named
  last earlier e later cut differs := files.kept refused nofun (stored.last earlier e later cut differs)
  others file differs := (files.others refused nofun).trans (stored.others file differs)
  kept path text differs loaded := files.kept refused nofun (stored.kept path text differs loaded)

structure Writes (d : Document) (m : σ) (paths : List String) (written : List PublishedEdit) (m' : σ) : Prop where
  paths : written.map PublishedEdit.path = paths.filter d.isLoaded
  sources : ∀ e ∈ written, ∃ tree, d.modifiedTree e.path = .ok tree ∧ e.source = tree.print
  takes : Takes m written m'

-- All files are written, or one write fails and leaves that file and those after it marked.
inductive SaveOutcome (d : Document) (m : σ) : List String → List PublishedEdit → Except SessionError (List String) × Session σ → Prop
  | done {paths : List String} {written : List PublishedEdit} {s : Session σ} (writes : Writes d m paths written s.storage)
      (unmarked : s.pending.ids = []) : SaveOutcome d m paths written (.ok (paths.filter d.isLoaded), s)
  | failed {before after : List String} {path : String} {written : List PublishedEdit} {m' : σ} {tree : SourceTree} {fault : FileFault} {s : Session σ}
      (writes : Writes d m before written m') (loaded : d.isLoaded path = true) (present : d.modifiedTree path = .ok tree)
      (refused : Storage.save m' path tree.print = (s.storage, some fault)) (marked : s.pending.ids = path :: after) :
      SaveOutcome d m (before ++ path :: after) written (.error (.io fault), s)

section

variable {d d' : Document} {m m' m'' : σ} {path : String} {paths : List String} {written : List PublishedEdit} {tree : SourceTree}

theorem Writes.skip (writes : Writes d m paths written m') (closed : ¬ d.isLoaded path = true) : Writes d m (path :: paths) written m' :=
  ⟨writes.paths.trans (List.filter_cons_of_neg closed).symm, writes.sources, writes.takes⟩

-- A write that failed stored nothing, so what is stored is what was published.
theorem SaveOutcome.stored {r : Except SessionError (List String) × Session σ} (outcome : SaveOutcome d m paths written r)
    (files : Storage.Files σ) : Stored files m written r.2.storage := by
  cases outcome with
  | done writes _ => exact writes.takes.stored files
  | failed writes _ _ refused _ => exact (writes.takes.stored files).refused refused

theorem SaveOutcome.skip {r : Except SessionError (List String) × Session σ} (outcome : SaveOutcome d m paths written r) (closed : ¬ d.isLoaded path = true) :
    SaveOutcome d m (path :: paths) written r := by
  cases outcome with
  | done writes unmarked =>
    rw [← List.filter_cons_of_neg closed]
    exact .done (writes.skip closed) unmarked
  | @failed before after path' written m' tree fault s writes loaded present refused marked =>
    rw [← List.cons_append]
    exact .failed (writes.skip closed) loaded present refused marked

variable (loaded : d.isLoaded path = true) (present : d.modifiedTree path = .ok tree) (taken : Storage.save m path tree.print = (m', none))
  (same : ∀ path, d'.isLoaded path = d.isLoaded path) (forms : ∀ path, d'.modifiedTree path = d.modifiedTree path)

include loaded present taken same forms

theorem Writes.cons (writes : Writes d' m' paths written m'') : Writes d m (path :: paths) (⟨path, tree.print⟩ :: written) m'' where
  paths := by
    rw [List.map_cons, List.filter_cons_of_pos loaded, writes.paths]
    exact congrArg (path :: ·) (List.filter_congr fun other _ => same other)
  sources e member := by
    rcases List.mem_cons.mp member with rfl | member
    · exact ⟨tree, present, rfl⟩
    · rw [← forms]
      exact writes.sources e member
  takes := .text taken writes.takes

theorem SaveOutcome.cons {s : Session σ} {result : Except SessionError (List String)} (outcome : SaveOutcome d' m' paths written (result, s)) :
    SaveOutcome d m (path :: paths) (⟨path, tree.print⟩ :: written) (result.map (path :: ·), s) := by
  cases outcome with
  | done writes unmarked =>
    have open_ : path :: paths.filter d'.isLoaded = (path :: paths).filter d.isLoaded := by
      rw [List.filter_cons_of_pos loaded]
      exact congrArg (path :: ·) (List.filter_congr fun other _ => same other)
    rw [Except.map, open_]
    exact .done (writes.cons loaded present taken same forms) unmarked
  | @failed before after path' written m₁ tree' fault s writes loaded' present' refused marked =>
    rw [← List.cons_append]
    exact .failed (writes.cons loaded present taken same forms) (same path' ▸ loaded') (forms path' ▸ present') refused marked

end

namespace Session

variable {s s' s'' : Session σ} {path : String}

section

omit [Storage σ]

def HasRoots (d : Document) : Prop := ∀ path, d.isLoaded path = true → (d.fileRoot? path).isSome = true

structure Alike (s s' : Session σ) : Prop where
  store : s'.document.store = s.document.store
  instances : s'.document.instances = s.document.instances
  loaded : ∀ path, s'.document.isLoaded path = s.document.isLoaded path
  forms : ∀ path, s'.document.modifiedTree path = s.document.modifiedTree path
  deadline : s'.deadline = s.deadline

theorem Alike.trans (first : Alike s s') (second : Alike s' s'') : Alike s s'' where
  store := second.store.trans first.store
  instances := second.instances.trans first.instances
  loaded path := (second.loaded path).trans (first.loaded path)
  forms path := (second.forms path).trans (first.forms path)
  deadline := second.deadline.trans first.deadline

theorem Alike.hasRoots (alike : Alike s s') (roots : HasRoots s.document) : HasRoots s'.document := by
  intro path loaded
  have held := roots path (alike.loaded path ▸ loaded)
  rwa [Document.fileRoot?, Document.handle?, ← alike.instances] at held

end

theorem saveFile_cases (roots : HasRoots s.document) (loaded : s.document.isLoaded path = true) :
    ∃ tree, s.document.modifiedTree path = .ok tree ∧
      ((∃ m s', Storage.save s.storage path tree.print = (m, none) ∧ s.saveFile path = (none, s') ∧ s'.storage = m ∧
          s'.edits.sent = s.edits.sent ++ [⟨path, tree.print⟩] ∧ s'.pending = s.pending ∧ Alike s s') ∨
        ∃ m fault, Storage.save s.storage path tree.print = (m, some fault) ∧ s.saveFile path = (some (.io fault), { s with storage := m })) := by
  obtain ⟨f, found⟩ := Option.isSome_iff_exists.mp loaded
  obtain ⟨tree, present⟩ : ∃ tree, s.document.modifiedTree path = .ok tree := ⟨_, by rw [Document.modifiedTree, found]⟩
  obtain ⟨root, held⟩ := Option.isSome_iff_exists.mp (roots path loaded)
  have live : s.document.node (File.rootId path) = .ok root := by
    rw [Document.fileRoot?] at held
    rw [Document.node, held]
  refine ⟨tree, present, ?_⟩
  rcases saved : Storage.save s.storage path tree.print with ⟨m, fault | fault⟩
  · left
    have numbered := Document.renumber_eq found present live
    obtain ⟨_, paths, forms⟩ := Document.renumber_frame numbered
    have done : s.saveFile path = (none, { s with storage := m, edits := s.edits.publish ⟨path, tree.print⟩ }.withDocument
        (s.document.renumberedAs f tree)) := by
      simp only [saveFile, present, saved, numbered]
    refine ⟨m, _, rfl, done, rfl, rfl, rfl, rfl, rfl, fun other => ?_, forms, rfl⟩
    apply Bool.eq_iff_iff.mpr
    rw [Document.isLoaded_iff, Document.isLoaded_iff]
    exact paths ▸ Iff.rfl
  · right
    exact ⟨m, fault, rfl, by simp only [saveFile, present, saved]⟩

theorem saveAll_saved (saved paths : List String) :
    s.saveAll saved paths = ((s.saveAll [] paths).1.map (saved ++ ·), (s.saveAll [] paths).2) := by
  induction paths generalizing s saved with
  | nil => simp [saveAll, Except.map]
  | cons path rest ih =>
    rw [saveAll, saveAll]
    split
    · split
      · rename_i s' _
        rw [ih (saved ++ [path]), ih ([] ++ [path])]
        cases (s'.saveAll [] rest).1 <;> simp [Except.map]
      · rfl
    · exact ih saved

theorem outcome_saveAll (roots : HasRoots s.document) {paths : List String} (distinct : paths.Nodup) (unmarked : s.pending.ids = []) :
    ∃ written, SaveOutcome s.document s.storage paths written (s.saveAll [] paths) ∧
      (s.saveAll [] paths).2.edits.sent = s.edits.sent ++ written ∧ Alike s (s.saveAll [] paths).2 := by
  induction paths generalizing s with
  | nil => exact ⟨[], .done ⟨rfl, nofun, .nothing _⟩ unmarked, (List.append_nil _).symm, ⟨rfl, rfl, fun _ => rfl, fun _ => rfl, rfl⟩⟩
  | cons path rest ih =>
    obtain ⟨fresh, distinct'⟩ := List.nodup_cons.mp distinct
    rw [saveAll]
    split
    · rename_i loaded
      obtain ⟨tree, present, ⟨m, s', taken, done, storage, sent, pending, alike⟩ | ⟨m, fault, refused, failed⟩⟩ := saveFile_cases roots loaded
      · rw [done]
        dsimp only
        rw [List.nil_append, saveAll_saved]
        obtain ⟨written, outcome, sent', alike'⟩ := ih (alike.hasRoots roots) distinct' (pending ▸ unmarked)
        refine ⟨⟨path, tree.print⟩ :: written, (storage ▸ outcome).cons loaded present taken alike.loaded alike.forms, ?_, alike.trans alike'⟩
        rw [sent', sent, List.append_assoc, List.singleton_append]
      · rw [failed]
        refine ⟨[], ?_, (List.append_nil _).symm, ⟨rfl, rfl, fun _ => rfl, fun _ => rfl, rfl⟩⟩
        rw [← List.nil_append (path :: rest)]
        exact .failed ⟨rfl, nofun, .nothing _⟩ loaded present refused (IdSet.ids_insertAll (s := {}) distinct)
    · rename_i closed
      obtain ⟨written, outcome, others⟩ := ih roots distinct' unmarked
      exact ⟨written, outcome.skip closed, others⟩

theorem save_due {deadline : Nat} (due : s.deadline = some deadline) :
    s.save = saveAll { s with clock := max s.clock deadline, deadline := none, pending := {} } [] s.pending.ids := by
  rw [save, due]

-- Unless there was an edit nothing happens. Otherwise every marked file that is open is written and published once, or
-- the first one that could not be written is marked again with those after it. What is stored is what was published: of
-- texts written to one file, under whatever paths, the last one.
theorem save_accounts_for_all (roots : HasRoots s.document) :
    (s.deadline = none → s.save = (.ok [], s)) ∧
    (s.deadline ≠ none → ∃ written, SaveOutcome s.document s.storage s.pending.ids written s.save ∧
      s.save.2.edits.sent = s.edits.sent ++ written ∧
      ∀ files : Storage.Files σ, Stored files s.storage written s.save.2.storage) ∧
    s.save.2.deadline = none ∧ s.save.2.document.store = s.document.store := by
  cases due : s.deadline with
  | none =>
    have idle : s.save = (.ok [], s) := by rw [save, due]
    exact ⟨fun _ => idle, fun waiting => absurd rfl waiting, by rw [idle, due], by rw [idle]⟩
  | some deadline =>
    obtain ⟨written, outcome, sent, alike⟩ := outcome_saveAll
      (s := { s with clock := max s.clock deadline, deadline := none, pending := {} }) roots s.pending.nodup rfl
    rw [save_due due]
    exact ⟨nofun, fun _ => ⟨written, outcome, sent, outcome.stored⟩, alike.deadline, alike.store⟩

def shelf : DiskFiles where
  directory := "/p"
  tree := ⟨[("p", .directory [("a.jsx", .file (Text.encode "x = <p />;")), ("b.jsx", .file (Text.encode "y = <b />;")),
    ("c.jsx", .file (Text.encode "z = <i />;"))])]⟩

-- One file is open under two paths, with different edits, and another one was closed after it was marked.
def marked : Option (Session DiskFiles) :=
  (["a.jsx", "b.jsx", "c.jsx", "./a.jsx"].foldlM (fun (s : Session DiskFiles) path => (s.openFile path).toOption) (new shelf {})).map fun s =>
    [Act.setClass (File.nodeId "a.jsx" 0 2) "one", .close "c.jsx", .setClass (File.nodeId "b.jsx" 0 2) "wide",
      .setClass (File.nodeId "./a.jsx" 0 2) "two"].foldl (fun s a => s.edited (a.apply s.document)) s

theorem marked_facts : ∃ s, marked = some s ∧ HasRoots s.document ∧ s.deadline = some 100 ∧
    s.pending.ids = ["a.jsx", "c.jsx", "b.jsx", "./a.jsx"] ∧ s.edits.sent = [] := by
  have shown : marked.map (fun s => (s.document.files.all fun f => (s.document.fileRoot? f.path).isSome, s.deadline, s.pending.ids,
      s.edits.sent)) = some (true, some 100, ["a.jsx", "c.jsx", "b.jsx", "./a.jsx"], []) := by
    decide +kernel
  obtain ⟨s, made, shown⟩ := Option.map_eq_some_iff.mp shown
  simp only [Prod.mk.injEq] at shown
  obtain ⟨held, facts⟩ := shown
  refine ⟨s, made, fun path loaded => ?_, facts⟩
  obtain ⟨f, listed, rfl⟩ := List.mem_map.mp (Document.isLoaded_iff.mp loaded)
  exact List.all_eq_true.mp held f listed

-- When both of its paths are saved the file has the text of the second.
theorem save_overwrites : ¬ ∀ s : Session DiskFiles, HasRoots s.document → s.deadline ≠ none → ∀ paths, s.save.1 = .ok paths →
    ∀ path ∈ paths, ∃ tree, s.document.modifiedTree path = .ok tree ∧ Storage.load s.save.2.storage path = .ok tree.print := by
  intro stored
  obtain ⟨s, made, roots, due, pending, _⟩ := marked_facts
  have shown : marked.map (fun s =>
      let saved := saveAll { s with clock := max s.clock 100, deadline := none, pending := {} } [] ["a.jsx", "c.jsx", "b.jsx", "./a.jsx"]
      (s.text? "a.jsx", saved.1.toOption, (Storage.load saved.2.storage "a.jsx").toOption)) =
      some (some "x = <p className=\"one\" />;", some ["a.jsx", "b.jsx", "./a.jsx"], some "x = <p className=\"two\" />;") := by
    decide +kernel
  simp only [made, Option.map_some, ← pending, ← save_due due, Option.some.injEq, Prod.mk.injEq] at shown
  obtain ⟨text, paths, loaded⟩ := shown
  obtain ⟨tree, present, same⟩ := stored s roots (by rw [due]; exact Option.some_ne_none _) _ (Document.eq_ok_of_toOption paths) "a.jsx" (by simp)
  rw [text?, present] at text
  rw [same] at loaded
  exact absurd (text.symm.trans loaded) (by decide)

def blocked : DiskFiles where
  directory := "/p"
  tree := ⟨[("p", .directory [("a.jsx", .file (Text.encode "x = <p />;")), ("b.jsx", .directory [])])]⟩

def block (s : Session DiskFiles) : Session DiskFiles := { s with storage := blocked }

theorem save_marked {s : Session DiskFiles} (made : marked = some s) (due : s.deadline = some 100)
    (pending : s.pending.ids = ["a.jsx", "c.jsx", "b.jsx", "./a.jsx"]) :
    s.save.2.edits.sent = [⟨"a.jsx", "x = <p className=\"one\" />;"⟩, ⟨"b.jsx", "y = <b className=\"wide\" />;"⟩,
      ⟨"./a.jsx", "x = <p className=\"two\" />;"⟩] := by
  have shown : marked.map (fun s => (saveAll { s with clock := max s.clock 100, deadline := none, pending := {} } []
      ["a.jsx", "c.jsx", "b.jsx", "./a.jsx"]).2.edits.sent) = some [⟨"a.jsx", "x = <p className=\"one\" />;"⟩,
        ⟨"b.jsx", "y = <b className=\"wide\" />;"⟩, ⟨"./a.jsx", "x = <p className=\"two\" />;"⟩] := by
    decide +kernel
  rw [made, Option.map_some, ← pending, ← save_due due] at shown
  exact Option.some.inj shown

theorem save_blocked {s : Session DiskFiles} (made : marked = some s) (due : (block s).deadline = some 100)
    (pending : (block s).pending.ids = ["a.jsx", "c.jsx", "b.jsx", "./a.jsx"]) :
    (block s).save.2.edits.sent = [⟨"a.jsx", "x = <p className=\"one\" />;"⟩] ∧ (block s).save.2.pending.ids = ["b.jsx", "./a.jsx"] := by
  have shown : marked.map (fun s =>
      let saved := saveAll { block s with clock := max (block s).clock 100, deadline := none, pending := {} } []
        ["a.jsx", "c.jsx", "b.jsx", "./a.jsx"]
      (saved.2.edits.sent, saved.2.pending.ids)) = some ([⟨"a.jsx", "x = <p className=\"one\" />;"⟩], ["b.jsx", "./a.jsx"]) := by
    decide +kernel
  rw [made, Option.map_some, ← pending, ← save_due due] at shown
  exact Prod.mk.inj (Option.some.inj shown)

theorem save_accounts_for_all_blocked : ∃ s, marked = some s ∧ HasRoots s.document ∧ s.deadline ≠ none ∧
    (∃ written, SaveOutcome s.document s.storage s.pending.ids written s.save ∧ Stored DiskFiles.files s.storage written s.save.2.storage ∧
      written = [⟨"a.jsx", "x = <p className=\"one\" />;"⟩, ⟨"b.jsx", "y = <b className=\"wide\" />;"⟩,
        ⟨"./a.jsx", "x = <p className=\"two\" />;"⟩]) ∧
    ∃ written, SaveOutcome (block s).document (block s).storage (block s).pending.ids written (block s).save ∧
      written = [⟨"a.jsx", "x = <p className=\"one\" />;"⟩] ∧ (block s).save.2.pending.ids = ["b.jsx", "./a.jsx"] ∧
      Storage.load (block s).save.2.storage "a.jsx" = .ok "x = <p className=\"one\" />;" := by
  obtain ⟨s, made, roots, due, pending, before⟩ := marked_facts
  have sent := save_marked made due pending
  obtain ⟨sent', left⟩ := save_blocked made due pending
  have waiting : s.deadline ≠ none := by
    rw [due]
    exact Option.some_ne_none _
  obtain ⟨written, outcome, published, stored⟩ := (save_accounts_for_all roots).2.1 waiting
  obtain ⟨written', outcome', published', stored'⟩ := (save_accounts_for_all (s := block s) roots).2.1 waiting
  have before' : (block s).edits.sent = [] := before
  rw [before, List.nil_append, sent] at published
  rw [before', List.nil_append, sent'] at published'
  have loaded := (stored' DiskFiles.files).last [] ⟨"a.jsx", "x = <p className=\"one\" />;"⟩ [] published'.symm nofun
  exact ⟨s, made, roots, waiting, ⟨written, outcome, stored DiskFiles.files, published.symm⟩, written', outcome', published'.symm, left, loaded⟩

end Session

end

end MarkupEditor
