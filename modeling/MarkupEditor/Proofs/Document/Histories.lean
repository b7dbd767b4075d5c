import MarkupEditor.Proofs.Document.Opening

namespace MarkupEditor

def Act.file? : Act → Option String
  | load path _ => some path
  | reload path _ => some path
  | close path => some path
  | _ => none

theorem Act.isEdit_or_file? (a : Act) : a.isEdit = true ∨ ∃ path, a.file? = some path := by
  cases a with
  | load path | reload path | close path => exact .inr ⟨path, rfl⟩
  | _ => exact .inl rfl

namespace Document

variable {d d' : Document} {a : Act} {path : String} {tree : SourceTree} {generation : Nat}

-- The documents that come about by acts, each at some time and where it is allowed.
inductive Ran (allowed : Document → Act → Prop) (classAttribute : String) : Document → Prop where
  | new (undoWindow maxLevels : Nat) : Ran allowed classAttribute (.new classAttribute undoWindow maxLevels)
  | act {d : Document} (before : Ran allowed classAttribute d) (now : Nat) {a : Act} (allows : allowed { d with now } a) :
      Ran allowed classAttribute (a.apply { d with now })

inductive Turns (d : Document) : Act → Document → Prop where
  | opened {path : String} {tree : SourceTree} (absent : d.file? path = none) : Turns d (.load path tree) (d.build path tree 0)
  | reread {path : String} {tree : SourceTree} {f : File} {a : Act} {d' : Document} (reads : a = .load path tree ∨ a = .reload path tree)
      (found : d.file? path = some f) (viewed : Viewed ((d.emptied path).build path tree (f.generation + 1)) d') : Turns d a d'
  | closed {path : String} {d' : Document} (done : d.close path = .ok d') : Turns d (.close path) d'

theorem turns_apply (d : Document) (turns : a.file? = some path) : a.apply d = d ∨ Turns d a (a.apply d) := by
  have reread : ∀ {path tree root d'} {a : Act}, a = .load path tree ∨ a = .reload path tree → d.reload path tree = .ok (root, d') → Turns d a d' := by
    intro path tree root d' a reads loaded
    obtain ⟨f, found, viewed⟩ := reload_eq loaded
    exact .reread reads found viewed
  cases a with
  | load path tree =>
    rw [Act.apply]
    split
    · rename_i d' loaded
      right
      rw [load] at loaded
      split at loaded
      · exact reread (.inl rfl) loaded
      · rename_i unloaded
        dsimp only at loaded
        split at loaded
        · cases loaded
          exact .opened (by simpa [isLoaded] using unloaded)
        · cases loaded
    · exact .inl rfl
  | reload path tree =>
    rw [Act.apply]
    split
    · rename_i d' loaded
      exact .inr (reread (.inr rfl) loaded)
    · exact .inl rfl
  | close path =>
    rw [Act.apply]
    split
    · rename_i d' done
      exact .inr (.closed done)
    · exact .inl rfl
  | _ => cases turns

def nextGeneration (d : Document) (path : String) : Nat :=
  match d.file? path with
  | some f => f.generation + 1
  | none => 0

theorem mem_fileTree {id : String} {r : Record} (member : (id, r) ∈ (d.fileTree path tree generation).pairs) :
    (id = File.rootId path ∧ r = d.rootRecord path tree) ∨ (∃ count, id = File.nodeId path generation count) ∧
      ∃ parent ∈ (d.fileTree path tree generation).pairs.map Prod.fst, r.parent = some parent := by
  obtain ⟨u, within, same⟩ := Tree.mem_pairs.mp member
  obtain ⟨rfl, rfl⟩ := Prod.mk.inj same
  obtain ⟨numbers, _, ids⟩ := @ids_fileTree d path tree generation
  have listed := within.id_mem
  rw [ids] at listed
  rcases List.mem_cons.mp listed with root | node
  · obtain ⟨rfl, _⟩ := rootId_within within root
    exact .inl ⟨rfl, rfl⟩
  · obtain ⟨count, _, same⟩ := List.mem_map.mp node
    refine .inr ⟨⟨count, same.symm⟩, ?_⟩
    rcases within.parent with rfl | ⟨v, above, child⟩
    · exact absurd same (File.nodeId_ne_rootId path path generation count)
    · obtain ⟨ts, children⟩ := within_fileTree above
      obtain ⟨t, _, order, rfl⟩ := Draft.mem_layAll _ (children ▸ child)
      exact ⟨v.id, above.id_mem, by rw [Draft.value_lay]; rfl⟩

namespace Turns

theorem file?_other {other : String} (turns : Turns d a d') (here : a.file? = some path) (differs : other ≠ path) : d'.file? other = d.file? other := by
  cases turns with
  | @opened path' tree absent =>
    obtain rfl : path' = path := Option.some.inj here
    obtain ⟨⟨numbering, files⟩, _⟩ := d.build_frame path' tree 0
    rw [file?, files, File.find?_put, if_neg differs]
    rfl
  | @reread path' tree f _ _ reads found viewed =>
    obtain rfl : path' = path := by rcases reads with rfl | rfl <;> exact Option.some.inj here
    obtain ⟨⟨numbering, files⟩, _⟩ := (d.emptied path').build_frame path' tree (f.generation + 1)
    rw [file?, viewed.files, files, File.find?_put, if_neg differs, (d.emptied_frame path').1]
    rfl
  | @closed path' _ done =>
    obtain rfl : path' = path := Option.some.inj here
    rw [file?, (close_frame done).2.1, File.find?_filter differs]
    rfl

theorem file?_self (turns : Turns d a d') (here : a.file? = some path) :
    (a = .close path ∧ d'.file? path = none) ∨ (∀ path, a ≠ .close path) ∧ ∃ f, d'.file? path = some f ∧ f.generation = d.nextGeneration path := by
  cases turns with
  | @opened path' tree absent =>
    obtain rfl : path' = path := Option.some.inj here
    exact .inr ⟨nofun, _, d.file?_build path' tree 0, by rw [nextGeneration, absent]⟩
  | @reread path' tree f _ _ reads found viewed =>
    obtain rfl : path' = path := by rcases reads with rfl | rfl <;> exact Option.some.inj here
    have held := (d.emptied path').file?_build path' tree (f.generation + 1)
    exact .inr ⟨by rcases reads with rfl | rfl <;> exact nofun, _, (congrArg (File.find? · path') viewed.files).trans held,
      by rw [nextGeneration, found]⟩
  | @closed path' _ done =>
    obtain rfl : path' = path := Option.some.inj here
    refine .inl ⟨rfl, ?_⟩
    rw [file?, (close_frame done).2.1, File.find?, List.find?_filter]
    simp

theorem history (turns : Turns d a d') : d'.history = d.history.pause.resume.clear := by
  cases turns with
  | opened absent => exact (d.build_frame _ _ 0).2.2.1
  | @reread path tree f _ _ reads found viewed =>
    obtain ⟨_, _, history⟩ := d.emptied_frame path
    have built := ((d.emptied path).build_frame path tree (f.generation + 1)).2.2.1
    rw [history] at built
    exact viewed.history.trans built
  | closed done => exact (close_frame done).2.2.2.1

theorem cleared {P : Contents Unit Record → Prop} (turns : Turns d a d') (recording : d.history.paused = 0) (holds : P d'.contents) :
    d'.Follows P :=
  Follows.cleared (h := d.history.pause) (by simp [History.pause, recording]) turns.history holds

theorem serves (turns : Turns d a d') (serves : d.instances.Serves d.store) : d'.instances.Serves d'.store := by
  cases turns with
  | opened absent => exact serves_build serves _ _ 0
  | @reread path tree f _ _ reads found viewed =>
    rw [viewed.store, viewed.instances]
    exact serves_build (serves_emptied serves path) path tree _
  | @closed path _ done =>
    unfold close at done
    split at done
    · cases done
    · rename_i root _
      obtain rfl := Except.ok.inj done
      have removed := serves_edited (d := { d with history := d.history.pause }) serves (Edited.of_remove _ root.id)
      exact removed

theorem classAttribute (turns : Turns d a d') : d'.classAttribute = d.classAttribute := by
  cases turns with
  | opened absent => exact (d.build_frame _ _ 0).2.1
  | @reread path tree f _ _ reads found viewed =>
    obtain ⟨_, classes, _⟩ := d.emptied_frame path
    exact viewed.classAttribute.trans (((d.emptied path).build_frame path tree _).2.1.trans classes)
  | closed done => exact (close_frame done).2.2.1

end Turns

theorem serves_turned (serves : d.instances.Serves d.store) (turns : a.file? = some path) : (a.apply d).instances.Serves (a.apply d).store := by
  rcases turns_apply d turns with same | turned
  · rw [same]
    exact serves
  · exact turned.serves serves

theorem Follows.new {P : Contents Unit Record → Prop} (holds : P fun _ _ => none) (classAttribute : String) (undoWindow maxLevels : Nat) :
    (Document.new classAttribute undoWindow maxLevels).Follows P :=
  ⟨_, History.records_start _ rfl rfl rfl rfl, rfl, Timeline.always_start holds⟩

theorem update_contents (d : Document) (id : String) {f : Record → Record}
    (same : ∀ r, (f r).parent = r.parent ∧ (f r).order = r.order ∧ (f r).origin = r.origin) (key : String) :
    (d.contents () key = none ∧ (d.update id f).contents () key = none) ∨ ∃ r r', d.contents () key = some r ∧
      (d.update id f).contents () key = some r' ∧ r'.parent = r.parent ∧ r'.origin = r.origin := by
  have kept : (d.contents () key = none ∧ d.contents () key = none) ∨ ∃ r r', d.contents () key = some r ∧ d.contents () key = some r' ∧
      r'.parent = r.parent ∧ r'.origin = r.origin := by
    cases held : d.contents () key with
    | none => exact .inl ⟨rfl, rfl⟩
    | some r => exact .inr ⟨r, r, rfl, rfl, rfl, rfl⟩
  unfold update
  split
  · rename_i r found
    rw [write_contents, Contents.put]
    split
    · rename_i here
      exact .inr ⟨r, f r, here.2 ▸ found, rfl, (same r).1, (same r).2.2⟩
    · exact kept
  · exact kept

-- Each record has the origin of one that was there under its id.
def Stems (get get' : String → Option Record) : Prop := ∀ id r', get' id = some r' → ∃ r, get id = some r ∧ r'.origin = r.origin

theorem Follows.stems {P : (String → Option Record) → Prop} (follows : d.Follows fun m => P (m ())) (standing : d.Standing)
    (edits : a.isEdit = true) (stems : ∀ {get get' : String → Option Record}, P get → Stems get get' → P get') :
    (a.apply d).Follows fun m => P (m ()) := by
  refine follows.act edits (fun id f same => stems follows.present ?_) ?_ fun id _ _ _ _ => stems follows.present ?_
  · intro key r' found
    rcases d.update_contents id same key with ⟨_, absent⟩ | ⟨r, q, held, found', _, origin⟩
    · cases absent.symm.trans found
    · obtain rfl := Option.some.inj (found'.symm.trans found)
      exact ⟨r, held, origin⟩
  · intro parent nodes next h _ found
    have own : d.node h.id = .ok h := by rwa [id_of_node found]
    obtain ⟨place, contents, _⟩ := insertBefore_moved standing.planted standing.serves own (@node_of_handles d nodes) next
    refine stems follows.present fun id r' held => ?_
    have held : (d.insertBefore h (d.handles nodes) next).2.store.get? id = some r' := held
    rw [contents] at held
    rcases Planted.moved_cases held with ⟨_, before⟩ | ⟨_, r, _, before, rfl⟩
    · exact ⟨r', before, rfl⟩
    · exact ⟨r, before, rfl⟩
  · intro key r' found
    exact ⟨r', ((d.remove_contents id key r').mp found).1, rfl⟩

variable {allowed : Document → Act → Prop} {classAttribute : String}

namespace Ran

theorem standing (ran : d.Ran allowed classAttribute) : d.Standing := by
  induction ran with
  | new undoWindow maxLevels => exact .new ..
  | act _ now _ ih => exact (ih.at_time now).apply _

theorem perform (ran : d.Ran allowed classAttribute) {acts : List (Nat × Act)} (allows : ∀ d, ∀ a ∈ acts, allowed d a.2) :
    (d.perform acts).Ran allowed classAttribute := by
  unfold Document.perform
  induction acts generalizing d with
  | nil => exact ran
  | cons a acts ih => exact ih (ran.act a.1 (allows _ a List.mem_cons_self)) fun d b later => allows d b (List.mem_cons_of_mem _ later)

-- A property of the open files and the contents holds in all that a document can return to if it does so in a new one,
-- edits keep it there, and turning to a file ends with it.
theorem follows {P : List File → (String → Option Record) → Prop} (ran : d.Ran allowed classAttribute) (start : P [] fun _ => none)
    (edited : ∀ {d : Document} {a : Act}, d.Standing → d.Follows (fun m => P d.files (m ())) → a.isEdit = true → allowed d a →
      (a.apply d).Follows fun m => P d.files (m ()))
    (turned : ∀ {d d' : Document} {a : Act} {path : String}, d.Standing → P d.files d.store.get? → allowed d a → a.file? = some path →
      Turns d a d' → P d'.files d'.store.get?) :
    d.Follows fun m => P d.files (m ()) := by
  induction ran with
  | new undoWindow maxLevels => exact Follows.new start ..
  | @act d before now a allows ih =>
    have standing := before.standing.at_time now
    have ih : Follows (fun m => P d.files (m ())) { d with now } := ih
    rcases a.isEdit_or_file? with edits | ⟨path, here⟩
    · rw [(apply_frame _ edits).1]
      exact edited standing ih edits allows
    · rcases turns_apply { d with now } here with same | turns
      · rw [same]
        exact ih
      · exact turns.cleared standing.follows.recording (turned standing ih.present allows here turns)

end Ran

end Document

end MarkupEditor
