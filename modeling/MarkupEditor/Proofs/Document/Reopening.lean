import MarkupEditor.Document.Numbering
import MarkupEditor.Proofs.Document.Loading
import MarkupEditor.Proofs.Markup.Reread

namespace MarkupEditor

namespace Document

-- The documents of an editor that opens and closes files whose sources parse, and edits their nodes at any times.
inductive Reached (classAttribute : String) : Document → Prop where
  | new (undoWindow maxLevels : Nat) : Reached classAttribute (.new classAttribute undoWindow maxLevels)
  | load {d d' : Document} {root : Handle} {source path : String} {tree : SourceTree} (before : Reached classAttribute d)
      (parsed : parse source = .ok tree) (loaded : d.load path tree = .ok (root, d')) : Reached classAttribute d'
  | close {d d' : Document} {path : String} (before : Reached classAttribute d) (closed : d.close path = .ok d') :
      Reached classAttribute d'
  | edit {d : Document} (before : Reached classAttribute d) (now : Nat) (e : Edit) : Reached classAttribute (e.apply { d with now })

theorem Reached.run {classAttribute : String} {d : Document} (reached : Reached classAttribute d) (edits : List (Nat × Edit)) :
    Reached classAttribute (d.run edits) := by
  induction edits generalizing d with
  | nil => exact reached
  | cons e edits ih => exact ih (.edit reached e.1 e.2)

structure Tended (classAttribute : String) (d : Document) : Prop where
  follows : d.Follows (Orderly Node.Sound d.files)
  files : ∀ f ∈ d.files, f.tree.Sound ∧ Part.Distinct f.tree.body
  classes : d.classAttribute = classAttribute

theorem Reached.tended {classAttribute : String} {d : Document} (reached : Reached classAttribute d) : d.Tended classAttribute := by
  induction reached with
  | new undoWindow maxLevels =>
    refine ⟨follows_new classAttribute undoWindow maxLevels, ?_, rfl⟩
    intro f member
    cases member
  | @load d d' root source path tree _ parsed loaded ih =>
    have sound := parse_sound parsed
    obtain ⟨follows, classes, f, _, same, files⟩ := follows_load ih.follows (SourceTree.throughout sound.inside) loaded
    refine ⟨follows, fun g member => ?_, classes.trans ih.classes⟩
    rw [files] at member
    rcases File.mem_put member with rfl | member
    · rw [same]
      exact ⟨sound, (parse_apart parsed).1⟩
    · exact ih.files g member
  | close _ closed ih =>
    obtain ⟨follows, classes, files⟩ := follows_close ih.follows closed
    refine ⟨follows, fun g member => ?_, classes.trans ih.classes⟩
    rw [files] at member
    exact ih.files g (List.mem_of_mem_filter member)
  | @edit d _ now e ih =>
    obtain ⟨follows, files, classes⟩ := follows_apply (show Follows (Orderly Node.Sound d.files) { d with now } from ih.follows) e
    exact ⟨follows, by rw [files]; exact ih.files, classes.trans ih.classes⟩

theorem present_statement {Q : Node → Prop} {d : Document} (orderly : Orderly Q d.files d.contents)
    (closed : Rebuild.FormClosed d.classAttribute Q) {path : String} {f : File} (found : d.file? path = some f)
    (distinct : Part.Distinct f.tree.body) {n : Node} (listed : n ∈ f.tree.statements) (other : n.kind = .other) :
    Rebuild.present (Rebuild.entries d.classAttribute (d.store.trees (File.rootId path))) n = n ∨
      ∃ r kids, Rebuild.present (Rebuild.entries d.classAttribute (d.store.trees (File.rootId path))) n =
        Rebuild.form d.classAttribute r kids n ∧ ∀ k ∈ kids, Rebuild.Kept Q k := by
  rcases Rebuild.present_cases (Rebuild.entries d.classAttribute (d.store.trees (File.rootId path))) n with same | ⟨q, member, source, same⟩
  · exact .inl same
  · obtain ⟨_, ⟨child, s, held, named, node⟩, r, kids, formed, kept⟩ := entries_formed orderly closed _ _ member
    have kind : q.1.kind = .other := (kind_of_sameSource source).trans other
    obtain ⟨path', f', root, loaded, listed', parent, _⟩ := orderly.statements child s q.1 held node kind
    have above : File.rootId path' = File.rootId path := by simpa [Store.parentId, Placed.parent, parent] using named
    obtain rfl := File.rootId_injective above
    obtain rfl : f' = f := Option.some.inj (loaded.symm.trans found)
    have own : q.1 = n := distinct.eq listed' listed source
    exact .inr ⟨r, kids, same.trans (own ▸ formed), kept⟩

theorem modifiedTree_sound {classAttribute : String} (isName : Tag.IsName classAttribute) {d : Document} (tended : d.Tended classAttribute)
    {path : String} {f : File} (found : d.file? path = some f) :
    (Rebuild.file d.classAttribute f.tree (d.store.trees (File.rootId path))).Sound := by
  have orderly := tended.follows.present
  have closed : Rebuild.FormClosed d.classAttribute Node.Sound := Rebuild.formClosed_sound (tended.classes ▸ isName)
  obtain ⟨sound, distinct⟩ := tended.files f (List.mem_of_find?_eq_some found)
  have whole := SourceTree.throughout sound.inside
  have kept := fun q member => (entries_formed (q := q) orderly closed d.store.size (File.rootId path) member).1
  have statements : ∀ n ∈ f.tree.body.filterMap Part.node?, n.Sound := fun n member => whole n (Walk.mem_parts.mpr ⟨n, member, Walk.mem_node n⟩)
  rw [Rebuild.file, Rebuild.splice_eq]
  refine ⟨(settled_mapNode sound.settled fun n member => ?_).1, fun m inside => ?_⟩
  · have other := (sound.settled.kind n member).1
    have inside : ∀ m ∈ n.inner, m.Sound := fun m held => (statements n member).inner held
    cases n with
    | other loc ps =>
      rcases present_statement orderly closed found distinct member rfl with same | ⟨r, kids, same, kidsKept⟩
      · refine ⟨id, ?_, fun m held => ⟨(inside m held).self, fun markup => ⟨markup, (inside m held).self⟩⟩⟩
        rw [mapNode_id, List.map_id]
        exact same
      · refine ⟨Rebuild.present kids, ?_, fun m held => ⟨(inside m held).self, fun markup => ?_⟩⟩
        · exact same.trans (by rw [Rebuild.form, Rebuild.splice_eq])
        · have keeps := Rebuild.kept_present kidsKept (inside m held)
          exact ⟨Rebuild.isMarkup_of_kind keeps.kind markup, keeps.form.self⟩
    | element | fragment | text | wrapper => cases other
  · obtain ⟨n, listed, below⟩ := Walk.mem_parts.mp inside
    rw [filterMap_mapNode, List.mem_map] at listed
    obtain ⟨k, member, rfl⟩ := listed
    exact (Rebuild.kept_present kept (statements k member)).form m below

-- However the nodes of open files were edited, each file's text parses and prints as the same text.
theorem edited_file_reopens {classAttribute : String} (isName : Tag.IsName classAttribute) {d : Document}
    (reached : d.Reached classAttribute) {path : String} (loaded : d.isLoaded path = true) :
    ∃ u, d.modifiedTree path = .ok u ∧ ∃ t, parse u.print = .ok t ∧ t.print = u.print := by
  obtain ⟨f, found⟩ := Option.isSome_iff_exists.mp loaded
  obtain ⟨t, parsed, _, printed⟩ := parse_print (modifiedTree_sound isName reached.tended found)
  exact ⟨_, by rw [modifiedTree, found], t, parsed, printed⟩

theorem eq_ok_of_toOption {ε α : Type} {x : Except ε α} {a : α} (some_ : x.toOption = some a) : x = .ok a := by
  cases x with
  | error => cases some_
  | ok b => exact congrArg _ (Option.some.inj some_)

theorem edited_file_reopens_moved :
    ∃ s t r r', parse "let x = <p className=\"k\">hi\x7by\x7d</p>;" = .ok s ∧ parse "f(<i><b>t</b></i>)" = .ok t ∧
      (new "className" 1000 100).load "a" s = .ok r ∧ r.2.load "b" t = .ok r' ∧
      ∃ u, (r'.2.run [(1, .setText (File.nodeId "a" 0 3) "\x7d<\""), (2, .setClass (File.nodeId "a" 0 2) "a\"b'"),
          (3, .append ⟨File.nodeId "a" 0 2, 0⟩ [⟨File.nodeId "b" 0 3, 0⟩]), (4, .undo), (5, .redo)]).modifiedTree "a" = .ok u ∧
        ∃ v, parse u.print = .ok v ∧ v.print = u.print := by
  have ran : ((parse "let x = <p className=\"k\">hi\x7by\x7d</p>;").toOption.bind fun s => (parse "f(<i><b>t</b></i>)").toOption.bind fun t =>
      ((new "className" 1000 100).load "a" s).toOption.bind fun r => (r.2.load "b" t).toOption.map fun r =>
        (r.2.run [(1, .setText (File.nodeId "a" 0 3) "\x7d<\""), (2, .setClass (File.nodeId "a" 0 2) "a\"b'"),
          (3, .append ⟨File.nodeId "a" 0 2, 0⟩ [⟨File.nodeId "b" 0 3, 0⟩]), (4, .undo), (5, .redo)]).isLoaded "a") = some true := by
    decide +kernel
  simp only [Option.bind_eq_some_iff, Option.map_eq_some_iff] at ran
  obtain ⟨s, parsedA, t, parsedB, r, loadedA, r', loadedB, still⟩ := ran
  have opened := Reached.load (.load (.new 1000 100) (eq_ok_of_toOption parsedA) (eq_ok_of_toOption loadedA)) (eq_ok_of_toOption parsedB)
    (eq_ok_of_toOption loadedB)
  have isName : Tag.IsName "className" := Tag.isName_iff.mpr rfl
  exact ⟨s, t, r, r', eq_ok_of_toOption parsedA, eq_ok_of_toOption parsedB, eq_ok_of_toOption loadedA, eq_ok_of_toOption loadedB,
    edited_file_reopens isName (opened.run _) still⟩

end Document

end MarkupEditor
