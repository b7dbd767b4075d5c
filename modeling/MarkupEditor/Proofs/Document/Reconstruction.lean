import MarkupEditor.Document.Numbering
import MarkupEditor.Proofs.Document.Building

namespace MarkupEditor

structure SourceTree.Regular (t : SourceTree) : Prop where
  statements : ∀ n ∈ t.statements, n.kind = .other ∧ n.Regular
  distinct : Part.Distinct t.body

namespace Rebuild

theorem entries_append (classAttribute : String) (ts us : List (Tree Record)) :
    entries classAttribute (ts ++ us) = entries classAttribute ts ++ entries classAttribute us := by
  induction ts with
  | nil => rfl
  | cons t ts ih =>
    rw [List.cons_append, entries, entries]
    cases entry classAttribute t with
    | none => exact ih
    | some q => exact congrArg _ ih

theorem splice_self {ps : List Part} {kids : List (Node × Node)} (distinct : Part.Distinct ps)
    (same : ∀ q ∈ kids, q.2 = q.1 ∧ q.1 ∈ ps.filterMap Part.node?) : ps.map (splice kids) = ps := by
  have each : ∀ p ∈ ps, splice kids p = p := by
    intro p member
    rw [splice_eq]
    cases p with
    | code => rfl
    | node n =>
      have listed : n ∈ ps.filterMap Part.node? := List.mem_filterMap.mpr ⟨_, member, rfl⟩
      rcases present_cases kids n with own | ⟨q, held, source, own⟩
      · exact congrArg Part.node own
      · obtain ⟨form, inside⟩ := same q held
        exact congrArg Part.node (own.trans (form.trans (distinct.eq inside listed source)))
  exact (List.map_congr_left each).trans (List.map_id ps)

theorem withClass_own (classAttribute : String) (attributes : List Attribute) :
    withClass classAttribute (Attribute.stringValue? attributes classAttribute) attributes = attributes := by
  unfold withClass
  split
  · rename_i name same
    rw [if_pos same]
  · rfl

end Rebuild

namespace Draft

variable (name : Nat → String) (classAttribute : String) (s : Store Record)

theorem layAll_append (parent : String) (keys : List String) (ts us : List (Tree Draft)) :
    layAll s parent keys (ts ++ us) = layAll s parent keys ts ++ layAll s parent (keys.drop ts.length) us := by
  induction ts generalizing keys with
  | nil => rfl
  | cons t ts ih => rw [List.cons_append, layAll, layAll, ih, List.cons_append, List.length_cons, ← List.drop_tail]

-- The entries of the drafts stand for nodes that are their own forms.
def Restores (ts : List (Tree Draft)) (nodes : List Node) : Prop :=
  ∀ parent keys, Rebuild.entries classAttribute (layAll s parent keys ts) = nodes.map fun n => (n, n)

theorem Restores.append {ts us : List (Tree Draft)} {nodes nodes' : List Node} (first : Restores classAttribute s ts nodes)
    (second : Restores classAttribute s us nodes') : Restores classAttribute s (ts ++ us) (nodes ++ nodes') := by
  intro parent keys
  rw [layAll_append, Rebuild.entries_append, first, second, List.map_append]

theorem Restores.cons {id : String} {d : Draft} {below : List (Tree Draft)} {n : Node} {nodes : List Node}
    (inside : Restores classAttribute s below nodes) (origin : d.record.origin = .node n)
    (form : ∀ r : Record, r.className = d.record.className → r.text = d.record.text →
      Rebuild.form classAttribute r (nodes.map fun n => (n, n)) n = n) :
    Restores classAttribute s [.mk id d below] [n] := by
  intro parent keys
  have node : (d.record.placed parent keys.head?).node? = some n := by rw [Record.node?, Record.placed, origin]
  simp only [layAll, lay, Rebuild.entries, Rebuild.entry, node]
  rw [inside, form (d.record.placed parent keys.head?) rfl rfl]
  rfl

theorem restored_code {ps : List Part} (plain : Part.Distinct ps) : ps.map (Rebuild.splice ((ps.filterMap Part.node?).map fun n => (n, n))) = ps := by
  apply Rebuild.splice_self plain
  intro q member
  obtain ⟨n, listed, rfl⟩ := List.mem_map.mp member
  exact ⟨rfl, listed⟩

mutual

theorem node_restored (inMarkup : Bool) (c : Count) : ∀ n : Node, n.Regular → n.isMarkup ∨ inMarkup ∧ n.kind ≠ .other →
    Restores classAttribute s (node name classAttribute inMarkup c n).1 [n]
  | .element loc tag attributes children selfClosing, regular, _ => by
    have inside := nodes_restored ⟨c.ids + 1, c.elements + 1 + elementsIn attributes⟩ children
      (fun n member => regular.inner (List.mem_append_right _ member)) regular.self
    refine inside.cons classAttribute s rfl fun r className _ => ?_
    rw [Rebuild.form, className, Rebuild.withClass_own, List.map_map]
    exact congrArg (Node.element loc tag attributes · selfClosing) (List.map_id children)
  | .fragment loc children, regular, _ => by
    have inside := nodes_restored c.nextId children (fun n member => regular.inner member) regular.self
    refine inside.cons classAttribute s rfl fun r _ _ => ?_
    rw [Rebuild.form, List.map_map]
    exact congrArg (Node.fragment loc) (List.map_id children)
  | .text loc value, _, stands => by
    rcases stands with markup | ⟨inMarkup, _⟩
    · cases markup
    · have nothing : Restores classAttribute s [] [] := fun _ _ => rfl
      rw [node, if_pos inMarkup]
      refine nothing.cons classAttribute s rfl fun r _ text => ?_
      rw [Rebuild.form, text]
      rfl
  | .wrapper loc spread expression, regular, stands => by
    rcases stands with markup | ⟨inMarkup, _⟩
    · cases markup
    · have inside := parts_restored c.nextId expression (fun n member => ⟨regular.inner member, regular.self.1 n member⟩)
      rw [node, if_pos inMarkup]
      refine inside.cons classAttribute s rfl fun r _ _ => ?_
      rw [Rebuild.form, restored_code regular.self.2]
  | .other loc ps, _, stands => by
    rcases stands with markup | ⟨_, kind⟩
    · cases markup
    · exact absurd rfl kind

theorem nodes_restored (c : Count) : ∀ ns : List Node, (∀ n ∈ ns, n.Regular) → (∀ n ∈ ns, n.kind ≠ .other) →
    Restores classAttribute s (nodes name classAttribute c ns).1 ns
  | [], _, _ => fun _ _ => rfl
  | n :: ns, regular, kinds => by
    have first := node_restored true c n (regular n List.mem_cons_self) (.inr ⟨rfl, kinds n List.mem_cons_self⟩)
    have later := nodes_restored (node name classAttribute true c n).2 ns (fun m member => regular m (List.mem_cons_of_mem _ member))
      (fun m member => kinds m (List.mem_cons_of_mem _ member))
    exact first.append classAttribute s later

theorem part_restored (c : Count) : ∀ p : Part, (∀ n ∈ p.node?, n.Regular ∧ n.isMarkup) →
    Restores classAttribute s (part name classAttribute c p).1 p.node?.toList
  | .code _, _ => fun _ _ => rfl
  | .node n, regular => node_restored false c n (regular n rfl).1 (.inl (regular n rfl).2)

theorem parts_restored (c : Count) : ∀ ps : List Part, (∀ n ∈ ps.filterMap Part.node?, n.Regular ∧ n.isMarkup) →
    Restores classAttribute s (parts name classAttribute c ps).1 (ps.filterMap Part.node?)
  | [], _ => fun _ _ => rfl
  | p :: ps, regular => by
    have split : (p :: ps).filterMap Part.node? = p.node?.toList ++ ps.filterMap Part.node? := by cases p <;> rfl
    rw [split] at regular ⊢
    have first := part_restored c p fun n held => regular n (List.mem_append_left _ (by simpa using held))
    have later := parts_restored (part name classAttribute c p).2 ps fun n member => regular n (List.mem_append_right _ member)
    exact first.append classAttribute s later

end

theorem statements_restored (c : Count) (ns : List Node) (regular : ∀ n ∈ ns, n.kind = .other ∧ n.Regular) :
    ∃ kept, kept ⊆ ns ∧ Restores classAttribute s (statements name classAttribute c ns).1 kept := by
  induction ns generalizing c with
  | nil => exact ⟨[], List.Subset.refl _, fun _ _ => rfl⟩
  | cons n ns ih =>
    obtain ⟨⟨kind, whole⟩, later⟩ := List.forall_mem_cons.mp regular
    obtain ⟨kept, listed, restored⟩ := ih (statement name classAttribute c n).2 later
    cases n with
    | other loc ps =>
      have inside := parts_restored name classAttribute s c.nextId ps fun n member => ⟨whole.inner member, whole.self.1 n member⟩
      have first : ∃ kept, kept ⊆ [Node.other loc ps] ∧ Restores classAttribute s (statement name classAttribute c (.other loc ps)).1 kept := by
        simp only [statement]
        split
        · exact ⟨[], List.nil_subset _, fun _ _ => rfl⟩
        · refine ⟨_, List.Subset.refl _, inside.cons classAttribute s rfl fun r _ _ => ?_⟩
          rw [Rebuild.form, restored_code whole.self.2]
      obtain ⟨own, single, restoredOwn⟩ := first
      refine ⟨own ++ kept, ?_, restoredOwn.append classAttribute s restored⟩
      exact List.append_subset.mpr ⟨fun m member => List.mem_singleton.mp (single member) ▸ List.mem_cons_self,
        fun m member => List.mem_cons_of_mem _ (listed member)⟩
    | element | fragment | text | wrapper => cases kind

end Draft

namespace Document

theorem handle?_build {d : Document} (serves : d.instances.Serves d.store) (path : String) (tree : SourceTree) (generation : Nat) :
    ((d.build path tree generation).handle? (File.rootId path)).isSome = true := by
  have live := (@build_contents d path tree generation (File.rootId path) (d.rootRecord path tree)).mpr (.inl List.mem_cons_self)
  exact Option.isSome_iff_exists.mpr (handle?_of_live (serves_build serves path tree generation) live)

theorem load_new (classAttribute : String) (undoWindow maxLevels : Nat) (path : String) (tree : SourceTree) :
    ∃ root, (new classAttribute undoWindow maxLevels).load path tree =
      .ok (root, (new classAttribute undoWindow maxLevels).build path tree 0) := by
  have held := handle?_build (d := new classAttribute undoWindow maxLevels) (Instances.serves_ofStore Store.empty 0) path tree 0
  obtain ⟨root, found⟩ := Option.isSome_iff_exists.mp held
  refine ⟨root, ?_⟩
  simp only [load, isLoaded, file?, new, File.find?, List.find?_nil, Option.isSome_none, Bool.false_eq_true, if_false, node]
  simp only [new] at found
  rw [found]

theorem modifiedTree_build {d : Document} (blank : d.store = Store.empty) (path : String) {tree : SourceTree} (regular : tree.Regular) (generation : Nat) :
    (d.build path tree generation).modifiedTree path = .ok tree := by
  obtain ⟨⟨numbering, files⟩, classes, _⟩ := d.build_frame path tree generation
  have found : (d.build path tree generation).file? path = some { path, tree, generation, numbering } := by
    rw [file?, files, File.find?_put, if_pos rfl]
  obtain ⟨kept, listed, restored⟩ := Draft.statements_restored (File.nodeId path generation) (d.rooted path tree).classAttribute
    (d.rooted path tree).store {} tree.statements regular.statements
  have rooted : (d.rooted path tree).classAttribute = d.classAttribute := (Edited.write .nothing _ _).classAttribute
  have pairs : Rebuild.entries d.classAttribute (d.fileTree path tree generation).children = kept.map fun n => (n, n) :=
    rooted ▸ restored _ _
  rw [modifiedTree, found, classes, trees_build blank]
  simp only [Rebuild.file, pairs]
  rw [Rebuild.splice_self regular.distinct]
  intro q member
  obtain ⟨n, own, rfl⟩ := List.mem_map.mp member
  exact ⟨rfl, listed own⟩

end Document

theorem regular_of_sound {n : Node} (sound : n.Sound) (apart : n.Throughout Node.Apart) (kind : n.kind ≠ .other) : n.Regular := by
  induction n using Node.inner_induction with
  | step n ih =>
    have inside : (∀ m ∈ n.inner, m.kind ≠ .other) → n.Plain → n.Regular := fun kinds plain =>
      .of_inner plain fun m held => ih m held (sound.inner held) (apart.inner held) (kinds m held)
    have own := sound.self
    cases n with
    | element loc name attributes children selfClosing =>
      obtain ⟨_, tag, kinds⟩ := own
      refine inside (fun m held => ?_) kinds
      rcases List.mem_append.mp held with held | held
      · obtain ⟨p, listed, node⟩ := List.mem_filterMap.mp held
        obtain ⟨a, member, listed⟩ := List.mem_flatMap.mp listed
        have value := tag a member
        have inValue : m ∈ a.parts.filterMap Part.node? := List.mem_filterMap.mpr ⟨p, listed, node⟩
        cases a with
        | flag | string => cases inValue
        | expression => exact kind_of_isMarkup (value.2.markup m inValue)
        | spread => exact kind_of_isMarkup (Coded.markup value m inValue)
      · exact kinds m held
    | fragment loc children => exact inside own own
    | text => exact inside (fun m held => by cases held) trivial
    | wrapper loc spread ps =>
      have markup := own.1.markup
      exact inside (fun m held => kind_of_isMarkup (markup m held)) ⟨markup, apart.self⟩
    | other => exact absurd rfl kind

theorem parse_regular {source : String} {t : SourceTree} (parsed : parse source = .ok t) : t.Regular := by
  have sound := parse_sound parsed
  obtain ⟨distinct, apart⟩ := parse_apart parsed
  refine ⟨fun n member => ?_, distinct⟩
  have inTree : n ∈ t.nodes := Walk.mem_parts.mpr ⟨n, member, Walk.mem_node n⟩
  obtain ⟨kind, markup⟩ := sound.settled.kind n member
  have whole : n.Sound := SourceTree.throughout sound.inside n inTree
  have places := SourceTree.throughout apart n inTree
  refine ⟨kind, .of_inner ?_ fun m held => regular_of_sound (whole.inner held) (places.inner held) (kind_of_isMarkup (markup m held))⟩
  cases n with
  | other loc ps => exact ⟨markup, places.self⟩
  | element | fragment | text | wrapper => cases kind

theorem SourceTree.Regular.nodes {t : SourceTree} (regular : t.Regular) : ∀ n ∈ t.nodes, n.Regular := by
  apply SourceTree.throughout
  intro n member
  obtain ⟨statement, listed, inside⟩ := Walk.mem_parts.mp member
  exact (regular.statements statement listed).2 n inside

namespace Document

theorem modifiedTree_regular {d : Document} (orderly : Orderly Node.Regular d.files d.contents) {path : String} {f : File}
    (regular : f.tree.Regular) : (Rebuild.file d.classAttribute f.tree (d.store.trees (File.rootId path))).Regular := by
  have closed := Rebuild.formClosed_regular d.classAttribute
  have kept := fun q member => (entries_formed (q := q) orderly closed d.store.size (File.rootId path) member).1
  have present := fun n member => Rebuild.kept_present (n := n) kept (regular.statements n member).2
  rw [Rebuild.file, Rebuild.splice_eq]
  refine ⟨fun m member => ?_, Rebuild.distinct_mapNode regular.distinct fun n member => ⟨(present n member).kind, (present n member).loc⟩⟩
  rw [SourceTree.statements, filterMap_mapNode, List.mem_map] at member
  obtain ⟨n, member, rfl⟩ := member
  exact ⟨(present n member).kind.trans (regular.statements n member).1, (present n member).form⟩

-- Opening a parsed file gives it back, and what it becomes by edits is given back when it is opened on its own.
theorem reconstruction_exact {source : String} {t : SourceTree} (parsed : parse source = .ok t) (path classAttribute : String)
    (undoWindow maxLevels : Nat) :
    ∃ root d, (new classAttribute undoWindow maxLevels).load path t = .ok (root, d) ∧ d.modifiedTree path = .ok t ∧
      ∀ edits, ∃ u, (d.run edits).modifiedTree path = .ok u ∧ ∀ path' undoWindow' maxLevels',
        ∃ root' d', (new classAttribute undoWindow' maxLevels').load path' u = .ok (root', d') ∧ d'.modifiedTree path' = .ok u := by
  have regular := parse_regular parsed
  obtain ⟨root, loaded⟩ := load_new classAttribute undoWindow maxLevels path t
  refine ⟨root, _, loaded, modifiedTree_build rfl path regular 0, fun edits => ?_⟩
  obtain ⟨follows, _, f, rfl, rfl, opened⟩ := follows_load (follows_new classAttribute undoWindow maxLevels) regular.nodes loaded
  obtain ⟨ran, files, _⟩ := follows_run follows edits
  have found : (((new classAttribute undoWindow maxLevels).build f.path f.tree 0).run edits).file? f.path = some f := by
    rw [file?, files, opened, File.find?_put, if_pos rfl]
  refine ⟨_, by rw [modifiedTree, found], fun path' undoWindow' maxLevels' => ?_⟩
  obtain ⟨root', loaded'⟩ := load_new classAttribute undoWindow' maxLevels' path' _
  exact ⟨root', _, loaded', modifiedTree_build rfl path' (modifiedTree_regular ran.present regular) 0⟩

theorem reconstruction_exact_edited :
    ∃ t root d, parse "let x = <p>hi\x7by && <b/>\x7d<i/></p>;" = .ok t ∧ (new "class" 1000 100).load "a" t = .ok (root, d) ∧ d.modifiedTree "a" = .ok t ∧
      ∃ u, (d.run [(1, .setText (File.nodeId "a" 0 3) "\x7d"), (2, .setClass (File.nodeId "a" 0 5) "k"), (3, .delete (File.nodeId "a" 0 6)),
          (9000, .delete (File.nodeId "a" 0 4)), (9001, .undo)]).modifiedTree "a" = .ok u ∧
        ∃ root' d', (new "class" 0 0).load "b" u = .ok (root', d') ∧ d'.modifiedTree "b" = .ok u := by
  have reads : (parse "let x = <p>hi\x7by && <b/>\x7d<i/></p>;").toOption.isSome = true := by decide +kernel
  cases read : parse "let x = <p>hi\x7by && <b/>\x7d<i/></p>;" with
  | error e =>
    rw [read] at reads
    cases reads
  | ok t =>
    obtain ⟨root, d, loaded, same, later⟩ := reconstruction_exact read "a" "class" 1000 100
    obtain ⟨u, present, again⟩ := later _
    exact ⟨t, root, d, rfl, loaded, same, u, present, again "b" 0 0⟩

end Document

end MarkupEditor
