import MarkupEditor.Proofs.Document.Overlays
import MarkupEditor.Proofs.Markup.Refilling

namespace MarkupEditor

open Reshape

namespace Survey

def outside (seen : List (Node × Bool)) : List Node := (seen.filter (!·.2)).map Prod.fst

theorem outside_append (seen seen' : List (Node × Bool)) : outside (seen ++ seen') = outside seen ++ outside seen' := by
  simp [outside]

theorem outside_hidden (ns : List Node) : outside (ns.map (·, true)) = [] := by
  simp [outside]

theorem mem_outside {seen : List (Node × Bool)} {n : Node} : n ∈ outside seen ↔ (n, false) ∈ seen := by
  simp [outside]

end Survey

namespace Shape

def sources (ss : List (Shape (Option Node))) : List Node := (valuesAll ss).filterMap id

theorem sources_append (ss rest : List (Shape (Option Node))) : sources (ss ++ rest) = sources ss ++ sources rest := by
  rw [sources, valuesAll_append, List.filterMap_append]
  rfl

theorem sources_mk (n : Node) (below : List (Shape (Option Node))) : sources [mk (some n) below] = n :: sources below := by
  rw [sources, valuesAll, values, valuesAll, List.append_nil]
  rfl

theorem sources_flatMap {ns : List Node} {f : Node → List (Shape (Option Node))}
    (each : ∀ n ∈ ns, sources (f n) = Survey.outside (Survey.node n)) : sources (ns.flatMap f) = Survey.outside (Survey.nodes ns) := by
  induction ns with
  | nil => rfl
  | cons n ns ih =>
    obtain ⟨first, later⟩ := List.forall_mem_cons.mp each
    rw [List.flatMap_cons, sources_append, first, ih later, Survey.nodes, Survey.outside_append]

theorem sources_ofNode {n : Node} (regular : n.Regular) (inMarkup : Bool) (stands : n.isMarkup ∨ inMarkup ∧ n.kind ≠ .other) :
    sources (ofNode inMarkup n) = Survey.outside (Survey.node n) := by
  induction n using Node.inner_induction generalizing inMarkup with
  | step n ih =>
    have listed : ∀ kids : List Node, kids ⊆ n.inner → (∀ m ∈ kids, m.kind ≠ .other) → sources (ofNodes kids) = Survey.outside (Survey.nodes kids) := by
      intro kids held kinds
      rw [ofNodes_eq]
      exact sources_flatMap fun m member => ih m (held member) (regular.inner (held member)) true (.inr ⟨rfl, kinds m member⟩)
    cases n with
    | element loc tag attributes kids selfClosing =>
      have below := listed kids (List.subset_append_right _ _) regular.self
      have seen : Survey.outside (Survey.node (.element loc tag attributes kids selfClosing)) =
          .element loc tag attributes kids selfClosing ::
            (Survey.outside ((Walk.attributes attributes).map (·, true)) ++ Survey.outside (Survey.nodes kids)) := by
        rw [← Survey.outside_append]
        rfl
      rw [seen, Survey.outside_hidden, List.nil_append, ofNode, sources_mk, below]
    | fragment loc kids =>
      have below := listed kids (List.Subset.refl _) regular.self
      rw [ofNode, sources_mk, below]
      rfl
    | text loc value =>
      obtain rfl : inMarkup = true := stands.elim (fun markup => by cases markup) And.left
      rfl
    | wrapper loc spread expression =>
      obtain rfl : inMarkup = true := stands.elim (fun markup => by cases markup) And.left
      obtain ⟨markup, _⟩ := regular.self
      have below := sources_flatMap fun m (member : m ∈ expression.filterMap Part.node?) =>
        ih m member (regular.inner member) false (.inl (markup m member))
      rw [ofNode, if_pos rfl, sources_mk, ofParts_eq, below, ← Survey.parts_eq]
      rfl
    | other => exact absurd rfl (stands.elim (fun markup => by cases markup) And.right)

theorem sources_ofStatement {n : Node} (regular : n.Regular) (kind : n.kind = .other) :
    sources (ofStatement n) = if n.inner.isEmpty then [] else Survey.outside (Survey.node n) := by
  rw [ofStatement_eq kind regular]
  split
  · rfl
  · cases n with
    | other loc ps =>
      obtain ⟨markup, _⟩ := regular.self
      have below := sources_flatMap fun m (member : m ∈ ps.filterMap Part.node?) =>
        sources_ofNode (regular.inner member) false (.inl (markup m member))
      rw [sources_mk, Node.inner, below, ← Survey.parts_eq]
      rfl
    | element | fragment | text | wrapper => cases kind

theorem sources_ofTree {t : SourceTree} (regular : t.Regular) :
    (sources (ofTree t)).Sublist (Survey.outside (Survey.parts t.body)) ∧
      ∀ n, n.kind ≠ .other → (n ∈ sources (ofTree t) ↔ (n, false) ∈ Survey.parts t.body) := by
  have all : ∀ ns : List Node, (∀ n ∈ ns, n.kind = .other ∧ n.Regular) →
      (sources (ns.flatMap ofStatement)).Sublist (Survey.outside (Survey.nodes ns)) ∧
        ∀ n, n.kind ≠ .other → n ∈ Survey.outside (Survey.nodes ns) → n ∈ sources (ns.flatMap ofStatement) := by
    intro ns good
    induction ns with
    | nil => exact ⟨List.Sublist.refl _, fun _ _ member => member⟩
    | cons s ns ih =>
      obtain ⟨⟨kind, whole⟩, later⟩ := List.forall_mem_cons.mp good
      obtain ⟨rest, covered⟩ := ih later
      rw [List.flatMap_cons, sources_append, sources_ofStatement whole kind, Survey.nodes, Survey.outside_append]
      split
      · rename_i empty
        refine ⟨rest.trans (List.sublist_append_right _ _), fun n none member => ?_⟩
        cases List.mem_append.mp member with
        | inr later => exact covered n none later
        | inl own =>
          have seen : n ∈ Walk.node s := by
            rw [← Survey.node_walk]
            exact List.mem_map_of_mem (f := Prod.fst) (Survey.mem_outside.mp own)
          obtain rfl | ⟨m, held, _⟩ := Walk.mem_node_iff.mp seen
          · exact absurd kind none
          · rw [List.isEmpty_iff.mp empty] at held
            cases held
      · refine ⟨rest.append_left _, fun n none member => ?_⟩
        exact List.mem_append.mpr ((List.mem_append.mp member).imp_right (covered n none))
  obtain ⟨listed, covered⟩ := all t.statements regular.statements
  rw [ofTree, Survey.parts_eq]
  refine ⟨listed, fun n none => ⟨fun member => Survey.mem_outside.mp (listed.subset member), fun seen => ?_⟩⟩
  exact covered n none (Survey.mem_outside.mpr seen)

end Shape

namespace Rebuild

theorem withClass_put {classAttribute : String} (isName : Tag.IsName classAttribute) (value : String) {attrs : List Attribute}
    (sound : ∀ a ∈ attrs, a.Sound) :
    ∃ a : Attribute, a.Carries classAttribute value ∧ a.Sound ∧ a.parts.filterMap Part.node? = [] ∧
      ∀ before, Attribute.put classAttribute a (withClass classAttribute before attrs) = withClass classAttribute (some value) attrs := by
  have again : ∀ (a : Attribute) before, a.name? = some classAttribute →
      Attribute.put classAttribute a (withClass classAttribute before attrs) = Attribute.put classAttribute a attrs := by
    intro a before named
    cases withClass_cases classAttribute before attrs with
    | inl same => rw [same]
    | inr given =>
      obtain ⟨name, same⟩ := given
      rw [same, Attribute.setText_eq, Attribute.put_put (Attribute.name?_ofText classAttribute name)]
  by_cases held : Attribute.stringValue? attrs classAttribute = some value
  · have kept : withClass classAttribute (some value) attrs = attrs := by rw [withClass, if_pos held]
    unfold Attribute.stringValue? at held
    split at held
    · rename_i name value' quote found
      obtain rfl := Option.some.inj held
      have named : (Attribute.string name value' quote).name? = some classAttribute := by simpa using List.find?_some found
      obtain rfl := Option.some.inj named
      have member := List.mem_of_find?_eq_some found
      refine ⟨_, .string quote, sound _ member, rfl, fun before => ?_⟩
      rw [again _ before rfl, Attribute.put_found found, kept]
    · cases held
  · refine ⟨_, Attribute.carries_ofText classAttribute value, Attribute.sound_ofText isName value,
      Attribute.parts_ofText classAttribute value, fun before => ?_⟩
    rw [again _ before (Attribute.name?_ofText classAttribute value), withClass, if_neg held, Attribute.setText_eq]

end Rebuild

namespace Document

variable {d : Document}

def sourced (ts : List (Tree Record)) : List (String × Node) := (Tree.pairsAll ts).filterMap fun e => e.2.node?.map (e.1, ·)

theorem mem_sourced {ts : List (Tree Record)} {id : String} {n : Node} :
    (id, n) ∈ sourced ts ↔ ∃ r, (id, r) ∈ Tree.pairsAll ts ∧ r.node? = some n := by
  simp only [sourced, List.mem_filterMap, Option.map_eq_some_iff, Prod.mk.injEq]
  constructor
  · rintro ⟨⟨key, r⟩, member, m, node, rfl, rfl⟩
    exact ⟨r, member, node⟩
  · rintro ⟨r, member, node⟩
    exact ⟨(id, r), member, n, node, rfl, rfl⟩

theorem nodes_sourced (ts : List (Tree Record)) : (sourced ts).map Prod.snd = Shape.sources (Tree.shapeAll Record.node? ts) := by
  rw [Shape.sources, Tree.valuesAll_shapeAll, List.filterMap_map, sourced, List.map_filterMap]
  refine List.filterMap_congr fun e _ => ?_
  show (e.2.node?.map (e.1, ·)).map Prod.snd = e.2.node?
  cases e.2.node? <;> rfl

section

variable {t : SourceTree} (blank : d.store = Store.empty) (path : String) (generation : Nat)

include blank

theorem live_sourced {id : String} {n : Node} :
    (∃ r, (d.build path t generation).store.get? id = some r ∧ r.node? = some n) ↔
      (id, n) ∈ sourced (d.fileTree path t generation).children := by
  rw [mem_sourced]
  constructor
  · rintro ⟨r, found, node⟩
    have member := (build_get? blank path t generation id r).mp found
    rw [Tree.pairs_eq] at member
    rcases List.mem_cons.mp member with same | member
    · obtain ⟨_, rfl⟩ := Prod.mk.inj same
      cases node
    · exact ⟨r, member, node⟩
  · rintro ⟨r, member, node⟩
    refine ⟨r, (build_get? blank path t generation id r).mpr ?_, node⟩
    rw [Tree.pairs_eq]
    exact List.mem_cons_of_mem _ member

variable {source : String} (parsed : parse source = .ok t)

include parsed

theorem entries_build {n : Node} (none : n.kind ≠ .other) :
    (n, false) ∈ Survey.parts t.body ↔ ∃ id r, (d.build path t generation).store.get? id = some r ∧ r.node? = some n := by
  rw [← (Shape.sources_ofTree (parse_regular parsed)).2 n none, ← d.shape_fileTree path t generation, ← nodes_sourced]
  constructor
  · intro member
    obtain ⟨⟨id, _⟩, listed, rfl⟩ := List.mem_map.mp member
    exact ⟨id, (live_sourced blank path generation).mpr listed⟩
  · rintro ⟨id, held⟩
    exact List.mem_map.mpr ⟨(id, n), (live_sourced blank path generation).mp held, rfl⟩

theorem alone_build {id : String} {r : Record} {n : Node} (live : (d.build path t generation).store.get? id = some r)
    (node : r.node? = some n) : Alone (d.build path t generation).store.get? id n := by
  have apart := parse_nodes_apart parsed
  rw [SourceTree.nodes, ← Survey.parts_walk] at apart
  have outside := (Shape.sources_ofTree (parse_regular parsed)).1
  rw [← d.shape_fileTree path t generation, ← nodes_sourced] at outside
  have own := (live_sourced blank path generation).mp ⟨r, live, node⟩
  have seen : ∀ {key m}, (key, m) ∈ sourced (d.fileTree path t generation).children → (m, false) ∈ Survey.parts t.body :=
    fun member => Survey.mem_outside.mp (outside.subset (List.mem_map_of_mem (f := Prod.snd) member))
  constructor
  · intro key q m found source same
    have other := (live_sourced blank path generation).mp ⟨q, found, source⟩
    have visible : (Survey.outside (Survey.parts t.body)).Sublist ((Survey.parts t.body).map Prod.fst) := List.filter_sublist.map _
    have pair := eq_of_sameSource (apart.sublist (outside.trans visible)) own other same
    exact (congrArg Prod.fst pair).symm
  · intro key q e found source k held
    have hidden : (k, true) ∈ Survey.parts t.body :=
      (Survey.parts_hidden t.body).mpr ⟨e, seen ((live_sourced blank path generation).mp ⟨q, found, source⟩), held⟩
    by_contra same
    cases eq_of_sameSource apart (seen own) hidden (by simpa using same)

end

theorem Sturdy.at_time (sturdy : d.Sturdy) (now : Nat) : ({ d with now } : Document).Sturdy :=
  ⟨sturdy.standing.at_time now, sturdy.regular, sturdy.files, sturdy.fixed⟩

theorem run_setText {id : String} {r : Record} {n : Node} (live : d.store.get? id = some r) (node : r.node? = some n) (kind : n.kind = .text)
    (now : Nat) (value : String) :
    d.run [(now, .setText id value)] = ({ d with now } : Document).update id fun r => { r with text := some value } := by
  have isText : ({ d with now } : Document).kindOf? id = some .text := by simp [kindOf?, live, Record.kind?, node, kind]
  show ({ d with now } : Document).setText id value = _
  rw [setText, if_pos isText]

theorem run_setClass {id : String} {r : Record} {n : Node} (live : d.store.get? id = some r) (node : r.node? = some n) (kind : n.kind = .element)
    (now : Nat) (value : String) :
    d.run [(now, .setClass id value)] = ({ d with now } : Document).update id fun r => { r with className := some value } := by
  have isElement : ({ d with now } : Document).kindOf? id = some .element := by simp [kindOf?, live, Record.kind?, node, kind]
  show ({ d with now } : Document).setClass id value = _
  rw [setClass, if_pos isElement]

-- A file is opened and one of its texts or classes is changed: what is printed is read again, and the tree read is the one
-- that was opened, without locations and with closing braces in wrappers, except that the place of the text holds what
-- spells the new text, or that the first attribute of the class, or a new last one, carries the new class.
theorem edited_values_survive {source : String} {t : SourceTree} (parsed : parse source = .ok t) (path classAttribute : String)
    (undoWindow maxLevels : Nat) :
    ∃ root d, (new classAttribute undoWindow maxLevels).load path t = .ok (root, d) ∧
      (∀ n, n.kind ≠ .other → ((n, false) ∈ Survey.parts t.body ↔ ∃ id r, d.store.get? id = some r ∧ r.node? = some n)) ∧
      (∀ id r place old, d.store.get? id = some r → r.node? = some (.text place old) → ∀ now value, ∃ u t' filling,
        (d.run [(now, .setText id value)]).modifiedTree path = .ok u ∧ parse u.print = .ok t' ∧ Spells value.toList filling ∧
          unplaced.tree t' = unplaced.tree ((refilled place filling).tree t)) ∧
      (Tag.IsName classAttribute → ∀ id r n, d.store.get? id = some r → r.node? = some n → n.kind = .element → ∀ now value, ∃ u t' a,
        (d.run [(now, .setClass id value)]).modifiedTree path = .ok u ∧ parse u.print = .ok t' ∧ a.Carries classAttribute value ∧
          unplaced.tree t' = splitBraces.tree (t.rewrite (n.only (Node.putAttribute classAttribute a)))) := by
  have blank : (new classAttribute undoWindow maxLevels).store = Store.empty := rfl
  obtain ⟨root, loaded⟩ := load_new classAttribute undoWindow maxLevels path t
  have assembled : Assembled classAttribute ((new classAttribute undoWindow maxLevels).build path t 0) :=
    .load (.new undoWindow maxLevels) parsed rfl ⟨rfl, fun _ => rfl⟩ loaded
  have sturdy := assembled.sturdy
  have present := modifiedTree_build blank path (parse_regular parsed) 0
  have rooted := (build_get? blank path t 0 (File.rootId path) _).mpr List.mem_cons_self
  have alone := fun id r n => @alone_build _ t blank path 0 source parsed id r n
  have entries := fun n => @entries_build _ t blank path 0 source parsed n
  have classes := assembled.reached.tended.classes
  generalize (new classAttribute undoWindow maxLevels).build path t 0 = d at loaded sturdy present rooted alone entries classes
  refine ⟨root, d, loaded, entries, ?_, ?_⟩
  · intro id r place old live node now value
    have written := modifiedTree_update (sturdy.at_time now) live node (alone id r _ live node) (fun r => { r with text := some value })
      (fun _ => ⟨rfl, rfl, rfl⟩) (Rewrite.faithful_retext value) (fun _ => rfl) rooted present
    obtain ⟨t', again, filling, spells, same⟩ := parse_print_retext parsed place old value
    rw [run_setText live node rfl]
    exact ⟨_, t', filling, written, again, spells, same⟩
  · intro isName id r n live node kind now value
    cases n with
    | element loc tag attrs kids selfClosing =>
      have seen : (Node.element loc tag attrs kids selfClosing) ∈ t.nodes := by
        rw [SourceTree.nodes, ← Survey.parts_walk]
        exact List.mem_map_of_mem (f := Prod.fst) ((entries _ (by simp [Node.kind])).mpr ⟨id, r, live, node⟩)
      obtain ⟨_, good, _⟩ := (parse_sound parsed).inside _ seen
      obtain ⟨a, carries, sound, empty, put⟩ := Rebuild.withClass_put isName value good
      have written := modifiedTree_update (sturdy.at_time now) live node (alone id r _ live node) (fun r => { r with className := some value })
        (fun _ => ⟨rfl, rfl, rfl⟩) (Rewrite.faithful_putAttribute classAttribute sound empty)
        (fun kids => by rw [show ({ d with now } : Document).classAttribute = classAttribute from classes, Rebuild.form, Node.putAttribute, put]; rfl)
        rooted present
      obtain ⟨t', again, same⟩ := parse_print_put parsed (.element loc tag attrs kids selfClosing) classAttribute sound empty
      rw [run_setClass live node rfl]
      exact ⟨_, t', a, written, again, carries, same⟩
    | fragment | text | wrapper | other => cases kind

theorem edited_values_survive_escaped :
    ∃ t root d place old e u t' filling v t'' a, parse "x = <p k=\"c\">a</p>;" = .ok t ∧ (new "k" 1000 100).load "f" t = .ok (root, d) ∧
      (Node.text place old, false) ∈ Survey.parts t.body ∧ (d.run [(1, .setText (File.nodeId "f" 0 3) "<i>\x7d")]).modifiedTree "f" = .ok u ∧
      u.print = "x = <p k=\"c\">\x7b\"<\"\x7di>\x7b\"\x7d\"\x7d</p>;" ∧ parse u.print = .ok t' ∧ Spells "<i>\x7d".toList filling ∧
      unplaced.tree t' = unplaced.tree ((refilled place filling).tree t) ∧ (e, false) ∈ Survey.parts t.body ∧
      (d.run [(1, .setClass (File.nodeId "f" 0 2) "it's \"q\"")]).modifiedTree "f" = .ok v ∧
      v.print = "x = <p k=\x7b\"it's \\\"q\\\"\"\x7d>a</p>;" ∧ parse v.print = .ok t'' ∧ a.Carries "k" "it's \"q\"" ∧
      unplaced.tree t'' = splitBraces.tree (t.rewrite (e.only (Node.putAttribute "k" a))) := by
  have ran : ((parse "x = <p k=\"c\">a</p>;").toOption.bind fun t => ((new "k" 1000 100).load "f" t).toOption.bind fun o =>
      ((o.2.run [(1, .setText (File.nodeId "f" 0 3) "<i>\x7d")]).modifiedTree "f").toOption.bind fun u =>
        ((o.2.run [(1, .setClass (File.nodeId "f" 0 2) "it's \"q\"")]).modifiedTree "f").toOption.map fun v =>
          ((o.2.store.get? (File.nodeId "f" 0 3)).bind Record.kind?, (o.2.store.get? (File.nodeId "f" 0 2)).bind Record.kind?, u.print, v.print)) =
        some (some .text, some .element, "x = <p k=\"c\">\x7b\"<\"\x7di>\x7b\"\x7d\"\x7d</p>;", "x = <p k=\x7b\"it's \\\"q\\\"\"\x7d>a</p>;") := by
    decide +kernel
  simp only [Option.bind_eq_some_iff, Option.map_eq_some_iff, Prod.mk.injEq] at ran
  obtain ⟨t, parsed, ⟨root, d⟩, opened, u, retexted, v, classed, ⟨r, live, isText⟩, ⟨q, live', isElement⟩, printed, printed'⟩ := ran
  have parsed := eq_ok_of_toOption parsed
  have isName : Tag.IsName "k" := Tag.isName_iff.mpr rfl
  obtain ⟨root', d', loaded, entries, texts, classes⟩ := edited_values_survive parsed "f" "k" 1000 100
  obtain ⟨rfl, rfl⟩ := Prod.mk.inj (Except.ok.inj ((eq_ok_of_toOption opened).symm.trans loaded))
  obtain ⟨n, source, kind⟩ := Option.map_eq_some_iff.mp isText
  obtain ⟨e, source', kind'⟩ := Option.map_eq_some_iff.mp isElement
  cases n with
  | text place old =>
    obtain ⟨u', t', filling, written, again, spells, same⟩ := texts _ r place old live source 1 "<i>\x7d"
    obtain ⟨v', t'', a, written', again', carries, same'⟩ := classes isName _ q e live' source' kind' 1 "it's \"q\""
    obtain rfl := Except.ok.inj ((eq_ok_of_toOption retexted).symm.trans written)
    obtain rfl := Except.ok.inj ((eq_ok_of_toOption classed).symm.trans written')
    have shown := (entries _ (by simp [Node.kind])).mpr ⟨_, r, live, source⟩
    have shown' := (entries e (by simp [kind'])).mpr ⟨_, q, live', source'⟩
    exact ⟨t, root, d, place, old, e, u, t', filling, v, t'', a, parsed, loaded, shown, written, printed, again, spells, same, shown', written',
      printed', again', carries, same'⟩
  | element | fragment | wrapper | other => cases kind

end Document

end MarkupEditor
