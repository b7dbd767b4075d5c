import MarkupEditor.Document.Numbering
import MarkupEditor.Proofs.Document.Planting
import MarkupEditor.Proofs.Document.Reconstruction
import MarkupEditor.Proofs.Document.Reopening
import MarkupEditor.Proofs.Markup.Elements

namespace MarkupEditor

theorem find?_of_nodup {β κ : Type} [DecidableEq κ] {l : List β} {key : β → κ} (nodup : (l.map key).Nodup) {b : β} (member : b ∈ l) :
    l.find? (key · == key b) = some b := by
  induction l with
  | nil => cases member
  | cons a l ih =>
    obtain ⟨absent, nodup⟩ := List.nodup_cons.mp nodup
    rcases List.mem_cons.mp member with rfl | member
    · simp
    · have other : key a ≠ key b := fun same => absent (same ▸ List.mem_map_of_mem member)
      rw [List.find?_cons_of_neg (by simpa using other)]
      exact ih nodup member

theorem pairwise_zipIdx {β : Type} (l : List β) : l.zipIdx.Pairwise fun a b => a.2 ≠ b.2 := by
  apply List.pairwise_map.mp
  rw [List.zipIdx_map_snd]
  exact List.nodup_range'

namespace File

variable {f : File} {number : Nat} {id : String}

theorem idOf?_eq_some (nodup : (f.numbering.map Prod.fst).Nodup) : f.idOf? number = some id ↔ (number, id) ∈ f.numbering := by
  rw [idOf?, Option.map_eq_some_iff]
  constructor
  · rintro ⟨e, found, rfl⟩
    have here : e.1 = number := by simpa using List.find?_some found
    exact here ▸ List.mem_of_find?_eq_some found
  · exact fun member => ⟨_, find?_of_nodup nodup member, rfl⟩

theorem numberOf?_eq_some (nodup : (f.numbering.map Prod.snd).Nodup) : f.numberOf? id = some number ↔ (number, id) ∈ f.numbering := by
  have turned : (f.numbering.reverse.map Prod.snd).Nodup := by
    rw [List.map_reverse]
    exact List.nodup_reverse.mpr nodup
  rw [numberOf?, Option.map_eq_some_iff]
  constructor
  · rintro ⟨e, found, rfl⟩
    have here : e.2 = id := by simpa using List.find?_some found
    exact here ▸ List.mem_reverse.mp (List.mem_of_find?_eq_some found)
  · exact fun member => ⟨_, find?_of_nodup turned (List.mem_reverse.mpr member), rfl⟩

end File

namespace Draft

def marks (ts : List (Tree Draft)) : List (Nat × Origin) := (Tree.pairsAll ts).filterMap fun e => e.2.number.map (·, e.2.record.origin)

-- The elements that do not stand in attribute values, with their numbers when all are counted.
def outside (count : Nat) (seen : List (Node × Bool)) : List (Nat × Origin) :=
  (seen.zipIdx count).filterMap fun e => if e.1.2 then none else some (e.2, .node e.1.1)

-- Drafts whose numbers are those of the elements that were met between two counts.
structure Tally (c next : Count) (ts : List (Tree Draft)) (seen : List (Node × Bool)) : Prop where
  next : next.elements = c.elements + seen.length
  marks : marks ts = outside c.elements seen

section

variable {c c' next : Count} {ts us : List (Tree Draft)} {seen seen' : List (Node × Bool)}

theorem outside_append (count : Nat) (seen seen' : List (Node × Bool)) :
    outside count (seen ++ seen') = outside count seen ++ outside (count + seen.length) seen' := by
  rw [outside, List.zipIdx_append, List.filterMap_append]
  rfl

theorem outside_hidden (count : Nat) {seen : List (Node × Bool)} (hidden : ∀ e ∈ seen, e.2 = true) : outside count seen = [] := by
  apply List.filterMap_eq_nil_iff.mpr
  intro e member
  rw [hidden e.1 (List.fst_mem_of_mem_zipIdx member), if_pos rfl]

theorem Tally.nil (c : Count) : Tally c c [] [] := ⟨rfl, rfl⟩

theorem Tally.append (first : Tally c c' ts seen) (second : Tally c' next us seen') : Tally c next (ts ++ us) (seen ++ seen') := by
  constructor
  · rw [second.next, first.next, List.length_append, Nat.add_assoc]
  · rw [outside_append, ← first.next, ← first.marks, ← second.marks, Draft.marks, Tree.pairsAll_append, List.filterMap_append]
    rfl

theorem Tally.element {id : String} {d : Draft} {n : Node} {hidden : List (Node × Bool)} (below : Tally c' next ts seen)
    (passed : ∀ e ∈ hidden, e.2 = true) (taken : c'.elements = c.elements + 1 + hidden.length) (number : d.number = some c.elements)
    (origin : d.record.origin = .node n) : Tally c next [.mk id d ts] ((n, false) :: (hidden ++ seen)) := by
  constructor
  · rw [below.next, taken, List.length_cons, List.length_append]
    omega
  · have later : outside (c.elements + 1) (hidden ++ seen) = Draft.marks ts := by
      rw [outside_append, outside_hidden _ passed, List.nil_append, ← taken, below.marks]
    have first : Draft.marks [.mk id d ts] = (c.elements, .node n) :: Draft.marks ts := by
      simp [Draft.marks, Tree.pairsAll, Tree.pairs, number, origin]
    rw [first, ← later]
    rfl

theorem Tally.unnumbered {id : String} {d : Draft} (below : Tally c' next ts seen) (taken : c'.elements = c.elements) (number : d.number = none) :
    Tally c next [.mk id d ts] seen := by
  constructor
  · rw [below.next, taken]
  · have same : Draft.marks [.mk id d ts] = Draft.marks ts := by simp [Draft.marks, Tree.pairsAll, Tree.pairs, number]
    rw [same, below.marks, taken]

end

variable (name : Nat → String) (classAttribute : String)

mutual

theorem node_tally (inMarkup : Bool) (c : Count) : ∀ n : Node,
    Tally c (node name classAttribute inMarkup c n).2 (node name classAttribute inMarkup c n).1 (Survey.elements (Survey.node n))
  | .element loc tag attributes children selfClosing => by
    have below := nodes_tally ⟨c.ids + 1, c.elements + 1 + elementsIn attributes⟩ children
    have seen : Survey.elements (Survey.node (.element loc tag attributes children selfClosing)) =
        (.element loc tag attributes children selfClosing, false) ::
          (Survey.elements ((Walk.attributes attributes).map (·, true)) ++ Survey.elements (Survey.nodes children)) := by
      rw [← Survey.elements_append]
      rfl
    rw [seen]
    refine below.element (fun e member => ?_) ?_ rfl rfl
    · obtain ⟨m, _, rfl⟩ := List.mem_map.mp (List.mem_of_mem_filter member)
      rfl
    · rw [Survey.length_elements, Survey.map_hidden]
      rfl
  | .fragment loc children => (nodes_tally c.nextId children).unnumbered rfl rfl
  | .text loc value => by
    rw [node]
    split
    · exact (Tally.nil c.nextId).unnumbered rfl rfl
    · exact .nil c
  | .wrapper loc spread expression => by
    rw [node]
    split
    · exact (parts_tally c.nextId expression).unnumbered rfl rfl
    · exact parts_tally c expression
  | .other loc ps => parts_tally c ps

theorem nodes_tally (c : Count) : ∀ ns : List Node,
    Tally c (nodes name classAttribute c ns).2 (nodes name classAttribute c ns).1 (Survey.elements (Survey.nodes ns))
  | [] => .nil c
  | n :: ns => by
    rw [Survey.nodes, Survey.elements_append]
    exact (node_tally true c n).append (nodes_tally (node name classAttribute true c n).2 ns)

theorem part_tally (c : Count) : ∀ p : Part,
    Tally c (part name classAttribute c p).2 (part name classAttribute c p).1 (Survey.elements (Survey.part p))
  | .code _ => .nil c
  | .node n => node_tally false c n

theorem parts_tally (c : Count) : ∀ ps : List Part,
    Tally c (parts name classAttribute c ps).2 (parts name classAttribute c ps).1 (Survey.elements (Survey.parts ps))
  | [] => .nil c
  | p :: ps => by
    rw [Survey.parts, Survey.elements_append]
    exact (part_tally c p).append (parts_tally (part name classAttribute c p).2 ps)

end

theorem statement_tally (c : Count) (n : Node) :
    Tally c (statement name classAttribute c n).2 (statement name classAttribute c n).1 (Survey.elements (Survey.node n)) := by
  cases n with
  | other loc ps =>
    have inside := parts_tally name classAttribute c.nextId ps
    rw [statement]
    dsimp only
    split
    · rename_i empty
      rw [List.isEmpty_iff.mp empty] at inside
      exact ⟨inside.next, inside.marks⟩
    · exact inside.unnumbered rfl rfl
  | element | fragment | text | wrapper => exact node_tally name classAttribute false c _

theorem statements_tally (c : Count) (ns : List Node) :
    Tally c (statements name classAttribute c ns).2 (statements name classAttribute c ns).1 (Survey.elements (Survey.nodes ns)) := by
  induction ns generalizing c with
  | nil => exact .nil c
  | cons n ns ih =>
    rw [Survey.nodes, Survey.elements_append]
    exact (statement_tally name classAttribute c n).append (ih _)

theorem marks_ofTree (t : SourceTree) : marks (ofTree name classAttribute t) = outside 0 t.sightings := by
  rw [SourceTree.sightings, Survey.parts_eq]
  exact (statements_tally name classAttribute {} t.statements).marks

mutual

theorem numbers_eq : ∀ t : Tree Draft, numbers t = t.pairs.filterMap fun e => e.2.number.map (·, e.1)
  | .mk id d children => by
    have below := numbersAll_eq children
    rw [numbers, Tree.pairs, List.filterMap_cons, ← below]
    cases d.number <;> rfl

theorem numbersAll_eq : ∀ ts : List (Tree Draft), numbersAll ts = (Tree.pairsAll ts).filterMap fun e => e.2.number.map (·, e.1)
  | [] => rfl
  | t :: ts => by rw [numbersAll, Tree.pairsAll, List.filterMap_append, numbers_eq t, numbersAll_eq ts]

end

theorem mem_numbersAll {ts : List (Tree Draft)} {number : Nat} {id : String} :
    (number, id) ∈ numbersAll ts ↔ ∃ d, (id, d) ∈ Tree.pairsAll ts ∧ d.number = some number := by
  simp only [numbersAll_eq, List.mem_filterMap, Option.map_eq_some_iff, Prod.mk.injEq]
  constructor
  · rintro ⟨⟨id', d⟩, member, _, held, rfl, rfl⟩
    exact ⟨d, member, held⟩
  · rintro ⟨d, member, held⟩
    exact ⟨(id, d), member, number, held, rfl, rfl⟩

theorem mem_marks {ts : List (Tree Draft)} {number : Nat} {origin : Origin} :
    (number, origin) ∈ marks ts ↔ ∃ id d, (id, d) ∈ Tree.pairsAll ts ∧ d.number = some number ∧ d.record.origin = origin := by
  simp only [marks, List.mem_filterMap, Option.map_eq_some_iff, Prod.mk.injEq]
  constructor
  · rintro ⟨⟨id, d⟩, member, _, held, rfl, same⟩
    exact ⟨id, d, member, held, same⟩
  · rintro ⟨id, d, member, held, same⟩
    exact ⟨(id, d), member, number, held, rfl, same⟩

theorem mem_outside {seen : List (Node × Bool)} {number : Nat} {origin : Origin} :
    (number, origin) ∈ outside 0 seen ↔ ∃ n, seen[number]? = some (n, false) ∧ origin = .node n := by
  rw [outside, List.mem_filterMap]
  constructor
  · rintro ⟨⟨⟨n, hidden⟩, k⟩, member, held⟩
    cases hidden with
    | true => cases held
    | false =>
      obtain ⟨rfl, rfl⟩ := Prod.mk.inj (Option.some.inj held)
      exact ⟨n, List.mem_zipIdx_iff_getElem?.mp member, rfl⟩
  · rintro ⟨n, held, rfl⟩
    exact ⟨((n, false), number), List.mem_zipIdx_iff_getElem?.mpr held, rfl⟩

theorem number_iff (t : SourceTree) (number : Nat) (n : Node) :
    (∃ id d, (id, d) ∈ Tree.pairsAll (ofTree name classAttribute t) ∧ d.number = some number ∧ d.record.origin = .node n) ↔
      t.sightings[number]? = some (n, false) := by
  rw [← mem_marks, marks_ofTree, mem_outside]
  constructor
  · rintro ⟨m, seen, same⟩
    cases same
    exact seen
  · exact fun seen => ⟨n, seen, rfl⟩

theorem seen_of_number {t : SourceTree} {number : Nat} {id : String} (member : (number, id) ∈ numbersAll (ofTree name classAttribute t)) :
    ∃ n, t.sightings[number]? = some (n, false) := by
  obtain ⟨d, drafted, held⟩ := mem_numbersAll.mp member
  have marked : (number, d.record.origin) ∈ marks (ofTree name classAttribute t) := mem_marks.mpr ⟨id, d, drafted, held, rfl⟩
  rw [marks_ofTree] at marked
  obtain ⟨n, seen, _⟩ := mem_outside.mp marked
  exact ⟨n, seen⟩

theorem nodup_numbers (t : SourceTree) : ((numbersAll (ofTree name classAttribute t)).map Prod.fst).Nodup := by
  have same : (numbersAll (ofTree name classAttribute t)).map Prod.fst = (marks (ofTree name classAttribute t)).map Prod.fst := by
    simp only [numbersAll_eq, marks, List.map_filterMap, Option.map_map]
    rfl
  rw [same, marks_ofTree, outside, List.Nodup, List.pairwise_map, List.pairwise_filterMap]
  apply (pairwise_zipIdx t.sightings).imp
  intro a b other e first e' second
  split at first
  · cases first
  · split at second
    · cases second
    · cases first
      cases second
      exact other

theorem nodup_numbered {ts : List (Tree Draft)} (nodup : ((Tree.pairsAll ts).map Prod.fst).Nodup) : ((numbersAll ts).map Prod.snd).Nodup := by
  rw [numbersAll_eq, List.Nodup, List.pairwise_map, List.pairwise_filterMap]
  apply (List.pairwise_map.mp nodup).imp
  intro a b other e first e' second
  obtain ⟨_, _, rfl⟩ := Option.map_eq_some_iff.mp first
  obtain ⟨_, _, rfl⟩ := Option.map_eq_some_iff.mp second
  exact other

theorem exists_layAll (s : Store Record) (top : String) (keys : List String) {ts : List (Tree Draft)} {id : String} {d : Draft}
    (member : (id, d) ∈ Tree.pairsAll ts) : ∃ parent order, (id, d.record.placed parent order) ∈ Tree.pairsAll (layAll s top keys ts) := by
  have placed := layAll_pairs s top keys ts
  generalize Tree.pairsAll (layAll s top keys ts) = entries at placed ⊢
  generalize Tree.pairsAll ts = drafts at placed member
  induction placed with
  | nil => cases member
  | @cons first e drafts entries here _ ih =>
    rcases List.mem_cons.mp member with rfl | member
    · obtain ⟨id, parent, order, same⟩ := here
      exact ⟨parent, order, List.mem_cons.mpr (.inl (Prod.ext id.symm same.symm))⟩
    · obtain ⟨parent, order, listed⟩ := ih member
      exact ⟨parent, order, List.mem_cons_of_mem _ listed⟩

end Draft

theorem Record.pathOf?_rootId (path : String) : Record.pathOf? (File.rootId path) = some path := by
  have spelled : (File.rootId path).toList = Record.fileMark.toList ++ path.toList := by simp [File.rootId]
  have marked : Record.fileMark.toList.isPrefixOf (File.rootId path).toList = true := by
    rw [List.isPrefixOf_iff_prefix, spelled]
    exact List.prefix_append ..
  rw [Record.pathOf?, if_pos marked, spelled, ← String.length_toList, List.drop_left, String.ofList_toList]

theorem Store.Layout.root {s : Store Record} {t : Tree Record} (layout : Layout s t) (wooded : Wooded s.get?) (orphan : t.value.parent = none)
    {u : Tree Record} (within : t.Within u) : s.root u.id = t.id := by
  have downward : ∀ v u, v.Within u → t.Within v → s.root v.id = t.id → s.root u.id = t.id := by
    intro v u inside
    induction inside with
    | self => exact fun _ same => same
    | @inside v c u child _ ih =>
      intro above same
      have named := parent_of_parentId (layout.parents v above c child) (wooded.named (layout.get? above))
      have names : Names s.get? v.id c.id := ⟨c.value, layout.get? (above.child child), named⟩
      exact ih (above.child child) ((root_child wooded names).trans same)
  exact downward t u within (.self t) (root_orphan (layout.get? (.self t)) orphan)

namespace Document

theorem node_of_live {d : Document} (serves : d.instances.Serves d.store) {id : String} {r : Record} (found : d.store.get? id = some r) :
    ∃ h, d.node id = .ok h ∧ h.id = id := by
  obtain ⟨h, held⟩ := handle?_of_live serves found
  exact ⟨h, by rw [node, held], (handle?_eq_some.mp held).1⟩

section

variable {d : Document} (blank : d.store = Store.empty) (path : String) (tree : SourceTree) (generation : Nat)

include blank

theorem filePathOf?_build {id : String} {r : Record} (found : (d.build path tree generation).store.get? id = some r) :
    (d.build path tree generation).filePathOf? id = some path := by
  have nothing : d.contents () = fun _ => none := by
    funext key
    rw [contents, blank]
    rfl
  have wooded : Store.Wooded (d.build path tree generation).store.get? :=
    (planted_build (d := d) (nothing ▸ planted_nothing) path tree generation).toWooded
  have layout := layout_build blank path tree generation
  obtain ⟨u, within, same⟩ := Tree.mem_pairs.mp ((build_get? blank path tree generation id r).mp found)
  have top := (build_get? blank path tree generation (File.rootId path) (d.rootRecord path tree)).mpr List.mem_cons_self
  rw [filePathOf?, (Prod.mk.inj same).1, layout.root wooded rfl within, filePath?]
  simp only [fileTree, Tree.id, top]
  exact Record.pathOf?_rootId path

end

theorem file?_build (d : Document) (path : String) (tree : SourceTree) (generation : Nat) :
    (d.build path tree generation).file? path =
      some { path, tree, generation, numbering := Draft.numbersAll ((d.rooted path tree).drafts path tree generation) } := by
  have files := congrArg (File.put { path, tree, generation, numbering := Draft.numbersAll ((d.rooted path tree).drafts path tree generation) })
    (d.edited_placed path tree generation).files
  exact (congrArg (File.find? · path) files).trans (by rw [File.find?_put, if_pos rfl])

theorem nodup_numbering (d : Document) (path : String) (tree : SourceTree) (generation : Nat) :
    ((Draft.numbersAll (d.drafts path tree generation)).map Prod.fst).Nodup ∧ ((Draft.numbersAll (d.drafts path tree generation)).map Prod.snd).Nodup := by
  obtain ⟨numbers, ascending, ids⟩ := @ids_drafts d path tree generation
  refine ⟨Draft.nodup_numbers _ _ tree, Draft.nodup_numbered ?_⟩
  rw [ids]
  have nodup : numbers.Nodup := ascending.imp fun less => Nat.ne_of_lt less
  exact nodup.map fun _ _ same => File.nodeId_injective same

-- A number leads to the entry of its element, the entry to the tag that the preview shows, and the tag back to the
-- entry.
theorem numberings_agree (t : SourceTree) (path mark classAttribute : String) (undoWindow maxLevels : Nat) :
    t.sightings.map Prod.fst = t.elements ∧
      List.Forall₂ (Annotate.TaggedAs path mark) t.elements.zipIdx (t.annotate path mark).elements ∧
      ∃ root d f, (new classAttribute undoWindow maxLevels).load path t = .ok (root, d) ∧ d.file? path = some f ∧
        ∀ i, match t.sightings[i]? with
          | some (e, false) => ∃ h r, f.idOf? i = some h.id ∧ d.node h.id = .ok h ∧ d.record? h = some r ∧ r.node? = some e ∧
              d.tagOf? h.id = some (PreviewTag.format ⟨path, i⟩) ∧
              (i ≤ Text.largest64 → d.nodeForTag (PreviewTag.format ⟨path, i⟩) = .ok h)
          | _ => f.idOf? i = none := by
  refine ⟨t.sightings_walk, t.annotate_elements path mark, ?_⟩
  obtain ⟨root, loaded⟩ := load_new classAttribute undoWindow maxLevels path t
  have serves : (new classAttribute undoWindow maxLevels).instances.Serves (new classAttribute undoWindow maxLevels).store :=
    Instances.serves_ofStore Store.empty 0
  have blank : (new classAttribute undoWindow maxLevels).store = Store.empty := rfl
  generalize new classAttribute undoWindow maxLevels = d at loaded serves blank
  have file := d.file?_build path t 0
  obtain ⟨numbers, ids⟩ := (d.rooted path t).nodup_numbering path t 0
  refine ⟨root, _, _, loaded, file, fun i => ?_⟩
  split
  · rename_i e seen
    obtain ⟨id, dr, member, number, origin⟩ := (Draft.number_iff (File.nodeId path 0) (d.rooted path t).classAttribute t i e).mpr seen
    have listed := Draft.mem_numbersAll.mpr ⟨dr, member, number⟩
    obtain ⟨parent, order, placed⟩ := Draft.exists_layAll (d.rooted path t).store (File.rootId path)
      ((d.rooted path t).store.appendKeys (some (File.rootId path)) ((d.rooted path t).drafts path t 0).length) member
    have live := (build_get? blank path t 0 id _).mpr (List.mem_cons_of_mem _ placed)
    obtain ⟨h, found, rfl⟩ := node_of_live (serves_build serves path t 0) live
    have here := filePathOf?_build blank path t 0 live
    have onward := (File.idOf?_eq_some (f := { path, tree := t, numbering := _ }) numbers).mpr listed
    refine ⟨h, _, onward, found, live, ?_, ?_, fun small => ?_⟩
    · rw [Record.node?, Record.placed, origin]
    · have back : (d.build path t 0).numberOf? h.id = some i := by
        rw [numberOf?, here]
        simp only [file, Option.bind_some]
        exact (File.numberOf?_eq_some ids).mpr listed
      rw [tagOf?, here, back]
    · rw [nodeForTag, PreviewTag.parse?_format _ small]
      simp only [nodeForLocation, file, onward, found]
  · rename_i hidden
    apply Option.eq_none_iff_forall_ne_some.mpr
    intro id found
    obtain ⟨e, seen⟩ := Draft.seen_of_number _ _ ((File.idOf?_eq_some numbers).mp found)
    exact hidden e seen

theorem numberings_agree_colon :
    ∃ t root d h, parse "f(<p a=\x7b<b/>\x7d><i/></p>)" = .ok t ∧ (new "className" 0 0).load "a:1" t = .ok (root, d) ∧
      (2 ≤ Text.largest64 ∧ d.nodeForTag "a:1:2" = .ok h) ∧ d.tagOf? h.id = some "a:1:2" := by
  have seen : (parse "f(<p a=\x7b<b/>\x7d><i/></p>)").toOption.map (fun t => t.sightings.map fun e => (e.1.tagHead?.map TagHead.name, e.2)) =
      some [(some "p", false), (some "b", true), (some "i", false)] := by
    decide +kernel
  obtain ⟨t, parsed, tags⟩ := Option.map_eq_some_iff.mp seen
  obtain ⟨_, _, root, d, f, loaded, _, each⟩ := numberings_agree t "a:1" PreviewTag.defaultAttribute "className" 0 0
  have third := congrArg (·[2]?) tags
  simp only [List.getElem?_map] at third
  obtain ⟨e, held, same⟩ := Option.map_eq_some_iff.mp third
  obtain ⟨n, flag⟩ := e
  obtain rfl : flag = false := (Prod.mk.inj same).2
  have here := each 2
  rw [held] at here
  obtain ⟨h, _, _, _, _, _, tag, back⟩ := here
  have small : 2 ≤ Text.largest64 := by decide
  have spelled : PreviewTag.format ⟨"a:1", 2⟩ = "a:1:2" := by decide +kernel
  rw [spelled] at tag back
  exact ⟨t, root, d, h, eq_ok_of_toOption parsed, loaded, ⟨small, back small⟩, tag⟩

end Document

end MarkupEditor
