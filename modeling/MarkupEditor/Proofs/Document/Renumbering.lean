import MarkupEditor.Proofs.Document.Agreement
import MarkupEditor.Proofs.Document.Numbers
import MarkupEditor.Proofs.Document.Origins
import MarkupEditor.Proofs.Markup.Starts

namespace MarkupEditor

namespace Tree

variable {α : Type}

def elements (f : α → Option Node) (ts : List (Tree α)) : List (String × Node) :=
  (pairsAll ts).filterMap fun e => ((f e.2).filter (·.kind == .element)).map (e.1, ·)

theorem mem_elements {f : α → Option Node} {ts : List (Tree α)} {id : String} {n : Node} :
    (id, n) ∈ elements f ts ↔ ∃ v, (id, v) ∈ pairsAll ts ∧ f v = some n ∧ n.kind = .element := by
  simp only [elements, List.mem_filterMap, Option.map_eq_some_iff, Option.filter_eq_some_iff, beq_iff_eq, Prod.mk.injEq]
  constructor
  · rintro ⟨⟨id', v⟩, member, m, ⟨held, kind⟩, rfl, rfl⟩
    exact ⟨v, member, held, kind⟩
  · rintro ⟨v, member, held, kind⟩
    exact ⟨(id, v), member, n, ⟨held, kind⟩, rfl, rfl⟩

theorem ids_elements (f : α → Option Node) (ts : List (Tree α)) : ((elements f ts).map Prod.fst).Sublist ((pairsAll ts).map Prod.fst) := by
  rw [elements]
  generalize pairsAll ts = entries
  induction entries with
  | nil => exact .slnil
  | cons e entries ih =>
    rw [List.filterMap_cons, List.map_cons]
    split
    · exact .cons _ ih
    · rename_i q held
      obtain ⟨n, _, rfl⟩ := Option.map_eq_some_iff.mp held
      exact .cons_cons _ ih

end Tree

namespace Rebuild

variable {classAttribute : String}

theorem pairs_shown {t : Tree Record} {n : Node} (node : t.value.node? = some n) : Tree.pairsAll (shown classAttribute t) =
    (t.id, topForm classAttribute t n) :: Tree.pairsAll (if n.kind = .text then [] else shownAll classAttribute t.children) := by
  rw [shown_some node, Tree.pairsAll, Tree.pairs, Tree.pairsAll, List.append_nil]

theorem pairs_shownAll (ts : List (Tree Record)) :
    Tree.pairsAll (shownAll classAttribute ts) = ts.flatMap fun t => Tree.pairsAll (shown classAttribute t) := by
  induction ts with
  | nil => rfl
  | cons t ts ih => rw [shownAll, Tree.pairsAll_append, ih, List.flatMap_cons]

theorem mem_shown {t : Tree Record} {e : String × Node} (member : e ∈ Tree.pairsAll (shown classAttribute t)) :
    ∃ u n, t.Within u ∧ u.value.node? = some n ∧ e = (u.id, topForm classAttribute u n) := by
  induction t using Tree.children_induction with
  | step t ih =>
    cases node : t.value.node? with
    | none =>
      rw [shown_none node] at member
      cases member
    | some n =>
      rw [pairs_shown node] at member
      rcases List.mem_cons.mp member with rfl | below
      · exact ⟨t, n, .self t, node, rfl⟩
      · split at below
        · cases below
        · rw [pairs_shownAll] at below
          obtain ⟨c, child, inside⟩ := List.mem_flatMap.mp below
          obtain ⟨u, m, within, held, same⟩ := ih c child inside
          exact ⟨u, m, .inside child within, held, same⟩

theorem ids_flatMap {ts : List (Tree Record)}
    (each : ∀ t ∈ ts, ((Tree.pairsAll (shown classAttribute t)).map Prod.fst).Sublist (t.pairs.map Prod.fst)) :
    ((Tree.pairsAll (shownAll classAttribute ts)).map Prod.fst).Sublist ((Tree.pairsAll ts).map Prod.fst) := by
  induction ts with
  | nil => exact .slnil
  | cons t ts ih =>
    obtain ⟨first, later⟩ := List.forall_mem_cons.mp each
    rw [shownAll, Tree.pairsAll_append, Tree.pairsAll, List.map_append, List.map_append]
    exact first.append (ih later)

theorem ids_shown (t : Tree Record) : ((Tree.pairsAll (shown classAttribute t)).map Prod.fst).Sublist (t.pairs.map Prod.fst) := by
  induction t using Tree.children_induction with
  | step t ih =>
    cases node : t.value.node? with
    | none =>
      rw [shown_none node]
      exact List.nil_sublist _
    | some n =>
      rw [pairs_shown node, Tree.pairs_eq, List.map_cons, List.map_cons]
      apply List.Sublist.cons_cons
      split
      · exact List.nil_sublist _
      · exact ids_flatMap ih

theorem attributes_form (r : Record) (kids : List (Node × Node)) {n m : Node}
    (member : m ∈ Walk.attributes (form classAttribute r kids n).attributes) : m ∈ Walk.attributes n.attributes := by
  cases n with
  | element loc name attrs _ selfClosing =>
    rw [form, Node.attributes] at member
    rcases withClass_cases classAttribute r.className attrs with same | ⟨name, same⟩
    · rwa [same] at member
    · rw [same, Walk.mem_attributes] at member
      obtain ⟨k, listed, inside⟩ := member
      exact Walk.mem_attributes.mpr ⟨k, nodes_setText listed, inside⟩
  | fragment | text | wrapper | other => exact member

theorem loc_topForm (u : Tree Record) (n : Node) : (topForm classAttribute u n).loc = n.loc := by
  cases n <;> rfl

end Rebuild

-- Contents whose elements come from those of a tree that do not stand in attribute values, one entry from each.
structure Sourced (t : SourceTree) (get : String → Option Record) : Prop where
  seen : ∀ id r n, get id = some r → r.node? = some n → n.kind = .element → (n, false) ∈ t.sightings
  own : ∀ id id' r r' n n', get id = some r → get id' = some r' → r.node? = some n → r'.node? = some n' → n.kind = .element →
    n'.kind = .element → n.loc = n'.loc → id = id'

theorem Traced.sourced {top : String} {first now : String → Option Record} (traced : Traced top first now) {t : SourceTree}
    (sourced : Sourced t first) : Sourced t now := by
  constructor
  · intro id r n found node kind
    obtain ⟨r₀, known, origin⟩ := traced.origins id r found
    exact sourced.seen id r₀ n known (Record.node?_eq origin ▸ node) kind
  · intro id id' r r' n n' found found' node node'
    obtain ⟨r₀, known, origin⟩ := traced.origins id r found
    obtain ⟨r₁, known', origin'⟩ := traced.origins id' r' found'
    exact sourced.own id id' r₀ r₁ n n' known known' (Record.node?_eq origin ▸ node) (Record.node?_eq origin' ▸ node')

namespace Document

variable {d : Document}

theorem mem_sourcesBelow {top id : String} {n : Node} :
    (id, n) ∈ d.sourcesBelow top ↔ id ∈ d.store.descendants top ∧ ∃ r, d.store.get? id = some r ∧ r.node? = some n := by
  simp only [sourcesBelow, List.mem_filterMap, Option.map_eq_some_iff, Option.bind_eq_some_iff, Prod.mk.injEq]
  constructor
  · rintro ⟨key, listed, m, ⟨r, found, node⟩, rfl, rfl⟩
    exact ⟨listed, r, found, node⟩
  · rintro ⟨listed, r, found, node⟩
    exact ⟨id, listed, n, ⟨r, found, node⟩, rfl, rfl⟩

theorem madeFrom?_eq_some {sources : List (String × Node)} {n m : Node} {id : String} (member : (id, m) ∈ sources) (same : m.sameSource n = true)
    (only : ∀ e ∈ sources, e.2.sameSource n = true → e.1 = id) : madeFrom? sources n = some id := by
  rw [madeFrom?]
  cases found : sources.find? (·.2.sameSource n) with
  | none => exact absurd same (List.find?_eq_none.mp found _ member)
  | some e => exact congrArg some (only e (List.mem_of_find?_eq_some found) (by simpa using List.find?_some found))

def shownElements (d : Document) (top : String) : List (String × Node) :=
  Tree.elements some (Rebuild.shownAll d.classAttribute (d.store.trees top))

theorem mem_shownElements (wooded : Store.Wooded d.store.get?) {top id : String} {n : Node} (member : (id, n) ∈ d.shownElements top) :
    id ∈ d.store.descendants top ∧ ∃ tree src, d.tree? id = some tree ∧ d.store.get? id = some tree.value ∧ tree.value.node? = some src ∧
      src.kind = .element ∧ n = Rebuild.topForm d.classAttribute tree src := by
  obtain ⟨v, listed, held, kind⟩ := Tree.mem_elements.mp member
  obtain rfl := Option.some.inj held
  rw [Rebuild.pairs_shownAll] at listed
  obtain ⟨tree, branch, listed⟩ := List.mem_flatMap.mp listed
  obtain ⟨w, src, within, node, same⟩ := Rebuild.mem_shown listed
  obtain ⟨rfl, rfl⟩ := Prod.mk.inj same
  obtain ⟨live, children⟩ := Store.within_trees wooded branch within
  refine ⟨?_, w, src, ?_, live, node, (Rebuild.form_kind ..).symm.trans kind, rfl⟩
  · rw [Store.descendants, Tree.preorderAll_eq, Tree.pairsAll_eq]
    exact List.mem_map_of_mem (f := Prod.fst) (List.mem_flatMap.mpr ⟨tree, branch, Tree.mem_pairs.mpr ⟨w, within, rfl⟩⟩)
  · rw [tree?, live, ← children]
    cases w
    rfl

theorem nodup_shownElements (wooded : Store.Wooded d.store.get?) {top : String} (named : top ≠ Store.rootsId) :
    ((d.shownElements top).map Prod.fst).Nodup := by
  have nodup := Store.nodup_descendants wooded named
  rw [Store.descendants, Tree.preorderAll_eq] at nodup
  exact nodup.sublist ((Tree.ids_elements ..).trans (Rebuild.ids_flatMap fun t _ => Rebuild.ids_shown t))

-- The numbers of the elements of a present form, each with the entry below another that was made from the same source.
def renumbered (d : Document) (top : String) (u : SourceTree) : List (Nat × String) :=
  u.elements.zipIdx.filterMap fun (n, number) => (madeFrom? (d.sourcesBelow top).reverse n).map (number, ·)

theorem mem_renumbered {top : String} {u : SourceTree} {number : Nat} {id : String} :
    (number, id) ∈ d.renumbered top u ↔ ∃ n, u.elements[number]? = some n ∧ madeFrom? (d.sourcesBelow top).reverse n = some id := by
  simp only [renumbered, List.mem_filterMap, Option.map_eq_some_iff, Prod.mk.injEq, Prod.exists, List.mem_zipIdx_iff_getElem?]
  constructor
  · rintro ⟨n, _, held, _, made, rfl, rfl⟩
    exact ⟨n, held, made⟩
  · rintro ⟨n, held, made⟩
    exact ⟨n, number, held, id, made, rfl, rfl⟩

theorem nodup_renumbered (d : Document) (top : String) (u : SourceTree) : ((d.renumbered top u).map Prod.fst).Nodup := by
  rw [renumbered, List.Nodup, List.pairwise_map, List.pairwise_filterMap]
  apply (pairwise_zipIdx u.elements).imp
  intro a b other e first e' second
  obtain ⟨_, _, rfl⟩ := Option.map_eq_some_iff.mp first
  obtain ⟨_, _, rfl⟩ := Option.map_eq_some_iff.mp second
  exact other

-- The present form of a file whose entries come from a tree in which elements are known by their places.
structure Matched (d : Document) (top : String) (t u : SourceTree) : Prop where
  wooded : Store.Wooded d.store.get?
  named : top ≠ Store.rootsId
  places : (t.sightings.map (·.1.loc)).Nodup
  sourced : Sourced t d.store.get?
  shown : (d.shownElements top).map Prod.snd = (u.sightings.filter (!·.2)).map Prod.fst

namespace Matched

variable {top : String} {t u : SourceTree} (matched : Matched d top t u)

include matched

theorem made {id : String} {n : Node} (member : (id, n) ∈ d.shownElements top) : madeFrom? (d.sourcesBelow top).reverse n = some id := by
  obtain ⟨below, tree, src, _, live, node, kind, rfl⟩ := mem_shownElements matched.wooded member
  have itself : src.sameSource (Rebuild.topForm d.classAttribute tree src) = true := by
    rw [Node.sameSource, Rebuild.loc_topForm, Rebuild.topForm, Rebuild.form_kind]
    simp
  refine madeFrom?_eq_some (List.mem_reverse.mpr (mem_sourcesBelow.mpr ⟨below, _, live, node⟩)) itself ?_
  rintro ⟨id', m⟩ listed same
  obtain ⟨_, r, found, node'⟩ := mem_sourcesBelow.mp (List.mem_reverse.mp listed)
  rw [Node.sameSource, Rebuild.loc_topForm, Rebuild.topForm, Rebuild.form_kind, Bool.and_eq_true, beq_iff_eq, beq_iff_eq] at same
  exact matched.sourced.own id' id r tree.value m src found live node' node (same.2.trans kind) kind same.1

theorem unmade {n : Node} (hidden : (n, true) ∈ u.sightings) : madeFrom? (d.sourcesBelow top).reverse n = none := by
  obtain ⟨kind, e, outside, inside⟩ := SourceTree.hidden_sightings.mp hidden
  have shown : e ∈ (d.shownElements top).map Prod.snd := by
    rw [matched.shown]
    exact List.mem_map_of_mem (f := Prod.fst) (List.mem_filter.mpr ⟨outside, rfl⟩)
  obtain ⟨⟨id, _⟩, member, rfl⟩ := List.mem_map.mp shown
  obtain ⟨_, tree, src, _, live, node, element, rfl⟩ := mem_shownElements matched.wooded member
  have before : (n, true) ∈ t.sightings :=
    SourceTree.hidden_sightings.mpr ⟨kind, src, matched.sourced.seen id _ src live node element, Rebuild.attributes_form _ _ inside⟩
  rw [madeFrom?, Option.map_eq_none_iff, List.find?_eq_none]
  rintro ⟨id', m⟩ listed same
  obtain ⟨_, r, found, node'⟩ := mem_sourcesBelow.mp (List.mem_reverse.mp listed)
  simp only [Node.sameSource, Bool.and_eq_true, beq_iff_eq] at same
  have out := matched.sourced.seen id' r m found node' (same.2.trans kind)
  cases List.inj_on_of_nodup_map matched.places out before same.1

theorem ids : (d.renumbered top u).map Prod.snd = (d.shownElements top).map Prod.fst := by
  have made : ∀ seen : List (Node × Bool), (∀ e ∈ seen, e ∈ u.sightings) →
      (seen.map Prod.fst).filterMap (madeFrom? (d.sourcesBelow top).reverse) =
        ((seen.filter (!·.2)).map Prod.fst).filterMap (madeFrom? (d.sourcesBelow top).reverse) := by
    intro seen inside
    induction seen with
    | nil => rfl
    | cons e seen ih =>
      obtain ⟨first, later⟩ := List.forall_mem_cons.mp inside
      obtain ⟨n, hidden⟩ := e
      cases hidden with
      | true =>
        rw [List.map_cons, List.filterMap_cons, matched.unmade first, List.filter_cons_of_neg (by simp)]
        exact ih later
      | false =>
        rw [List.map_cons, List.filterMap_cons, List.filter_cons_of_pos (by simp), List.map_cons, List.filterMap_cons, ih later]
  have own : (d.shownElements top).filterMap (fun e => madeFrom? (d.sourcesBelow top).reverse e.2) = (d.shownElements top).map Prod.fst := by
    rw [← List.filterMap_eq_map]
    exact List.filterMap_congr fun e member => matched.made member
  have numbered : (d.renumbered top u).map Prod.snd = u.elements.filterMap (madeFrom? (d.sourcesBelow top).reverse) := by
    have kept := List.filterMap_map (f := Prod.fst) (g := madeFrom? (d.sourcesBelow top).reverse) (l := u.elements.zipIdx)
    rw [List.zipIdx_map_fst] at kept
    rw [renumbered, List.map_filterMap, kept]
    apply List.filterMap_congr
    intro e _
    rw [Option.map_map]
    exact Option.map_id'
  rw [numbered, ← u.sightings_walk, made u.sightings fun _ member => member, ← matched.shown, List.filterMap_map]
  exact own

end Matched

def renumberedAs (d : Document) (f : File) (u : SourceTree) : Document :=
  { d with files := File.put { f with numbering := d.renumbered (File.rootId f.path) u } d.files }

theorem renumber_eq {path : String} {f : File} {u : SourceTree} {root : Handle} (found : d.file? path = some f) (present : d.modifiedTree path = .ok u)
    (live : d.node (File.rootId path) = .ok root) : d.renumber path = .ok (d.renumberedAs f u) := by
  have here : f.path = path := by simpa using List.find?_some found
  rw [renumber, present, live, found]
  simp only [id_of_node live, renumberedAs, renumbered, here]

theorem Matched.lookup {path : String} {f : File} {t u : SourceTree} (matched : d.Matched (File.rootId path) t u) (serves : d.instances.Serves d.store)
    (found : d.file? path = some f) {root : Record} (live : d.store.get? (File.rootId path) = some root) (isFile : root.isFile = true)
    (alone : ∀ id r, d.store.get? id = some r → r.parent = none → id = File.rootId path) (i : Nat) :
    match u.sightings[i]? with
      | some (n, false) => ∃ h tree src, (d.renumberedAs f u).nodeForLocation path i = .ok h ∧ h.id ∈ d.store.descendants (File.rootId path) ∧
          d.tree? h.id = some tree ∧ Rebuild.entry d.classAttribute tree = some (src, n) ∧ (d.renumberedAs f u).numberOf? h.id = some i
      | _ => (d.renumberedAs f u).nodeForLocation path i = .error (.notFound (PreviewTag.format ⟨path, i⟩)) := by
  have here : f.path = path := by simpa using List.find?_some found
  have file : (d.renumberedAs f u).file? path = some { f with numbering := d.renumbered (File.rootId path) u } := by
    rw [file?, renumberedAs, here, File.find?_put, if_pos rfl]
  have numbers : ∀ {id}, File.idOf? { f with numbering := d.renumbered (File.rootId path) u } i = some id ↔
      ∃ n, u.elements[i]? = some n ∧ madeFrom? (d.sourcesBelow (File.rootId path)).reverse n = some id := by
    intro id
    rw [File.idOf?_eq_some (d.nodup_renumbered ..), mem_renumbered]
  split
  -- The element stands outside attribute values, so it shows and was given its number.
  · rename_i n seen
    have outside : n ∈ (d.shownElements (File.rootId path)).map Prod.snd := by
      rw [matched.shown]
      exact List.mem_map_of_mem (f := Prod.fst) (List.mem_filter.mpr ⟨List.mem_of_getElem? seen, rfl⟩)
    obtain ⟨⟨id, m⟩, member, same⟩ := List.mem_map.mp outside
    obtain rfl : m = n := same
    obtain ⟨below, tree, src, held, entry, node, _, same⟩ := mem_shownElements matched.wooded member
    obtain ⟨h, resolved, rfl⟩ := node_of_live serves entry
    have listed : u.elements[i]? = some m := by
      rw [← u.sightings_walk, List.getElem?_map, seen]
      rfl
    have onward := numbers.mpr ⟨m, listed, matched.made member⟩
    refine ⟨h, tree, src, ?_, below, held, ?_, ?_⟩
    · rw [nodeForLocation, file]
      simp only [onward]
      exact resolved
    · rw [Rebuild.entry_eq, node, same]
      rfl
    · have path' : (d.renumberedAs f u).filePathOf? h.id = some path := by
        show filePath? d.store (d.store.root h.id) = some path
        rw [Store.root_of_alone matched.wooded alone entry, filePath?, live]
        simp only [isFile, if_true]
        exact Record.pathOf?_rootId path
      have ids : ((d.renumbered (File.rootId path) u).map Prod.snd).Nodup := matched.ids ▸ nodup_shownElements matched.wooded matched.named
      rw [numberOf?, path']
      simp only [file, Option.bind_some]
      exact (File.numberOf?_eq_some ids).mpr ((File.idOf?_eq_some (d.nodup_renumbered ..)).mp onward)
  -- No element has the number, or one in an attribute value, from which no entry was made.
  · rename_i other
    have absent : File.idOf? { f with numbering := d.renumbered (File.rootId path) u } i = none := by
      apply Option.eq_none_iff_forall_ne_some.mpr
      intro id given
      obtain ⟨n, listed, made⟩ := numbers.mp given
      rw [← u.sightings_walk, List.getElem?_map, Option.map_eq_some_iff] at listed
      obtain ⟨⟨m, hidden⟩, seen, rfl⟩ := listed
      cases hidden with
      | false => exact other m seen
      | true => cases (matched.unmade (List.mem_of_getElem? seen)).symm.trans made
    rw [nodeForLocation, file]
    simp only [absent]

end Document

end MarkupEditor
