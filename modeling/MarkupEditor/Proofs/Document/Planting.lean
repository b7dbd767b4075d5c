import MarkupEditor.Proofs.Document.Building
import MarkupEditor.Proofs.Store.Children
import MarkupEditor.Proofs.Store.Forest

namespace MarkupEditor

structure Planted (get : String → Option Record) : Prop extends Store.Wooded get where
  keys : ∀ id r, get id = some r → OrderKey.WellFormed (Store.orderKey r)
  apart : ∀ p a b r q, get a = some r → get b = some q → r.parent = some p → q.parent = some p →
    Store.orderKey r = Store.orderKey q → a = b

theorem planted_nothing : Planted fun _ => none := by
  constructor
  · exact ⟨rfl, fun _ _ found => by cases found⟩
  · intro id r found
    cases found
  · intro p a b r q found
    cases found

namespace Planted

variable {get get' : String → Option Record}

theorem erase (planted : Planted get) (gone : String → Prop)
    (rest : ∀ id r', get' id = some r' → ¬ gone id ∧ ∃ r, get id = some r ∧ r'.parent = r.parent ∧ r'.order = r.order)
    (stays : ∀ id r, get id = some r → ¬ gone id → ∃ r', get' id = some r' ∧ r'.parent = r.parent)
    (closed : ∀ id r p, get id = some r → r.parent = some p → gone p → gone id) : Planted get' := by
  have key : ∀ {r r' : Record}, r'.order = r.order → Store.orderKey r' = Store.orderKey r := fun same => congrArg (·.getD OrderKey.default) same
  constructor
  · constructor
    · cases empty : get' Store.rootsId with
      | none => rfl
      | some r' =>
        obtain ⟨_, r, found, _⟩ := rest _ r' empty
        cases planted.unnamed.symm.trans found
    · intro id r' found
      obtain ⟨left, r, held, _⟩ := rest id r' found
      apply (planted.anchored id r held).transfer (fun id => ¬ gone id) _ left
      intro child q left held
      obtain ⟨q', found, same⟩ := stays child q held left
      exact .inr ⟨q', found, same, fun p named above => left (closed child q p held named above)⟩
  · intro id r' found
    obtain ⟨_, r, held, _, order⟩ := rest id r' found
    rw [key order]
    exact planted.keys id r held
  · intro p a b r' q' first second named named' same
    obtain ⟨_, r, held, parent, order⟩ := rest a r' first
    obtain ⟨_, q, held', parent', order'⟩ := rest b q' second
    rw [key order, key order'] at same
    exact planted.apart p a b r q held held' (parent.symm.trans named) (parent'.symm.trans named') same

def moved (get : String → Option Record) (top : String) (place : String → Option String) (id : String) : Option Record :=
  (get id).map fun r => match place id with
    | some key => r.placed top (some key)
    | none => r

theorem moved_some {top : String} {place : String → Option String} {id key : String} (given : place id = some key) :
    moved get top place id = (get id).map (·.placed top (some key)) := by
  unfold moved
  rw [given]

theorem moved_none {top : String} {place : String → Option String} {id : String} (left : place id = none) : moved get top place id = get id := by
  unfold moved
  rw [left]
  exact Option.map_id'

theorem moved_cases {top : String} {place : String → Option String} {id : String} {r' : Record} (found : moved get top place id = some r') :
    (place id = none ∧ get id = some r') ∨ ∃ key r, place id = some key ∧ get id = some r ∧ r' = r.placed top (some key) := by
  cases given : place id with
  | none => exact .inl ⟨rfl, (moved_none given).symm.trans found⟩
  | some key =>
    rw [moved_some given] at found
    obtain ⟨r, held, same⟩ := Option.map_eq_some_iff.mp found
    exact .inr ⟨key, r, rfl, held, same.symm⟩

-- Nothing above the new parent moves, so what is moved stands on a way to the root.
theorem wooded_moved (planted : Planted get) {top : String} {place : String → Option String} (live : ∃ r, get top = some r)
    (outside : ∀ x, x = top ∨ Relation.TransGen (Store.Names get) x top → place x = none) : Store.Wooded (moved get top place) := by
  have above : Store.Anchored (moved get top place) top := by
    obtain ⟨r, found⟩ := live
    apply (planted.anchored top r found).transfer (fun x => x = top ∨ Relation.TransGen (Store.Names get) x top) _ (.inl rfl)
    intro id q passed held
    refine .inr ⟨q, (moved_none (outside id passed)).trans held, rfl, ?_⟩
    intro p named
    have names : Store.Names get p id := ⟨q, held, named⟩
    rcases passed with here | further
    · exact .inr (here ▸ .single names)
    · exact .inr (.head names further)
  constructor
  · unfold moved
    rw [planted.unnamed]
    rfl
  · intro id r' found
    obtain ⟨r, held, _⟩ := Option.map_eq_some_iff.mp found
    apply (planted.anchored id r held).transfer (fun _ => True) _ trivial
    intro child q _ held
    cases given : place child with
    | none => exact .inr ⟨q, (moved_none given).trans held, rfl, fun _ _ => trivial⟩
    | some key =>
      have under : moved get top place child = some (q.placed top (some key)) := by
        rw [moved_some given, held]
        rfl
      exact .inl (.under under rfl above)

theorem move (planted : Planted get) {top : String} {place : String → Option String} (live : ∃ r, get top = some r)
    (outside : ∀ x, x = top ∨ Relation.TransGen (Store.Names get) x top → place x = none)
    (formed : ∀ id key, place id = some key → OrderKey.WellFormed key)
    (own : ∀ a b key, place a = some key → place b = some key → a = b)
    (free : ∀ id r, get id = some r → r.parent = some top → place id = none → ∀ x, place x ≠ some (Store.orderKey r)) :
    Planted (moved get top place) := by
  refine ⟨planted.wooded_moved live outside, ?_, ?_⟩
  · intro id r' found
    rcases moved_cases found with ⟨_, held⟩ | ⟨key, r, given, held, same⟩
    · exact planted.keys id r' held
    · rw [same]
      exact formed id key given
  · intro p a b r' q' first second named named' same
    rcases moved_cases first with ⟨left, held⟩ | ⟨key, r, given, held, moved⟩
    · rcases moved_cases second with ⟨left', held'⟩ | ⟨key', q, given', held', moved'⟩
      · exact planted.apart p a b r' q' held held' named named' same
      · subst moved'
        cases named'
        exact absurd (given'.trans (congrArg some same.symm)) (free a r' held named left b)
    · subst moved
      cases named
      rcases moved_cases second with ⟨left', held'⟩ | ⟨key', q, given', held', moved'⟩
      · exact absurd (given.trans (congrArg some same)) (free b q' held' named' left' a)
      · subst moved'
        exact own a b key given (given'.trans (congrArg some same.symm))

-- Entries of a new tree take the place of what stood under their ids. Where the entries above had children before, the
-- new ones come after them.
structure Grafted (get : String → Option Record) (t : Tree Record) (get' : String → Option Record) : Prop where
  nodup : (t.pairs.map Prod.fst).Nodup
  named : Store.rootsId ∉ t.pairs.map Prod.fst
  rest : ∀ id r, get' id = some r ↔ (id, r) ∈ t.pairs ∨ id ∉ t.pairs.map Prod.fst ∧ get id = some r
  orphan : t.value.parent = none
  formed : OrderKey.WellFormed (Store.orderKey t.value)
  under : ∀ u, t.Within u → ∀ c ∈ u.children, c.value.parent = some u.id ∧ OrderKey.WellFormed (Store.orderKey c.value)
  later : ∀ u, t.Within u → ∀ c ∈ u.children, ∀ id r, id ∉ t.pairs.map Prod.fst → get id = some r → r.parent = some u.id →
    Store.orderKey r < Store.orderKey c.value
  ascending : ∀ u, t.Within u → u.children.Pairwise fun a b => Store.orderKey a.value < Store.orderKey b.value

namespace Grafted

variable {t : Tree Record}

theorem anchored (grafted : Grafted get t get') {u : Tree Record} (within : t.Within u) : Store.Anchored get' u.id := by
  have new : ∀ u, t.Within u → get' u.id = some u.value := fun u within => (grafted.rest _ _).mpr (.inl (Tree.mem_pairs.mpr ⟨u, within, rfl⟩))
  have downward : ∀ v u, v.Within u → t.Within v → Store.Anchored get' v.id → Store.Anchored get' u.id := by
    intro v u inside
    induction inside with
    | self => exact fun _ anchored => anchored
    | @inside v c u child _ ih =>
      intro within anchored
      exact ih (within.child child) (.under (new c (within.child child)) (grafted.under v within c child).1 anchored)
  exact downward t u within (.self t) (.root (new t (.self t)) grafted.orphan)

theorem wooded (grafted : Grafted get t get') (planted : Planted get) : Store.Wooded get' := by
  constructor
  · cases empty : get' Store.rootsId with
    | none => rfl
    | some r =>
      rcases (grafted.rest _ r).mp empty with member | ⟨_, found⟩
      · exact absurd (List.mem_map_of_mem member) grafted.named
      · cases planted.unnamed.symm.trans found
  · intro id r found
    rcases (grafted.rest id r).mp found with member | ⟨_, held⟩
    · obtain ⟨u, within, same⟩ := Tree.mem_pairs.mp member
      rw [(Prod.mk.inj same).1]
      exact grafted.anchored within
    · apply (planted.anchored id r held).transfer (fun _ => True) _ trivial
      intro child q _ held
      by_cases listed : child ∈ t.pairs.map Prod.fst
      · obtain ⟨e, member, here⟩ := List.mem_map.mp listed
        obtain ⟨u, within, same⟩ := Tree.mem_pairs.mp member
        rw [← here, same]
        exact .inl (grafted.anchored within)
      · exact .inr ⟨q, (grafted.rest child q).mpr (.inr ⟨listed, held⟩), rfl, fun _ _ => trivial⟩

theorem keys (grafted : Grafted get t get') (planted : Planted get) {id : String} {r : Record} (found : get' id = some r) :
    OrderKey.WellFormed (Store.orderKey r) := by
  rcases (grafted.rest id r).mp found with member | ⟨_, held⟩
  · obtain ⟨u, within, same⟩ := Tree.mem_pairs.mp member
    rw [(Prod.mk.inj same).2]
    rcases within.parent with top | ⟨v, above, child⟩
    · exact top ▸ grafted.formed
    · exact (grafted.under v above u child).2
  · exact planted.keys id r held

theorem place (grafted : Grafted get t get') {id p : String} {r : Record} (member : (id, r) ∈ t.pairs) (under : r.parent = some p) :
    ∃ v, t.Within v ∧ v.id = p ∧ ∃ u ∈ v.children, u.id = id ∧ u.value = r := by
  obtain ⟨u, within, same⟩ := Tree.mem_pairs.mp member
  obtain ⟨here, value⟩ := Prod.mk.inj same
  rcases within.parent with top | ⟨v, above, child⟩
  · rw [value, top, grafted.orphan] at under
    cases under
  · have parent := (grafted.under v above u child).1
    rw [← value, under] at parent
    exact ⟨v, above, (Option.some.inj parent).symm, u, child, here.symm, value.symm⟩

theorem key_inj (grafted : Grafted get t get') {a b p : String} {r q : Record} (member : (a, r) ∈ t.pairs) (member' : (b, q) ∈ t.pairs)
    (under : r.parent = some p) (under' : q.parent = some p) (same : Store.orderKey r = Store.orderKey q) : a = b := by
  obtain ⟨v, above, parent, u, child, rfl, rfl⟩ := grafted.place member under
  obtain ⟨v', above', parent', u', child', rfl, rfl⟩ := grafted.place member' under'
  obtain rfl := Tree.within_unique grafted.nodup above above' (parent.trans parent'.symm)
  have keys : (v.children.map fun c => Store.orderKey c.value).Nodup :=
    List.pairwise_map.mpr ((grafted.ascending v above).imp fun less => ne_of_lt less)
  exact congrArg Tree.id (List.inj_on_of_nodup_map keys child child' same)

theorem key_lt (grafted : Grafted get t get') {a b p : String} {r q : Record} (old : a ∉ t.pairs.map Prod.fst) (held : get a = some r)
    (member : (b, q) ∈ t.pairs) (under : r.parent = some p) (under' : q.parent = some p) : Store.orderKey r < Store.orderKey q := by
  obtain ⟨v, above, parent, u, child, -, rfl⟩ := grafted.place member under'
  exact grafted.later v above u child a r old held (parent ▸ under)

theorem planted (grafted : Grafted get t get') (planted : Planted get) : Planted get' := by
  refine ⟨grafted.wooded planted, fun id r found => grafted.keys planted found, ?_⟩
  intro p a b r q first second under under' same
  rcases (grafted.rest a r).mp first with member | ⟨left, held⟩
  · rcases (grafted.rest b q).mp second with member' | ⟨left', held'⟩
    · exact grafted.key_inj member member' under under' same
    · exact absurd same (ne_of_gt (grafted.key_lt left' held' member under' under))
  · rcases (grafted.rest b q).mp second with member' | ⟨left', held'⟩
    · exact absurd same (ne_of_lt (grafted.key_lt left held member' under under'))
    · exact planted.apart p a b r q held held' under under' same

end Grafted

end Planted

namespace Draft

theorem within_lay (s : Store Record) {t : Tree Draft} {parent : String} {order : Option String} {u : Tree Record}
    (within : (lay s parent order t).Within u) : ∃ ts, u.children = layAll s u.id (s.appendKeys (some u.id) ts.length) ts := by
  induction t using Tree.children_induction generalizing parent order with
  | step t ih =>
    obtain ⟨id, draft, children⟩ := t
    cases within with
    | self => exact ⟨children, rfl⟩
    | inside child within =>
      obtain ⟨t', listed, order', rfl⟩ := mem_layAll s child
      exact ih t' listed within

theorem grown_children {s : Store Record} (formed : ∀ id r, s.get? id = some r → OrderKey.WellFormed (Store.orderKey r)) (parent : String)
    (ts : List (Tree Draft)) :
    (∀ c ∈ layAll s parent (s.appendKeys (some parent) ts.length) ts,
      c.value.parent = some parent ∧ OrderKey.WellFormed (Store.orderKey c.value) ∧
        ∀ id r, s.get? id = some r → r.parent = some parent → Store.orderKey r < Store.orderKey c.value) ∧
      (layAll s parent (s.appendKeys (some parent) ts.length) ts).Pairwise fun a b => Store.orderKey a.value < Store.orderKey b.value := by
  obtain ⟨length, whole, ascending, after⟩ := Store.appendKeys_fits formed (some parent) ts.length
  have keys := orderKeys_layAll s parent length
  constructor
  · intro c member
    have key : Store.orderKey c.value ∈ s.appendKeys (some parent) ts.length := by
      rw [← keys]
      exact List.mem_map_of_mem member
    obtain ⟨t, _, order, rfl⟩ := mem_layAll s member
    refine ⟨by rw [value_lay]; rfl, whole _ key, ?_⟩
    intro id r found named
    apply after (Store.orderKey r, id) _ _ key
    exact Store.mem_keyedChildren.mpr ⟨r, found, by simp [Store.parentId, Placed.parent, named], rfl⟩
  · rw [← keys] at ascending
    exact List.pairwise_map.mp ascending

end Draft

namespace Document

variable {d : Document}

theorem planted_update (planted : Planted (d.contents ())) (id : String) {f : Record → Record}
    (places : ∀ r, (f r).parent = r.parent ∧ (f r).order = r.order) : Planted ((d.update id f).contents ()) := by
  unfold update
  split
  · rename_i r found
    have held : d.contents () id = some r := found
    rw [write_contents]
    apply planted.erase (fun _ => False)
    · intro key q' found
      by_cases here : key = id
      · rw [Contents.put, if_pos ⟨rfl, here⟩] at found
        obtain rfl := Option.some.inj found
        exact ⟨not_false, r, here ▸ held, places r⟩
      · rw [Contents.put, if_neg fun same => here same.2] at found
        exact ⟨not_false, q', found, rfl, rfl⟩
    · intro key q found _
      by_cases here : key = id
      · obtain rfl : r = q := Option.some.inj (held.symm.trans (here ▸ found))
        exact ⟨f r, by rw [Contents.put, if_pos ⟨rfl, here⟩], (places r).1⟩
      · exact ⟨q, by rw [Contents.put, if_neg fun same => here same.2]; exact found, rfl⟩
    · exact fun _ _ _ _ _ gone => gone
  · exact planted

theorem planted_rest {d' : Document} (planted : Planted (d.contents ())) (gone : String → Prop)
    (rest : ∀ id r, d'.contents () id = some r ↔ d.contents () id = some r ∧ ¬ gone id)
    (closed : ∀ id r p, d.contents () id = some r → r.parent = some p → gone p → gone id) : Planted (d'.contents ()) := by
  apply planted.erase gone
  · intro id r found
    obtain ⟨held, left⟩ := (rest id r).mp found
    exact ⟨left, r, held, rfl, rfl⟩
  · intro id r held left
    exact ⟨r, (rest id r).mpr ⟨held, left⟩, rfl⟩
  · exact closed

theorem planted_removeBelow (planted : Planted (d.contents ())) (id : String) : Planted ((d.removeBelow id).contents ()) := by
  apply planted_rest planted _ (removeBelow_contents d id)
  intro child r p found named below
  exact Store.below_of_child below found (by simp [Store.parentId, Placed.parent, named])

theorem planted_remove (planted : Planted (d.contents ())) (id : String) : Planted ((d.remove id).contents ()) := by
  apply planted_rest planted _ (remove_contents d id)
  intro child r p found named gone
  have under : Store.parentId r = p := by simp [Store.parentId, Placed.parent, named]
  rcases gone with here | below
  · exact .inr (Store.below_self found (under.trans here))
  · exact .inr (Store.below_of_child below found under)

theorem wellFormed_rootRecord (planted : Planted (d.contents ())) (path : String) (tree : SourceTree) :
    OrderKey.WellFormed (Store.orderKey (d.rootRecord path tree)) := by
  unfold rootRecord Store.orderKey
  simp only [Placed.order]
  cases held : d.store.get? (File.rootId path) with
  | some r => exact planted.keys _ r held
  | none =>
    obtain ⟨length, whole, _⟩ := d.store.appendKeys_fits planted.keys none 1
    obtain ⟨key, one⟩ := List.length_eq_one_iff.mp length
    rw [one] at whole ⊢
    exact whole key List.mem_cons_self

theorem within_fileTree {path : String} {tree : SourceTree} {generation : Nat} {u : Tree Record}
    (within : (d.fileTree path tree generation).Within u) :
    ∃ ts, u.children = Draft.layAll (d.rooted path tree).store u.id ((d.rooted path tree).store.appendKeys (some u.id) ts.length) ts := by
  cases within with
  | self => exact ⟨_, rfl⟩
  | inside child within =>
    obtain ⟨t, _, order, rfl⟩ := Draft.mem_layAll _ child
    exact Draft.within_lay _ within

theorem grafted_build (planted : Planted (d.contents ())) (path : String) (tree : SourceTree) (generation : Nat) :
    Planted.Grafted (d.contents ()) (d.fileTree path tree generation) ((d.build path tree generation).contents ()) := by
  have formed := wellFormed_rootRecord planted path tree
  have written : (d.rooted path tree).contents = d.contents.put () (File.rootId path) (some (d.rootRecord path tree)) := write_contents ..
  have other : ∀ id, id ≠ File.rootId path → (d.rooted path tree).store.get? id = d.contents () id := by
    intro id elsewhere
    have same := congrFun (congrFun written ()) id
    rwa [Contents.put, if_neg fun here => elsewhere here.2] at same
  have keys : ∀ id r, (d.rooted path tree).store.get? id = some r → OrderKey.WellFormed (Store.orderKey r) := by
    intro id r found
    by_cases here : id = File.rootId path
    · have same := congrFun (congrFun written ()) id
      rw [Contents.put, if_pos ⟨rfl, here⟩] at same
      rw [← Option.some.inj (same.symm.trans found)]
      exact formed
    · exact planted.keys id r ((other id here).symm.trans found)
  have grown : ∀ u, (d.fileTree path tree generation).Within u →
      (∀ c ∈ u.children, c.value.parent = some u.id ∧ OrderKey.WellFormed (Store.orderKey c.value) ∧
        ∀ id r, (d.rooted path tree).store.get? id = some r → r.parent = some u.id → Store.orderKey r < Store.orderKey c.value) ∧
      u.children.Pairwise fun a b => Store.orderKey a.value < Store.orderKey b.value := by
    intro u within
    obtain ⟨ts, children⟩ := within_fileTree within
    rw [children]
    exact Draft.grown_children keys u.id ts
  refine ⟨nodup_fileTree path tree generation, rootsId_not_mem_fileTree path tree generation, build_contents path tree generation, rfl, formed,
    ?_, ?_, fun u within => (grown u within).2⟩
  · intro u within c child
    obtain ⟨under, whole, _⟩ := (grown u within).1 c child
    exact ⟨under, whole⟩
  · intro u within c child id r unlisted found named
    have elsewhere : id ≠ File.rootId path := fun same => unlisted (same ▸ List.mem_cons_self)
    exact ((grown u within).1 c child).2.2 id r ((other id elsewhere).trans found) named

theorem planted_build (planted : Planted (d.contents ())) (path : String) (tree : SourceTree) (generation : Nat) :
    Planted ((d.build path tree generation).contents ()) := (grafted_build planted path tree generation).planted planted

end Document

end MarkupEditor
