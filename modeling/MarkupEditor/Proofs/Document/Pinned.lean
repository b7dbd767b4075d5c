import MarkupEditor.Proofs.Document.Reconstruction
import MarkupEditor.Proofs.Document.Reopening
import MarkupEditor.Proofs.Document.Runs
import MarkupEditor.Proofs.Document.Shapes

namespace MarkupEditor

def Node.HoldsCode (n : Node) : Prop := n.kind = .wrapper ∨ n.kind = .other

-- The statements of a tree that have entries.
def SourceTree.marked (t : SourceTree) : List Node := t.statements.filter (!·.inner.isEmpty)

namespace Shape

variable {α β : Type}

mutual

def Throughout (P : α → List α → Prop) : Shape α → Prop
  | mk v children => P v (children.map value) ∧ ThroughoutAll P children

def ThroughoutAll (P : α → List α → Prop) : List (Shape α) → Prop
  | [] => True
  | s :: ss => Throughout P s ∧ ThroughoutAll P ss

end

theorem throughoutAll_iff {P : α → List α → Prop} {ss : List (Shape α)} : ThroughoutAll P ss ↔ ∀ s ∈ ss, Throughout P s := by
  induction ss with
  | nil => simp [ThroughoutAll]
  | cons s ss ih => rw [ThroughoutAll, ih, List.forall_mem_cons]

theorem throughoutAll_flatMap {P : α → List α → Prop} {ns : List β} {f : β → List (Shape α)} (each : ∀ n ∈ ns, ThroughoutAll P (f n)) :
    ThroughoutAll P (ns.flatMap f) := by
  apply throughoutAll_iff.mpr
  intro s member
  obtain ⟨n, listed, member⟩ := List.mem_flatMap.mp member
  exact throughoutAll_iff.mp (each n listed) s member

theorem within {t u : Tree α} {f : α → β} {P : β → List β → Prop} (holds : (t.shape f).Throughout P) (within : t.Within u) :
    P (f u.value) (u.children.map fun c => f c.value) := by
  induction within with
  | self t =>
    obtain ⟨id, v, children⟩ := t
    rw [Tree.shape, Throughout, Tree.values_children] at holds
    exact holds.1
  | @inside t c u child _ ih =>
    obtain ⟨id, v, children⟩ := t
    apply ih
    have below := holds.2
    clear holds ih
    induction children with
    | nil => cases child
    | cons first rest later =>
      rcases List.mem_cons.mp child with rfl | child
      · exact below.1
      · exact later child below.2

-- Under a node that holds code stand the nodes in it.
def Bound (v : Option Node) (under : List (Option Node)) : Prop := ∀ n, v = some n → n.HoldsCode → under = n.inner.map some

theorem values_code {ns : List Node} (markup : ∀ n ∈ ns, n.isMarkup) : (ns.flatMap (ofNode false)).map value = ns.map some := by
  induction ns with
  | nil => rfl
  | cons n ns ih =>
    obtain ⟨below, same⟩ := ofNode_markup (markup n List.mem_cons_self) false
    rw [List.flatMap_cons, same, List.map_append, ih fun m member => markup m (List.mem_cons_of_mem _ member)]
    rfl

theorem ofNode_bound (n : Node) (regular : n.Regular) (inMarkup : Bool) (stands : n.isMarkup ∨ inMarkup ∧ n.kind ≠ .other) :
    ThroughoutAll Bound (ofNode inMarkup n) := by
  induction n using Node.inner_induction generalizing inMarkup with
  | step n ih =>
    have single : ∀ below, Bound (some n) (below.map value) → ThroughoutAll Bound below → ThroughoutAll Bound [mk (some n) below] :=
      fun below own under => ⟨⟨own, under⟩, trivial⟩
    have unbound : ¬ n.HoldsCode → ∀ under, Bound (some n) under := by
      intro free under m same code
      cases same
      exact absurd code free
    have listed : ∀ kids : List Node, (∀ m ∈ kids, m ∈ n.inner) → (∀ m ∈ kids, m.kind ≠ .other) → ThroughoutAll Bound (ofNodes kids) := by
      intro kids held kinds
      rw [ofNodes_eq]
      exact throughoutAll_flatMap fun m member => ih m (held m member) (regular.inner (held m member)) true (.inr ⟨rfl, kinds m member⟩)
    cases n with
    | element loc tag attributes kids selfClosing =>
      refine single _ (unbound ?_ _) (listed kids (fun m member => List.mem_append_right _ member) regular.self)
      exact fun code => by cases code <;> contradiction
    | fragment loc kids =>
      refine single _ (unbound ?_ _) (listed kids (fun m member => member) regular.self)
      exact fun code => by cases code <;> contradiction
    | text loc value =>
      cases inMarkup with
      | false => trivial
      | true =>
        refine single [] (unbound ?_ _) trivial
        exact fun code => by cases code <;> contradiction
    | wrapper loc spread expression =>
      obtain ⟨markup, _⟩ := regular.self
      have below : ThroughoutAll Bound (ofParts expression) := by
        rw [ofParts_eq]
        exact throughoutAll_flatMap fun m member => ih m member (regular.inner member) false (.inl (markup m member))
      cases inMarkup with
      | false => exact below
      | true =>
        refine single _ (fun m same _ => ?_) below
        cases same
        rw [ofParts_eq]
        exact values_code markup
    | other => exact absurd rfl (stands.elim (fun markup => by cases markup) And.right)

theorem ofStatement_eq {n : Node} (kind : n.kind = .other) (regular : n.Regular) :
    ofStatement n = if n.inner.isEmpty then [] else [mk (some n) (n.inner.flatMap (ofNode false))] := by
  cases n with
  | other loc ps =>
    obtain ⟨markup, _⟩ := regular.self
    have same : (ofParts ps).isEmpty = (Node.other loc ps).inner.isEmpty := by
      have values := congrArg List.isEmpty (values_code markup)
      rw [List.isEmpty_map, List.isEmpty_map, ← ofParts_eq] at values
      exact values
    rw [ofStatement, same, ofParts_eq]
    rfl
  | element | fragment | text | wrapper => cases kind

theorem ofTree_bound {t : SourceTree} (regular : t.Regular) :
    (ofTree t).map value = t.marked.map some ∧ ThroughoutAll Bound (ofTree t) := by
  constructor
  · have each : ∀ ns : List Node, (∀ n ∈ ns, n.kind = .other ∧ n.Regular) →
        (ns.flatMap ofStatement).map value = (ns.filter (!·.inner.isEmpty)).map some := by
      intro ns good
      induction ns with
      | nil => rfl
      | cons n ns ih =>
        obtain ⟨⟨kind, whole⟩, later⟩ := List.forall_mem_cons.mp good
        rw [List.flatMap_cons, ofStatement_eq kind whole, List.map_append, ih later, List.filter_cons]
        cases n.inner.isEmpty <;> rfl
    exact each t.statements regular.statements
  · apply throughoutAll_flatMap
    intro n member
    obtain ⟨kind, whole⟩ := regular.statements n member
    rw [ofStatement_eq kind whole]
    split
    · trivial
    · have markup : ∀ m ∈ n.inner, m.isMarkup := by
        cases n with
        | other => exact whole.self.1
        | element | fragment | text | wrapper => cases kind
      refine ⟨⟨fun m same _ => ?_, throughoutAll_flatMap fun m held => ?_⟩, trivial⟩
      · cases same
        exact values_code markup
      · exact ofNode_bound m (whole.inner held) false (.inl (markup m held))

end Shape

def seat (get : String → Option Record) (parent child : String) : Option (String × Option Node) :=
  (get child).bind fun r => if r.parent = some parent then some (Store.orderKey r, r.node?) else none

theorem seat_eq_some {get : String → Option Record} {parent child key : String} {n : Option Node} :
    seat get parent child = some (key, n) ↔ ∃ r, get child = some r ∧ r.parent = some parent ∧ Store.orderKey r = key ∧ r.node? = n := by
  rw [seat, Option.bind_eq_some_iff]
  constructor
  · rintro ⟨r, found, held⟩
    split at held
    · rename_i named
      obtain ⟨key, node⟩ := Prod.mk.inj (Option.some.inj held)
      exact ⟨r, found, named, key, node⟩
    · cases held
  · rintro ⟨r, found, named, rfl, rfl⟩
    exact ⟨r, found, if_pos named⟩

theorem seat_eq_none {get : String → Option Record} {parent child : String} (away : ∀ r, get child = some r → r.parent ≠ some parent) :
    seat get parent child = none := by
  rw [seat, Option.bind_eq_none_iff]
  exact fun r found => if_neg (away r found)

def Pins (get : String → Option Record) (parent : String) (nodes : List Node) : Prop :=
  ∃ listed : List (String × String × Option Node), listed.map (·.2.2) = nodes.map some ∧ listed.Pairwise (fun a b => a.2.1 < b.2.1) ∧
    ∀ child key n, seat get parent child = some (key, n) ↔ (child, key, n) ∈ listed

namespace Pins

variable {get get' : String → Option Record} {parent : String} {nodes : List Node}

theorem congr (pins : Pins get parent nodes) (same : ∀ child, seat get' parent child = seat get parent child) : Pins get' parent nodes := by
  obtain ⟨listed, sources, ascending, seats⟩ := pins
  refine ⟨listed, sources, ascending, fun child key n => ?_⟩
  rw [same]
  exact seats child key n

theorem trees {s : Store Record} (wooded : Store.Wooded s.get?) (pins : Pins s.get? parent nodes) (named : parent ≠ Store.rootsId) :
    (s.trees parent).map (·.value.node?) = nodes.map some := by
  obtain ⟨listed, sources, ascending, seats⟩ := pins
  have keyed : s.keyedChildren parent = listed.map fun e => (e.2.1, e.1) := by
    have inOrder : (listed.map fun e => (e.2.1, e.1)).Pairwise fun a b => a.1 < b.1 := ascending.map _ fun _ _ less => less
    apply Store.keyedChildren_eq inOrder
    intro e
    constructor
    · intro member
      obtain ⟨⟨child, key, n⟩, inside, rfl⟩ := List.mem_map.mp member
      obtain ⟨r, found, under, same, _⟩ := seat_eq_some.mp ((seats child key n).mpr inside)
      exact ⟨r, found, by simp [Store.parentId, Placed.parent, under], same⟩
    · rintro ⟨r, found, under, key⟩
      have seated := seat_eq_some.mpr ⟨r, found, Store.parent_of_parentId under named, key, rfl⟩
      exact List.mem_map.mpr ⟨_, (seats e.2 e.1 r.node?).mp seated, rfl⟩
  have each : ∀ e ∈ listed, ∃ r, s.get? e.1 = some r ∧ r.node? = e.2.2 := by
    intro e member
    obtain ⟨r, found, _, _, node⟩ := seat_eq_some.mp ((seats e.1 e.2.1 e.2.2).mpr member)
    exact ⟨r, found, node⟩
  rw [Store.trees_eq wooded, Store.children, keyed, ← sources]
  clear keyed seats ascending sources
  induction listed with
  | nil => rfl
  | cons e listed ih =>
    obtain ⟨⟨r, found, node⟩, later⟩ := List.forall_mem_cons.mp each
    simp only [List.map_cons, List.filterMap_cons, found, Option.map_some]
    rw [ih later]
    exact congrArg (· :: _) node

end Pins

-- What a record pins: the nodes in its code, or the statements of its file.
inductive Binds (files : List File) : String → Record → List Node → Prop where
  | code {id : String} {r : Record} {n : Node} (node : r.node? = some n) (code : n.HoldsCode) : Binds files id r n.inner
  | file {path : String} {f : File} {r : Record} (found : File.find? files path = some f) (isFile : r.isFile) :
      Binds files (File.rootId path) r f.tree.marked

theorem Binds.pins {files : List File} {id : String} {r : Record} {nodes : List Node} (binds : Binds files id r nodes) :
    r.pinsChildren = true := by
  cases binds with
  | code node code =>
    rcases code with kind | kind <;> simp [Record.pinsChildren, Record.kind?, node, kind]
  | file _ isFile =>
    have none : r.node? = none := by simpa [Record.isFile] using isFile
    simp [Record.pinsChildren, Record.kind?, none]

theorem Binds.congr {files : List File} {id : String} {r r' : Record} {nodes : List Node} (binds : Binds files id r' nodes)
    (origin : r'.origin = r.origin) : Binds files id r nodes := by
  have same : r'.node? = r.node? := Record.node?_eq origin
  cases binds with
  | code node code => exact .code (same ▸ node) code
  | file found isFile =>
    refine .file found ?_
    rwa [Record.isFile, ← same]

structure Fixed (files : List File) (m : Contents Unit Record) : Prop where
  roots : ∀ path f r, File.find? files path = some f → m () (File.rootId path) = some r → r.isFile
  pinned : ∀ id r nodes, m () id = some r → Binds files id r nodes → Pins (m ()) id nodes

theorem Fixed.keep {files : List File} {m m' : Contents Unit Record} (fixed : Fixed files m)
    (origins : ∀ id r', m' () id = some r' → ∃ r, m () id = some r ∧ r'.origin = r.origin)
    (seats : ∀ id r', m' () id = some r' → r'.pinsChildren = true → ∀ child, seat (m' ()) id child = seat (m ()) id child) : Fixed files m' := by
  constructor
  · intro path f r' found held
    obtain ⟨r, before, same⟩ := origins _ r' held
    rw [Record.isFile, Record.node?_eq same]
    exact fixed.roots path f r found before
  · intro id r' nodes held binds
    obtain ⟨r, before, same⟩ := origins id r' held
    exact (fixed.pinned id r nodes before (binds.congr same)).congr (seats id r' held binds.pins)

namespace Document

variable {d : Document} {files : List File}

theorem pinsChildren_eq {id : String} {r : Record} (found : d.contents () id = some r) : d.pinsChildren id = r.pinsChildren := by
  have held : d.store.get? id = some r := found
  simp [pinsChildren, held]

theorem fixed_update (fixed : Fixed files d.contents) (id : String) {f : Record → Record}
    (same : ∀ r, (f r).parent = r.parent ∧ (f r).order = r.order ∧ (f r).origin = r.origin) : Fixed files (d.update id f).contents := by
  unfold update
  split
  · rename_i r found
    have held : d.contents () id = some r := found
    obtain ⟨parent, order, origin⟩ := same r
    rw [write_contents]
    apply fixed.keep
    · intro key r' live
      by_cases here : key = id
      · obtain rfl : f r = r' := by simpa [Contents.put, here] using live
        exact ⟨r, here ▸ held, origin⟩
      · exact ⟨r', by simpa [Contents.put, here] using live, rfl⟩
    · intro key r' _ _ child
      by_cases here : child = id
      · simp [seat, Contents.put, here, held, parent, Store.orderKey, Placed.order, order, Record.node?_eq origin]
      · simp [seat, Contents.put, here]
  · exact fixed

theorem fixed_moved {d' : Document} (fixed : Fixed files d.contents) {top : String} {place : String → Option String}
    (after : d'.store.get? = Planted.moved d.store.get? top place) (open_ : d.pinsChildren top = false)
    (free : ∀ id key r p, place id = some key → d.store.get? id = some r → r.parent = some p → d.pinsChildren p = false) :
    Fixed files d'.contents := by
  have contents : d'.contents () = Planted.moved (d.contents ()) top place := after
  have origins : ∀ id r', d'.contents () id = some r' → ∃ r, d.contents () id = some r ∧ r'.origin = r.origin := by
    intro id r' live
    rw [contents] at live
    rcases Planted.moved_cases live with ⟨_, held⟩ | ⟨key, r, _, held, rfl⟩
    · exact ⟨r', held, rfl⟩
    · exact ⟨r, held, rfl⟩
  apply fixed.keep origins
  intro id r' live pins child
  obtain ⟨r, held, same⟩ := origins id r' live
  have pinning : d.pinsChildren id = true := by
    rw [pinsChildren_eq held, ← pins, Record.pinsChildren, Record.pinsChildren, Record.kind?, Record.kind?, Record.node?_eq same]
  rw [contents]
  cases given : place child with
  | none => rw [seat, seat, Planted.moved_none given]
  | some key =>
    have before : seat (d.contents ()) id child = none := by
      apply seat_eq_none
      intro q found named
      cases pinning.symm.trans (free child key q id given found named)
    rw [before]
    apply seat_eq_none
    intro q' found named
    rcases Planted.moved_cases found with ⟨given', _⟩ | ⟨_, q, _, _, rfl⟩
    · cases given.symm.trans given'
    · obtain rfl : top = id := Option.some.inj named
      cases pinning.symm.trans open_

theorem insertBefore_moved (planted : Planted d.store.get?) (serves : d.instances.Serves d.store) {parent : Handle} {nodes : List Handle}
    (found : d.node parent.id = .ok parent) (resolved : ∀ h ∈ nodes, d.node h.id = .ok h) (next : Option String) :
    ∃ place : String → Option String, (d.insertBefore parent nodes next).2.store.get? = Planted.moved d.store.get? parent.id place ∧
      ∀ id key, place id = some key → d.mayMove parent.id id = true ∧ ∃ h ∈ nodes, h.id = id := by
  obtain ⟨pairs, ids, _, _, contents⟩ := insertBefore_eq planted serves found resolved next
  refine ⟨lastKey? pairs, contents, fun id key given => ?_⟩
  have listed : id ∈ pairs.map Prod.snd := by
    by_contra absent
    rw [lastKey?_eq_none.mpr absent] at given
    cases given
  rw [ids] at listed
  obtain ⟨h, chosen, rfl⟩ := List.mem_map.mp listed
  obtain ⟨member, may⟩ := List.mem_filter.mp chosen
  exact ⟨may, h, member, rfl⟩

theorem fixed_insertBefore (fixed : Fixed files d.contents) (planted : Planted d.store.get?) (serves : d.instances.Serves d.store)
    {parent : Handle} {nodes : List Handle} (found : d.node parent.id = .ok parent) (resolved : ∀ h ∈ nodes, d.node h.id = .ok h)
    (next : Option String) : Fixed files (d.insertBefore parent nodes next).2.contents := by
  obtain ⟨place, contents, moves⟩ := insertBefore_moved planted serves found resolved next
  cases nobody : d.pinsChildren parent.id with
  | true =>
    have same : (d.insertBefore parent nodes next).2 = d := by rw [insertBefore, if_pos nobody]
    rwa [same]
  | false =>
    apply fixed_moved fixed contents nobody
    intro id key r p given live named
    have may := (moves id key given).1
    simp only [mayMove, Bool.and_eq_true, Bool.not_eq_true', live, Option.bind_some, named, Option.any_some] at may
    exact may.2

theorem fixed_delete (fixed : Fixed files d.contents) {id : String} (movable : d.isMovable id = true) : Fixed files (d.remove id).contents := by
  have rest := d.remove_contents id
  apply fixed.keep
  · intro key r live
    exact ⟨r, ((rest key r).mp live).1, rfl⟩
  · intro key q live pins child
    obtain ⟨held, stays⟩ := (rest key q).mp live
    cases found : d.contents () child with
    | none =>
      have none : (d.remove id).contents () child = none := by
        apply Option.eq_none_iff_forall_ne_some.mpr
        intro r still
        cases found.symm.trans ((rest child r).mp still).1
      rw [seat, seat, found, none]
    | some r =>
      by_cases gone : child = id ∨ d.store.Below id child
      · have none : (d.remove id).contents () child = none := by
          apply Option.eq_none_iff_forall_ne_some.mpr
          exact fun r still => ((rest child r).mp still).2 gone
        rw [seat, none, eq_comm]
        apply seat_eq_none
        intro r' same named
        obtain rfl := Option.some.inj (found.symm.trans same)
        rcases gone with here | below
        · have above : d.store.parent? id = some key := by
            have contained : d.store.contains key = true := by
              rw [Store.contains_eq_isSome]
              exact Option.isSome_iff_exists.mpr ⟨q, held⟩
            have live : d.store.get? id = some r := here ▸ found
            simp [Store.parent?, live, Placed.parent, named, contained]
          simp [isMovable, above, pinsChildren_eq held, pins] at movable
        · obtain ⟨steps, climbed⟩ := below
          rw [Store.climb, Option.bind_eq_some_iff] at climbed
          obtain ⟨r', same, onward⟩ := climbed
          obtain rfl := Option.some.inj (found.symm.trans same)
          have parent : Store.parentId r = key := by simp [Store.parentId, Placed.parent, named]
          rw [parent] at onward
          cases steps with
          | zero => exact stays (.inl (Option.some.inj onward))
          | succ steps => exact stays (.inr ⟨steps, onward⟩)
      · have still : (d.remove id).contents () child = some r := (rest child r).mpr ⟨found, gone⟩
        rw [seat, seat, found, still]

end Document

end MarkupEditor
