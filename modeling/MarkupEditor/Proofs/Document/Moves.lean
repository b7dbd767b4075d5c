import Mathlib.Data.List.Dedup
import Mathlib.Data.List.TakeWhile
import MarkupEditor.Proofs.Document.Planting
import MarkupEditor.Proofs.Store.Instances

namespace MarkupEditor

def lastKey? : List (String × String) → String → Option String
  | [], _ => none
  | e :: rest, id => (lastKey? rest id).or (if e.2 = id then some e.1 else none)

def lastPairs : List (String × String) → List (String × String)
  | [] => []
  | e :: rest => if e.2 ∈ rest.map Prod.snd then lastPairs rest else e :: lastPairs rest

theorem lastPairs_sublist (pairs : List (String × String)) : (lastPairs pairs).Sublist pairs := by
  induction pairs with
  | nil => exact .slnil
  | cons e rest ih =>
    unfold lastPairs
    split
    · exact .cons e ih
    · exact .cons_cons e ih

theorem ids_lastPairs (pairs : List (String × String)) : (lastPairs pairs).map Prod.snd = (pairs.map Prod.snd).dedup := by
  induction pairs with
  | nil => rfl
  | cons e rest ih =>
    unfold lastPairs
    split
    · rename_i again
      rw [ih, List.map_cons, List.dedup_cons_of_mem again]
    · rename_i last
      rw [List.map_cons, ih, List.map_cons, List.dedup_cons_of_notMem last]

theorem lastKey?_eq_none {pairs : List (String × String)} {id : String} : lastKey? pairs id = none ↔ id ∉ pairs.map Prod.snd := by
  induction pairs with
  | nil => simp [lastKey?]
  | cons e rest ih =>
    rw [lastKey?, Option.or_eq_none_iff, ih, List.map_cons, List.mem_cons, not_or, and_comm]
    apply and_congr_left'
    simp [eq_comm]

theorem mem_lastPairs {pairs : List (String × String)} {e : String × String} : e ∈ lastPairs pairs ↔ lastKey? pairs e.2 = some e.1 := by
  induction pairs with
  | nil => simp [lastPairs, lastKey?]
  | cons first rest ih =>
    rw [lastKey?, lastPairs]
    split
    · rename_i again
      rw [ih]
      by_cases here : first.2 = e.2
      · cases given : lastKey? rest e.2 with
        | none => exact absurd (here ▸ again) (lastKey?_eq_none.mp given)
        | some key => rfl
      · simp [here]
    · rename_i last
      by_cases here : first.2 = e.2
      · have given := lastKey?_eq_none.mpr (here ▸ last)
        rw [List.mem_cons, ih, given]
        simp only [here, if_true, Option.none_or, Option.some.injEq]
        constructor
        · intro either
          rcases either with same | absent
          · rw [same]
          · cases absent
        · intro same
          exact .inl (Prod.ext same.symm here.symm)
      · have other : e ≠ first := fun same => here (congrArg Prod.snd same).symm
        rw [List.mem_cons, ih]
        simp [here, other]

namespace Store

-- The children that stand before one of them, or all, and the others.
def childrenBefore (s : Store Record) (parent : String) (next : Option String) : List (String × String) :=
  (s.keyedChildren parent).takeWhile fun e => some e.2 ≠ next

def childrenFrom (s : Store Record) (parent : String) (next : Option String) : List (String × String) :=
  (s.keyedChildren parent).dropWhile fun e => some e.2 ≠ next

variable {s : Store Record}

theorem childrenBefore_append (s : Store Record) (parent : String) (next : Option String) :
    s.childrenBefore parent next ++ s.childrenFrom parent next = s.keyedChildren parent := List.takeWhile_append_dropWhile

theorem key_of_child (s : Store Record) (parent : String) (n : Nat) :
    (s.children parent)[n]?.bind s.orderKeyOf? = (s.keyedChildren parent)[n]?.map Prod.fst := by
  rw [children, List.getElem?_map]
  cases held : (s.keyedChildren parent)[n]? with
  | none => rfl
  | some e =>
    obtain ⟨r, found, _, key⟩ := mem_keyedChildren.mp (List.mem_of_getElem? held)
    simp [orderKeyOf?, found, key]

theorem idxOf?_eq (l : List (String × String)) (id : String) :
    (l.map Prod.snd).idxOf? id =
      if l.dropWhile (fun e => some e.2 ≠ some id) = [] then none else some (l.takeWhile fun e => some e.2 ≠ some id).length := by
  induction l with
  | nil => rfl
  | cons e l ih =>
    rw [List.map_cons, List.idxOf?_cons, ih]
    by_cases here : e.2 = id
    · simp [here]
    · have passed : decide (some e.2 ≠ some id) = true := by simpa using here
      rw [if_neg (by simpa using here), List.dropWhile_cons, List.takeWhile_cons, if_pos passed, if_pos passed]
      split <;> rfl

end Store

namespace Document

theorem place_eq (d : Document) (parent : String) (next : Option String) :
    (next.bind ((d.store.children parent).idxOf? ·)).getD (d.store.children parent).length = (d.store.childrenBefore parent next).length ∧
      ((next.bind ((d.store.children parent).idxOf? ·)).bind ((d.store.children parent)[·]?)).bind d.store.orderKeyOf? =
        (d.store.childrenFrom parent next).head?.map Prod.fst := by
  have whole := d.store.childrenBefore_append parent next
  cases next with
  | none =>
    have all : d.store.childrenBefore parent none = d.store.keyedChildren parent := List.takeWhile_eq_self_iff.mpr (by simp)
    have nothing : d.store.childrenFrom parent none = [] := by simpa [all] using whole
    simp [all, nothing, Store.children]
  | some id =>
    have place : (d.store.children parent).idxOf? id =
        if d.store.childrenFrom parent (some id) = [] then none else some (d.store.childrenBefore parent (some id)).length :=
      Store.idxOf?_eq _ id
    rw [Option.bind_some, place]
    split
    · rename_i nothing
      rw [nothing, List.append_nil] at whole
      simp [whole, nothing, Store.children]
    · refine ⟨rfl, ?_⟩
      rw [Option.bind_some, Store.key_of_child, ← whole, List.getElem?_append_right (Nat.le_refl _), Nat.sub_self, List.head?_eq_getElem?]

theorem keysBefore_eq (d : Document) (parent : String) (next : Option String) (n : Nat) :
    d.keysBefore parent next n =
      OrderKey.batch ((d.store.childrenBefore parent next).getLast?.map Prod.fst) ((d.store.childrenFrom parent next).head?.map Prod.fst) n := by
  obtain ⟨place, upper⟩ := d.place_eq parent next
  unfold keysBefore
  simp only [place, upper]
  congr 1
  cases count : (d.store.childrenBefore parent next).length with
  | zero => rw [List.length_eq_zero_iff.mp count]; rfl
  | succ n =>
    simp only
    rw [Store.key_of_child, ← d.store.childrenBefore_append parent next, List.getElem?_append_left (by omega), List.getLast?_eq_getElem?, count]
    rfl

theorem moves_contents (top : String) (pairs : List (String × String)) (d : Document) :
    (pairs.foldl (fun d e => d.update e.2 (·.placed top (some e.1))) d).contents () = Planted.moved (d.contents ()) top (lastKey? pairs) := by
  induction pairs generalizing d with
  | nil =>
    funext id
    exact (Planted.moved_none rfl).symm
  | cons e rest ih =>
    have first : ∀ id, (d.update e.2 (·.placed top (some e.1))).contents () id =
        (d.contents () id).map fun r => if e.2 = id then r.placed top (some e.1) else r := by
      intro id
      unfold update
      split
      · rename_i r found
        have held : d.contents () e.2 = some r := found
        rw [write_contents, Contents.put]
        by_cases here : e.2 = id
        · simp [← here, held]
        · simp [here, Ne.symm here]
      · rename_i absent
        have none : d.contents () e.2 = none := absent
        by_cases here : e.2 = id
        · simp [← here, none]
        · simp [here]
    rw [List.foldl_cons, ih]
    funext id
    simp only [Planted.moved, lastKey?, first, Option.map_map]
    congr 1
    funext r
    cases lastKey? rest id with
    | none => by_cases here : e.2 = id <;> simp [here]
    | some key => by_cases here : e.2 = id <;> simp [here, Record.placed]

end Document

-- Keys that go between the children of a parent at some place, for ids that may come more than once.
structure Slotted (s : Store Record) (parent : String) (next : Option String) (pairs : List (String × String)) : Prop where
  formed : ∀ e ∈ pairs, OrderKey.WellFormed e.1
  ascending : pairs.Pairwise fun a b => a.1 < b.1
  above : ∀ a ∈ s.childrenBefore parent next, ∀ e ∈ pairs, a.1 < e.1
  below : ∀ e ∈ pairs, ∀ b ∈ s.childrenFrom parent next, e.1 < b.1

namespace Planted

variable {s : Store Record} {parent : String}

theorem ascending (planted : Planted s.get?) (named : parent ≠ Store.rootsId) : (s.keyedChildren parent).Pairwise fun a b => a.1 < b.1 := by
  have sorted := (Store.sorted_keyedChildren s parent).and (Store.nodup_keyedChildren s parent)
  apply sorted.imp_of_mem
  intro a b first second ordered
  obtain ⟨before, apart⟩ := ordered
  rcases (Store.precedes_iff a b).mp before with less | ⟨same, _⟩
  · exact less
  · obtain ⟨r, found, under, key⟩ := Store.mem_keyedChildren.mp first
    obtain ⟨q, found', under', key'⟩ := Store.mem_keyedChildren.mp second
    have ids := planted.apart parent a.2 b.2 r q found found' (Store.parent_of_parentId under named) (Store.parent_of_parentId under' named)
      (key.trans (same.trans key'.symm))
    exact absurd (Prod.ext same ids) apart

theorem neighbours (planted : Planted s.get?) (parent : String) (next : Option String) :
    (∀ key ∈ (s.childrenBefore parent next).getLast?.map Prod.fst, OrderKey.WellFormed key) ∧
      ∀ key ∈ (s.childrenFrom parent next).head?.map Prod.fst, OrderKey.WellFormed key := by
  have formed : ∀ e ∈ s.keyedChildren parent, OrderKey.WellFormed e.1 := by
    intro e member
    obtain ⟨r, found, _, key⟩ := Store.mem_keyedChildren.mp member
    exact key ▸ planted.keys e.2 r found
  rw [← s.childrenBefore_append parent next, List.forall_mem_append] at formed
  constructor
  · intro key held
    obtain ⟨e, last, rfl⟩ := Option.map_eq_some_iff.mp held
    exact formed.1 e (List.mem_of_getLast? last)
  · intro key held
    obtain ⟨e, first, rfl⟩ := Option.map_eq_some_iff.mp held
    exact formed.2 e (List.mem_of_mem_head? first)

theorem slotted (planted : Planted s.get?) (named : parent ≠ Store.rootsId) (next : Option String) {pairs : List (String × String)}
    (keys : pairs.map Prod.fst =
      OrderKey.batch ((s.childrenBefore parent next).getLast?.map Prod.fst) ((s.childrenFrom parent next).head?.map Prod.fst) pairs.length) :
    Slotted s parent next pairs := by
  have inOrder : ((s.childrenBefore parent next).map Prod.fst ++ (s.childrenFrom parent next).map Prod.fst).Pairwise (· < ·) := by
    rw [← List.map_append, s.childrenBefore_append]
    exact List.pairwise_map.mpr (planted.ascending named)
  obtain ⟨lower, upper⟩ := planted.neighbours parent next
  obtain ⟨_, fits⟩ := OrderKey.batch_fits lower upper pairs.length
  rw [← keys, ← List.getLast?_map, ← List.head?_map] at fits
  obtain ⟨above, below⟩ := fits.amid inOrder
  constructor
  · intro e member
    exact fits.formed e.1 (List.mem_map_of_mem member)
  · exact List.pairwise_map.mp fits.ascending
  · intro a before e member
    exact above a.1 (List.mem_map_of_mem before) e.1 (List.mem_map_of_mem member)
  · intro e member b after
    exact below e.1 (List.mem_map_of_mem member) b.1 (List.mem_map_of_mem after)

end Planted

-- A list with some elements moved before one of the others or to the end, each once.
def insertedBefore (children moved : List String) (next : Option String) : List String :=
  (children.takeWhile (some · ≠ next)).filter (· ∉ moved) ++ moved.dedup ++ (children.dropWhile (some · ≠ next)).filter (· ∉ moved)

section

variable {s s' : Store Record} {top : String} {pairs : List (String × String)} (after : s'.get? = Planted.moved s.get? top (lastKey? pairs))

include after

theorem get?_unmoved {id : String} (unmoved : id ∉ pairs.map Prod.snd) : s'.get? id = s.get? id := by
  rw [after]
  exact Planted.moved_none (lastKey?_eq_none.mpr unmoved)

theorem moved_cases {id : String} {r' : Record} (found : s'.get? id = some r') :
    (id ∉ pairs.map Prod.snd ∧ s.get? id = some r') ∨
      ∃ key r, (key, id) ∈ lastPairs pairs ∧ s.get? id = some r ∧ r' = r.placed top (some key) := by
  rw [after] at found
  rcases Planted.moved_cases found with ⟨given, held⟩ | ⟨key, r, given, held, same⟩
  · exact .inl ⟨lastKey?_eq_none.mp given, held⟩
  · exact .inr ⟨key, r, mem_lastPairs.mpr given, held, same⟩

theorem keyedChildren_elsewhere {p : String} (elsewhere : p ≠ top) :
    s'.keyedChildren p = (s.keyedChildren p).filter (·.2 ∉ pairs.map Prod.snd) := by
  apply Store.eq_of_sorted (Store.sorted_keyedChildren s' p) ((Store.sorted_keyedChildren s p).sublist List.filter_sublist)
    (Store.nodup_keyedChildren s' p) ((Store.nodup_keyedChildren s p).sublist List.filter_sublist)
  intro e
  rw [List.mem_filter, decide_eq_true_eq, Store.mem_keyedChildren, Store.mem_keyedChildren]
  constructor
  · intro listed
    obtain ⟨r', found, under, key⟩ := listed
    rcases moved_cases after found with ⟨unmoved, held⟩ | ⟨key, r, _, _, same⟩
    · exact ⟨⟨r', held, under, key⟩, unmoved⟩
    · rw [same] at under
      exact absurd under.symm elsewhere
  · intro kept
    obtain ⟨⟨r, found, under, key⟩, unmoved⟩ := kept
    exact ⟨r, (get?_unmoved after unmoved).trans found, under, key⟩

theorem keyedChildren_under {next : Option String} (planted : Planted s.get?) (named : top ≠ Store.rootsId) (slotted : Slotted s top next pairs)
    (live : ∀ e ∈ pairs, ∃ r, s.get? e.2 = some r) :
    s'.keyedChildren top = (s.childrenBefore top next).filter (·.2 ∉ pairs.map Prod.snd) ++ lastPairs pairs ++
      (s.childrenFrom top next).filter (·.2 ∉ pairs.map Prod.snd) := by
  have last := lastPairs_sublist pairs
  have whole := s.childrenBefore_append top next
  apply Store.keyedChildren_eq
  · have sorted := planted.ascending named
    rw [← whole, List.pairwise_append] at sorted
    obtain ⟨left, right, across⟩ := sorted
    have first : ((s.childrenBefore top next).filter (·.2 ∉ pairs.map Prod.snd) ++ lastPairs pairs).Pairwise fun a b => a.1 < b.1 := by
      refine List.pairwise_append.mpr ⟨left.sublist List.filter_sublist, slotted.ascending.sublist last, ?_⟩
      intro a before e member
      exact slotted.above a (List.mem_of_mem_filter before) e (last.subset member)
    refine List.pairwise_append.mpr ⟨first, right.sublist List.filter_sublist, ?_⟩
    intro a member b behind
    rcases List.mem_append.mp member with before | inserted
    · exact across a (List.mem_of_mem_filter before) b (List.mem_of_mem_filter behind)
    · exact slotted.below a (last.subset inserted) b (List.mem_of_mem_filter behind)
  · intro e
    have kept : e ∈ (s.childrenBefore top next).filter (·.2 ∉ pairs.map Prod.snd) ∨
        e ∈ (s.childrenFrom top next).filter (·.2 ∉ pairs.map Prod.snd) ↔ e ∈ s.keyedChildren top ∧ e.2 ∉ pairs.map Prod.snd := by
      rw [← whole, List.mem_append, List.mem_filter, List.mem_filter, decide_eq_true_eq, or_and_right]
    rw [List.mem_append, List.mem_append, or_right_comm, kept, Store.mem_keyedChildren]
    constructor
    · intro either
      rcases either with ⟨⟨r, found, under, key⟩, unmoved⟩ | inserted
      · exact ⟨r, (get?_unmoved after unmoved).trans found, under, key⟩
      · obtain ⟨r, found⟩ := live e (last.subset inserted)
        refine ⟨r.placed top (some e.1), ?_, rfl, rfl⟩
        rw [after, Planted.moved_some (mem_lastPairs.mp inserted), found]
        rfl
    · intro listed
      obtain ⟨r', found, under, key⟩ := listed
      rcases moved_cases after found with ⟨unmoved, held⟩ | ⟨given, r, member, _, same⟩
      · exact .inl ⟨⟨r', held, under, key⟩, unmoved⟩
      · rw [same] at key
        have here : given = e.1 := key
        rw [here] at member
        exact .inr member

theorem children_elsewhere {p : String} (elsewhere : p ≠ top) : s'.children p = (s.children p).filter (· ∉ pairs.map Prod.snd) := by
  rw [Store.children, keyedChildren_elsewhere after elsewhere, Store.children, List.filter_map]
  rfl

theorem children_under {next : Option String} (planted : Planted s.get?) (named : top ≠ Store.rootsId) (slotted : Slotted s top next pairs)
    (live : ∀ e ∈ pairs, ∃ r, s.get? e.2 = some r) : s'.children top = insertedBefore (s.children top) (pairs.map Prod.snd) next := by
  rw [Store.children, keyedChildren_under after planted named slotted live, List.map_append, List.map_append, ids_lastPairs]
  unfold insertedBefore Store.children
  rw [List.takeWhile_map, List.dropWhile_map, List.filter_map, List.filter_map]
  rfl

end

namespace Document

-- The entry goes under the parent when it is asked to: the parent takes it, it is neither the parent nor above it, and
-- where it stands it is not pinned.
def mayMove (d : Document) (parent id : String) : Bool :=
  !d.pinsChildren parent && id ≠ parent && !decide (d.store.Below id parent) && !((d.store.get? id).bind Record.parent).any d.pinsChildren

variable {d : Document} {parent : Handle} {nodes : List Handle}

theorem live_of_node (serves : d.instances.Serves d.store) {id : String} {h : Handle} (found : d.node id = .ok h) :
    ∃ r, d.store.get? id = some r := by
  unfold node handle? at found
  apply Option.isSome_iff_exists.mp
  rw [← serves.live]
  cases held : d.instances.get? id with
  | none =>
    rw [held] at found
    cases found
  | some serial => rfl

theorem eq_of_node {h : Handle} (found : d.node parent.id = .ok parent) (found' : d.node h.id = .ok h) (same : h.id = parent.id) :
    h = parent := by
  rw [same, found] at found'
  exact (Except.ok.inj found').symm

section

variable (planted : Planted d.store.get?) (serves : d.instances.Serves d.store) (found : d.node parent.id = .ok parent)
  (resolved : ∀ h ∈ nodes, d.node h.id = .ok h)

include planted serves found resolved

theorem movedUnder_eq (free : d.pinsChildren parent.id = false) :
    d.movedUnder parent nodes = nodes.filter fun h => d.mayMove parent.id h.id := by
  apply List.filter_congr
  intro h member
  obtain ⟨r, live⟩ := live_of_node serves (resolved h member)
  have named := planted.named live
  have own : decide (h ≠ parent) = decide (h.id ≠ parent.id) := by
    apply decide_eq_decide.mpr
    exact not_congr ⟨congrArg Handle.id, eq_of_node found (resolved h member)⟩
  have above : d.store.isAncestor h.id parent.id = decide (d.store.Below h.id parent.id) := by
    rw [Bool.eq_iff_iff, decide_eq_true_eq, Store.below_iff planted.toWooded named, ← Store.mem_ancestors planted.toWooded, Store.isAncestor,
      List.contains_iff_mem]
  rw [mayMove, free, own, above, isMovable, Store.parent?_eq planted.toWooded]
  simp [Placed.parent]

theorem insertBefore_eq (next : Option String) :
    ∃ pairs : List (String × String), pairs.map Prod.snd = (nodes.filter fun h => d.mayMove parent.id h.id).map Handle.id ∧
      Slotted d.store parent.id next pairs ∧ (d.insertBefore parent nodes next).1 = nodes.filter (fun h => d.mayMove parent.id h.id) ∧
      (d.insertBefore parent nodes next).2.store.get? = Planted.moved d.store.get? parent.id (lastKey? pairs) := by
  have nothing : d.store.get? = Planted.moved d.store.get? parent.id (lastKey? []) := by
    funext id
    exact (Planted.moved_none rfl).symm
  have none : Slotted d.store parent.id next [] := ⟨by simp, .nil, by simp, by simp⟩
  obtain ⟨r, live⟩ := live_of_node serves found
  have named := planted.named live
  cases pins : d.pinsChildren parent.id with
  | true =>
    have nobody : (nodes.filter fun h => d.mayMove parent.id h.id) = [] := by
      apply List.filter_eq_nil_iff.mpr
      intro h _
      simp [mayMove, pins]
    rw [insertBefore, if_pos pins, nobody]
    exact ⟨[], rfl, none, rfl, nothing⟩
  | false =>
    rw [insertBefore, if_neg (by rw [pins]; exact Bool.false_ne_true), movedUnder_eq planted serves found resolved pins]
    generalize (nodes.filter fun h => d.mayMove parent.id h.id) = moved
    dsimp only
    split
    · rename_i empty
      rw [List.isEmpty_iff.mp empty]
      exact ⟨[], rfl, none, rfl, nothing⟩
    · obtain ⟨lower, upper⟩ := planted.neighbours parent.id next
      obtain ⟨length, _⟩ := OrderKey.batch_fits lower upper moved.length
      rw [keysBefore_eq]
      generalize held : OrderKey.batch _ _ moved.length = keys at length ⊢
      refine ⟨(moved.zip keys).map fun p => (p.2, p.1.id), ?_, ?_, rfl, ?_⟩
      · rw [List.map_map]
        show (moved.zip keys).map (Handle.id ∘ Prod.fst) = _
        rw [← List.map_map, List.map_fst_zip (Nat.le_of_eq length.symm)]
      · apply planted.slotted named next
        rw [List.map_map, List.length_map, List.length_zip, length, Nat.min_self, held]
        exact List.map_snd_zip (Nat.le_of_eq length)
      · have contents := moves_contents parent.id ((moved.zip keys).map fun p => (p.2, p.1.id)) d
        rw [List.foldl_map] at contents
        exact contents

-- As all keys under the new parent differ, sorting by them puts each moved entry at the last place it was given.
theorem insertBefore_children (next : Option String) :
    let moved := (nodes.filter fun h => d.mayMove parent.id h.id).map Handle.id
    let after := (d.insertBefore parent nodes next).2.store
    after.children parent.id = insertedBefore (d.store.children parent.id) moved next ∧
      (∀ p, p ≠ parent.id → after.children p = (d.store.children p).filter (· ∉ moved)) ∧ ∀ id, id ∉ moved → after.get? id = d.store.get? id := by
  intro moved after
  obtain ⟨pairs, ids, slotted, _, contents⟩ := insertBefore_eq planted serves found resolved next
  obtain ⟨r, live⟩ := live_of_node serves found
  have named := planted.named live
  have present : ∀ e ∈ pairs, ∃ r, d.store.get? e.2 = some r := by
    intro e member
    have listed : e.2 ∈ pairs.map Prod.snd := List.mem_map_of_mem member
    rw [ids] at listed
    obtain ⟨h, chosen, same⟩ := List.mem_map.mp listed
    rw [← same]
    exact live_of_node serves (resolved h (List.mem_of_mem_filter chosen))
  have same : moved = pairs.map Prod.snd := ids.symm
  rw [same]
  exact ⟨children_under contents planted named slotted present, fun p elsewhere => children_elsewhere contents elsewhere,
    fun id unmoved => get?_unmoved contents unmoved⟩

theorem planted_insertBefore (next : Option String) : Planted (d.insertBefore parent nodes next).2.store.get? := by
  obtain ⟨pairs, ids, slotted, _, contents⟩ := insertBefore_eq planted serves found resolved next
  have member : ∀ id key, lastKey? pairs id = some key → (key, id) ∈ pairs := fun id key given =>
    (lastPairs_sublist pairs).subset (mem_lastPairs.mpr given)
  rw [contents]
  apply planted.move (live_of_node serves found)
  · intro x above
    apply lastKey?_eq_none.mpr
    rw [ids]
    intro listed
    obtain ⟨h, chosen, same⟩ := List.mem_map.mp listed
    obtain ⟨asked, may⟩ := List.mem_filter.mp chosen
    obtain ⟨r, live⟩ := live_of_node serves (resolved h asked)
    simp only [mayMove, Bool.and_eq_true, Bool.not_eq_true', decide_eq_true_eq, decide_eq_false_iff_not] at may
    rcases above with here | further
    · exact may.1.1.2 (same.trans here)
    · rw [← same] at further
      exact may.1.2 ((Store.below_iff planted.toWooded (planted.named live)).mpr further)
  · intro id key given
    exact slotted.formed _ (member id key given)
  · intro a b key given given'
    have keys : (pairs.map Prod.fst).Nodup := List.pairwise_map.mpr (slotted.ascending.imp fun less => ne_of_lt less)
    exact congrArg Prod.snd (List.inj_on_of_nodup_map keys (member a key given) (member b key given') rfl)
  · intro id r live under unmoved x given
    have given := member x _ given
    have child : (Store.orderKey r, id) ∈ d.store.keyedChildren parent.id :=
      Store.mem_keyedChildren.mpr ⟨r, live, by simp [Store.parentId, Placed.parent, under], rfl⟩
    rw [← d.store.childrenBefore_append parent.id next] at child
    rcases List.mem_append.mp child with before | behind
    · have less := slotted.above _ before _ given
      exact lt_irrefl _ less
    · have less := slotted.below _ given _ behind
      exact lt_irrefl _ less

end

end Document

end MarkupEditor
