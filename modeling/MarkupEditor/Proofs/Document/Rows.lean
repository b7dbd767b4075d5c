import Mathlib.Data.List.Chain
import MarkupEditor.Proofs.Document.Usage

namespace MarkupEditor

namespace Store

variable {α : Type} [Placed α] {s : Store α} (wooded : Wooded s.get?) {parent child : String} {index : Nat}

include wooded

theorem nextSibling?_childAt (named : parent ≠ rootsId) (found : s.childAt? parent index = some child) :
    s.nextSibling? child = s.childAt? parent (index + 1) := by
  have above := (parent?_eq_some wooded).mpr (names_of_child named (List.mem_of_getElem? found))
  rw [nextSibling?, above, index?_childAt named found]

theorem previousSibling?_first (named : parent ≠ rootsId) (found : s.childAt? parent 0 = some child) : s.previousSibling? child = none := by
  have above := (parent?_eq_some wooded).mpr (names_of_child named (List.mem_of_getElem? found))
  rw [previousSibling?, above, index?_childAt named found]

theorem previousSibling?_childAt (named : parent ≠ rootsId) (found : s.childAt? parent (index + 1) = some child) :
    s.previousSibling? child = s.childAt? parent index := by
  have above := (parent?_eq_some wooded).mpr (names_of_child named (List.mem_of_getElem? found))
  rw [previousSibling?, above, index?_childAt named found]

end Store

namespace Document

variable {d : Document} {classAttribute : String}

-- All that an entry stands below is expanded.
def isShown (d : Document) (id : String) : Bool := (d.store.ancestors id).all d.isOpen

def rowsUnder (d : Document) (id : String) : List String := (id :: d.store.descendants id).filter d.isShown

def rowBelow? (d : Document) (id : String) : Option String :=
  (if d.isOpen id then d.store.childAt? id 0 else none).or (d.rowAfter? id)

theorem nextRow?_eq {h : Handle} (held : d.handle? h.id = some h) : d.nextRow? h = (d.rowBelow? h.id).bind d.handle? := by
  rw [nextRow?, rowBelow?, isOpen, held]
  rfl

theorem lastRow_childless {id : String} (alone : d.isOpen id = true → d.store.children id = []) (levels : Nat) : d.lastRow levels id = id := by
  cases levels with
  | zero => rfl
  | succ levels =>
    rw [lastRow]
    split
    · rename_i opened
      rw [alone opened]
      rfl
    · rfl

theorem viewed_expandAncestors (d : Document) (id : String) : Viewed d (d.expandAncestors id) := viewed_expandAll d _

theorem head_rowsUnder {id : String} (shown : d.isShown id = true) : (d.rowsUnder id).head? = some id := by
  rw [rowsUnder, List.filter_cons_of_pos shown]
  rfl

theorem previousRow?_top {id : String} (top : d.store.parent? id = none) : d.previousRow? id = none := by
  rw [previousRow?, Store.previousSibling?, top]

structure Adjoin (d : Document) (a b : String) : Prop where
  below : d.rowBelow? a = some b
  above : d.previousRow? b = some a

-- The rows of an entry follow one another, from its own to the last one, below which comes what follows the entry.
structure Listed (d : Document) (id : String) : Prop where
  chain : (d.rowsUnder id).IsChain d.Adjoin
  last : (d.rowsUnder id).getLast? = some (d.lastRow d.store.size id)
  after : d.rowBelow? (d.lastRow d.store.size id) = d.rowAfter? id

section

variable (wooded : Store.Wooded d.store.get?)

include wooded

theorem isShown_top {id : String} (top : d.store.parent? id = none) : d.isShown id = true := by
  rw [isShown, Store.ancestors_eq wooded, top]
  rfl

theorem isShown_child {parent child : String} (names : Store.Names d.store.get? parent child) :
    d.isShown child = (d.isOpen parent && d.isShown parent) := by
  rw [isShown, Store.ancestors_eq wooded, (Store.parent?_eq_some wooded).mpr names, List.all_cons]
  rfl

theorem isOpen_of_isShown {top id : String} (shown : d.isShown id = true) (above : Relation.TransGen (Store.Names d.store.get?) top id) :
    d.isOpen top = true :=
  List.all_eq_true.mp shown top ((Store.mem_ancestors wooded).mpr above)

theorem rowsUnder_closed {id : String} (named : id ≠ Store.rootsId) (shown : d.isShown id = true) (closed : d.isOpen id = false) :
    d.rowsUnder id = [id] := by
  have hidden : (d.store.descendants id).filter d.isShown = [] := by
    apply List.filter_eq_nil_iff.mpr
    intro x listed shown'
    have below := (Store.below_iff wooded named).mp (Store.mem_descendants.mp listed)
    rw [isOpen_of_isShown wooded shown' below] at closed
    cases closed
  rw [rowsUnder, List.filter_cons_of_pos shown, hidden]

theorem rowsUnder_open {id : String} (shown : d.isShown id = true) : d.rowsUnder id = id :: (d.store.children id).flatMap d.rowsUnder := by
  rw [rowsUnder, List.filter_cons_of_pos shown, Store.descendants_eq wooded, List.filter_flatMap]
  rfl

theorem rowAfter?_top {id : String} (top : d.store.parent? id = none) : d.rowAfter? id = none := by
  rw [rowAfter?, Store.ancestors_eq wooded, top, List.findSome?_singleton, Store.nextSibling?, top]

theorem rowAfter?_childAt {parent child : String} {index : Nat} (named : parent ≠ Store.rootsId)
    (found : d.store.childAt? parent index = some child) :
    d.rowAfter? child = (d.store.childAt? parent (index + 1)).or (d.rowAfter? parent) := by
  have names := Store.names_of_child named (List.mem_of_getElem? found)
  rw [rowAfter?, Store.ancestors_eq wooded, (Store.parent?_eq_some wooded).mpr names, List.findSome?_cons,
    Store.nextSibling?_childAt wooded named found]
  cases d.store.childAt? parent (index + 1) <;> rfl

theorem lastRow_ended {levels : Nat} {id : String} (live : id ∈ d.store.ids) (enough : d.store.size ≤ levels + 1 + (d.store.ancestors id).length)
    (more : Nat) : d.lastRow (levels + more) id = d.lastRow levels id := by
  induction levels generalizing id with
  | zero =>
    cases more with
    | zero => rfl
    | succ more =>
      rw [Nat.zero_add, lastRow, lastRow]
      split
      · split
        · rename_i child last
          obtain ⟨within, longer⟩ := Store.ancestors_child wooded live (List.mem_of_getLast? last)
          have bound := Store.length_ancestorsUpTo wooded d.store.size within
          rw [← Store.ancestors, longer] at bound
          omega
        · rfl
      · rfl
  | succ levels ih =>
    rw [Nat.add_right_comm, lastRow, lastRow]
    split
    · split
      · rename_i child last
        obtain ⟨within, longer⟩ := Store.ancestors_child wooded live (List.mem_of_getLast? last)
        exact ih within (by omega)
      · rfl
    · rfl

theorem lastRow_child {id child : String} (live : id ∈ d.store.ids) (opened : d.isOpen id = true)
    (last : (d.store.children id).getLast? = some child) : d.lastRow d.store.size id = d.lastRow d.store.size child := by
  obtain ⟨within, longer⟩ := Store.ancestors_child wooded live (List.mem_of_getLast? last)
  have bound := Store.length_ancestorsUpTo wooded d.store.size live
  obtain ⟨levels, size⟩ := Nat.exists_eq_add_of_lt (Nat.zero_lt_of_lt bound)
  rw [size, Nat.zero_add, lastRow, if_pos opened, last]
  exact (lastRow_ended wooded within (by omega) 1).symm

theorem adjoin_first {parent child : String} (named : parent ≠ Store.rootsId) (opened : d.isOpen parent = true)
    (found : d.store.childAt? parent 0 = some child) : d.Adjoin parent child := by
  constructor
  · rw [rowBelow?, if_pos opened, found, Option.some_or]
  · rw [previousRow?, Store.previousSibling?_first wooded named found]
    exact (Store.parent?_eq_some wooded).mpr (Store.names_of_child named (List.mem_of_getElem? found))

theorem adjoin_next {parent child next : String} {index : Nat} (named : parent ≠ Store.rootsId)
    (found : d.store.childAt? parent index = some child) (following : d.store.childAt? parent (index + 1) = some next) (listed : d.Listed child) :
    d.Adjoin (d.lastRow d.store.size child) next := by
  constructor
  · rw [listed.after, rowAfter?_childAt wooded named found, following, Option.some_or]
  · rw [previousRow?, Store.previousSibling?_childAt wooded named following, found]

theorem listed_alone {id : String} (named : id ≠ Store.rootsId) (shown : d.isShown id = true)
    (alone : d.isOpen id = true → d.store.children id = []) : d.Listed id := by
  have row : d.rowsUnder id = [id] := by
    cases opened : d.isOpen id with
    | true => rw [rowsUnder_open wooded shown, alone opened, List.flatMap_nil]
    | false => exact rowsUnder_closed wooded named shown opened
  refine ⟨row ▸ .singleton id, ?_, ?_⟩
  · rw [row, lastRow_childless alone]
    rfl
  · rw [lastRow_childless alone, rowBelow?]
    split
    · rename_i opened
      rw [Store.childAt?, alone opened]
      rfl
    · rfl

theorem listed_children {id first : String} {rest : List String} (named : id ≠ Store.rootsId) (live : id ∈ d.store.ids)
    (shown : d.isShown id = true) (opened : d.isOpen id = true) (children : d.store.children id = first :: rest)
    (each : ∀ child ∈ d.store.children id, d.isShown child = true ∧ d.Listed child) : d.Listed id := by
  obtain ⟨before, last, split⟩ := (List.eq_nil_or_concat' (d.store.children id)).resolve_left (by rw [children]; exact List.cons_ne_nil _ _)
  have final : d.store.childAt? id before.length = some last := by rw [Store.childAt?, split, List.getElem?_concat_length]
  have down : d.lastRow d.store.size id = d.lastRow d.store.size last := lastRow_child wooded live opened (by rw [split, List.getLast?_concat])
  have ending : last ∈ d.store.children id := List.mem_of_getElem? final
  refine ⟨?_, ?_, ?_⟩
  · rw [rowsUnder_open wooded shown, List.isChain_cons]
    constructor
    · intro y head
      rw [children, List.flatMap_cons, List.head?_append, head_rowsUnder (each first (children ▸ List.mem_cons_self)).1] at head
      rw [← Option.some.inj head]
      exact adjoin_first wooded named opened (by rw [Store.childAt?, children]; rfl)
    · have some : [] ∉ (d.store.children id).map d.rowsUnder := by
        intro member
        obtain ⟨child, listed, empty⟩ := List.mem_map.mp member
        have head := head_rowsUnder (each child listed).1
        rw [empty] at head
        cases head
      rw [List.flatMap_def, List.isChain_flatten some]
      refine ⟨List.forall_mem_map.mpr fun child listed => (each child listed).2.chain, ?_⟩
      rw [List.isChain_map, List.isChain_iff_getElem]
      intro i within x atEnd y atHead
      obtain ⟨_, listed⟩ := each _ (List.getElem_mem (Nat.lt_of_succ_lt within))
      rw [head_rowsUnder (each _ (List.getElem_mem within)).1] at atHead
      rw [listed.last] at atEnd
      rw [← Option.some.inj atEnd, ← Option.some.inj atHead]
      exact adjoin_next wooded named (List.getElem?_eq_getElem _) (List.getElem?_eq_getElem within) listed
  · rw [rowsUnder_open wooded shown, split, List.flatMap_append, List.flatMap_singleton, ← List.cons_append, List.getLast?_append,
      (each last ending).2.last, Option.some_or, down]
  · have none : d.store.childAt? id (before.length + 1) = none := by
      rw [Store.childAt?, split]
      exact List.getElem?_eq_none (by simp)
    rw [down, (each last ending).2.after, rowAfter?_childAt wooded named final, none, Option.none_or]

theorem listed_of_shown {id : String} (live : id ∈ d.store.ids) (shown : d.isShown id = true) : d.Listed id := by
  -- By induction downwards: the rows of the children are put together, with the row of the entry in front.
  induction id using (Store.wellFounded_children wooded).induction with
  | _ id ih =>
    obtain ⟨r, found⟩ := Option.isSome_iff_exists.mp ((Store.get?_isSome_iff d.store id).mpr live)
    have named := wooded.named found
    by_cases alone : d.isOpen id = true → d.store.children id = []
    · exact listed_alone wooded named shown alone
    · obtain ⟨opened, some⟩ := Classical.not_imp.mp alone
      obtain ⟨first, rest, children⟩ := List.exists_cons_of_ne_nil some
      apply listed_children wooded named live shown opened children
      intro child member
      have names := Store.names_of_child named member
      have shown' : d.isShown child = true := by rw [isShown_child wooded names, opened, shown]; rfl
      exact ⟨shown', ih child names (Store.ancestors_child wooded live member).1 shown'⟩

end

namespace Listed

variable {top : String} (listed : d.Listed top)

include listed

theorem adjoin_below (ended : d.rowAfter? top = none) {a b : String} (member : a ∈ d.rowsUnder top) (below : d.rowBelow? a = some b) :
    d.Adjoin a b := by
  obtain ⟨before, rest, split⟩ := List.append_of_mem member
  have chain := listed.chain
  have last := listed.last
  rw [split] at chain last
  cases rest with
  | nil =>
    rw [List.getLast?_concat] at last
    rw [Option.some.inj last, listed.after, ended] at below
    cases below
  | cons c rest =>
    have next : d.Adjoin a c := (List.isChain_append_cons_cons.mp chain).2.1
    exact Option.some.inj (next.below.symm.trans below) ▸ next

theorem adjoin_above (shown : d.isShown top = true) (started : d.previousRow? top = none) {a b : String} (member : b ∈ d.rowsUnder top)
    (above : d.previousRow? b = some a) : a ∈ d.rowsUnder top ∧ d.Adjoin a b := by
  obtain ⟨before, rest, split⟩ := List.append_of_mem member
  cases List.eq_nil_or_concat' before with
  | inl none =>
    have head := head_rowsUnder shown
    rw [split, none, List.nil_append, List.head?_cons] at head
    rw [Option.some.inj head, started] at above
    cases above
  | inr some =>
    obtain ⟨earlier, c, rfl⟩ := some
    have chain := listed.chain
    rw [split, List.append_assoc, List.singleton_append] at chain
    have next : d.Adjoin c b := (List.isChain_append_cons_cons.mp chain).2.1
    obtain rfl := Option.some.inj (next.above.symm.trans above)
    exact ⟨split ▸ List.mem_append_left _ (List.mem_append_right _ List.mem_cons_self), next⟩

end Listed

def upTo (last : Option Handle) : List Handle → List Handle
  | [] => []
  | h :: hs => if last = some h then [h] else h :: upTo last hs

theorem upTo_none (hs : List Handle) : upTo none hs = hs := by
  induction hs with
  | nil => rfl
  | cons h hs ih => rw [upTo, if_neg (Option.some_ne_none h).symm, ih]

theorem rowsUpTo_eq {last : Option Handle} {steps : Nat} {h : Handle} {rows : List Handle} (chain : (h :: rows).IsChain fun a b => d.nextRow? a = some b)
    (ended : ∀ x ∈ (h :: rows).getLast?, d.nextRow? x = none) (enough : rows.length ≤ steps) :
    d.rowsUpTo last steps h = upTo last (h :: rows) := by
  induction steps generalizing h rows with
  | zero =>
    rw [List.eq_nil_of_length_eq_zero (Nat.le_zero.mp enough), rowsUpTo, upTo, upTo, ite_self]
  | succ steps ih =>
    rw [rowsUpTo, upTo]
    split
    · rfl
    · cases rows with
      | nil => rw [ended h rfl, upTo]
      | cons next rows =>
        obtain ⟨first, chain⟩ := List.isChain_cons_cons.mp chain
        rw [List.getLast?_cons_cons] at ended
        rw [first, ← ih chain ended (Nat.le_of_succ_le_succ enough)]

theorem held_of_handles {ids : List String} : ∀ h ∈ d.handles ids, d.handle? h.id = some h := by
  intro h member
  obtain ⟨id, _, held⟩ := List.mem_filterMap.mp member
  rwa [(handle?_eq_some.mp held).1]

theorem ids_handles (serves : d.instances.Serves d.store) {ids : List String} (live : ids ⊆ d.store.ids) : (d.handles ids).map Handle.id = ids := by
  induction ids with
  | nil => rfl
  | cons id ids ih =>
    obtain ⟨first, later⟩ := List.cons_subset.mp live
    obtain ⟨r, found⟩ := Option.isSome_iff_exists.mp ((Store.get?_isSome_iff d.store id).mpr first)
    obtain ⟨h, held⟩ := handle?_of_live serves found
    have rest := ih later
    unfold handles at rest ⊢
    rw [List.filterMap_cons, held, List.map_cons, rest, (handle?_eq_some.mp held).1]

theorem nextRow?_adjoin {a b : Handle} (first : d.handle? a.id = some a) (second : d.handle? b.id = some b) (adjoin : d.Adjoin a.id b.id) :
    d.nextRow? a = some b := by
  rw [nextRow?_eq first, adjoin.below, Option.bind_some, second]

theorem nextRow?_chain {rows : List Handle} (held : ∀ h ∈ rows, d.handle? h.id = some h) (chain : (rows.map Handle.id).IsChain d.Adjoin) :
    rows.IsChain fun a b => d.nextRow? a = some b := by
  rw [List.isChain_map] at chain
  exact chain.imp_of_mem_imp fun a b first second adjoin => nextRow?_adjoin (held a first) (held b second) adjoin

section

variable (standing : d.Standing) {root : Handle} (held : d.handle? root.id = some root)

include standing held

theorem ids_rows : (d.handles (d.rowsUnder root.id)).map Handle.id = d.rowsUnder root.id :=
  ids_handles standing.serves fun _ member => standing.tree_live held (List.mem_of_mem_filter member)

theorem rows_enough : (d.handles (d.rowsUnder root.id)).length ≤ d.store.size := by
  have within : d.rowsUnder root.id ⊆ d.store.ids := fun _ member => standing.tree_live held (List.mem_of_mem_filter member)
  have nodup : (d.rowsUnder root.id).Nodup := (standing.nodup_tree held).filter _
  have short := (List.subperm_of_subset nodup within).length_le
  rwa [← ids_rows standing held, List.length_map, Store.ids, List.length_map] at short

variable (top : d.store.parent? root.id = none)

include top

theorem listed_top : d.Listed root.id :=
  listed_of_shown standing.planted.toWooded (standing.tree_live held List.mem_cons_self) (isShown_top standing.planted.toWooded top)

theorem rows_chain : (d.handles (d.rowsUnder root.id)).IsChain fun a b => d.nextRow? a = some b :=
  nextRow?_chain held_of_handles ((ids_rows standing held).symm ▸ (listed_top standing held top).chain)

theorem rows_ended : ∀ h ∈ (d.handles (d.rowsUnder root.id)).getLast?, d.nextRow? h = none := by
  have listed := listed_top standing held top
  intro h last
  have same : h.id = d.lastRow d.store.size root.id := by
    have ids := congrArg List.getLast? (ids_rows standing held)
    rw [List.getLast?_map, last, listed.last] at ids
    exact Option.some.inj ids
  rw [nextRow?_eq (held_of_handles h (List.mem_of_getLast? last)), same, listed.after, rowAfter?_top standing.planted.toWooded top]
  rfl

theorem rowsFrom_top : d.rowsFrom root = d.handles (d.rowsUnder root.id) := by
  have chain := rows_chain standing held top
  have ended := rows_ended standing held top
  have enough := rows_enough standing held
  have first : ∃ rest, d.handles (d.rowsUnder root.id) = root :: rest := by
    rw [rowsUnder, List.filter_cons_of_pos (isShown_top standing.planted.toWooded top), handles, List.filterMap_cons, held]
    exact ⟨_, rfl⟩
  obtain ⟨rest, split⟩ := first
  rw [split] at chain ended enough ⊢
  rw [rowsFrom, rowsUpTo_eq chain ended (Nat.le_of_succ_le enough), upTo_none]

end

-- Going down from row to row in the tree view lists what shows of a tree in document order, each node once, and going up goes
-- back the same way.
theorem tree_view_enumerates (used : d.Used classAttribute) {root : Handle} (held : d.handle? root.id = some root)
    (top : d.store.parent? root.id = none) :
    let visible := (root.id :: d.store.descendants root.id).filter fun id => (d.store.ancestors id).all d.isOpen
    (d.rowsFrom root).map Handle.id = visible ∧ visible.Nodup ∧ (∀ h ∈ d.rowsFrom root, d.handle? h.id = some h) ∧
      (d.rowsFrom root).IsChain (fun a b => d.nextRow? a = some b) ∧ (∀ h ∈ (d.rowsFrom root).getLast?, d.nextRow? h = none) ∧
      d.previousRow? root.id = none ∧
      ∀ n : Handle, d.handle? n.id = some n → n.id ∈ visible →
        (∀ m, d.nextRow? n = some m → d.previousRow? m.id = some n.id) ∧
        (∀ id, d.previousRow? n.id = some id → ∃ m : Handle, m.id = id ∧ d.handle? m.id = some m ∧ d.nextRow? m = some n) := by
  intro visible
  have standing := used.standing
  have listed := listed_top standing held top
  rw [rowsFrom_top standing held top]
  refine ⟨ids_rows standing held, (standing.nodup_tree held).filter _, held_of_handles, rows_chain standing held top, rows_ended standing held top,
    previousRow?_top top, fun n own member => ⟨fun m next => ?_, fun id above => ?_⟩⟩
  · rw [nextRow?_eq own] at next
    obtain ⟨b, below, found⟩ := Option.bind_eq_some_iff.mp next
    rw [(handle?_eq_some.mp found).1]
    exact (listed.adjoin_below (rowAfter?_top used.wooded top) member below).above
  · obtain ⟨shown, adjoin⟩ := listed.adjoin_above (isShown_top used.wooded top) (previousRow?_top top) member above
    obtain ⟨r, there⟩ := Option.isSome_iff_exists.mp ((Store.get?_isSome_iff d.store id).mpr (standing.tree_live held (List.mem_of_mem_filter shown)))
    obtain ⟨m, same, other⟩ := standing.handle there
    exact ⟨m, same, other, nextRow?_adjoin other own (same ▸ adjoin)⟩

theorem tree_view_enumerates_collapsed :
    ∃ tree, parse "x = <div><p><b /></p></div>;" = .ok tree ∧
      let d := ((new "className" 1000 100).perform [(0, .load "f" tree)]).expandAncestors (File.nodeId "f" 0 3)
      let root : Handle := ⟨File.rootId "f", 1⟩
      d.Used "className" ∧ d.handle? root.id = some root ∧ d.store.parent? root.id = none ∧
        (d.rowsFrom root).map Handle.id = [File.rootId "f", File.nodeId "f" 0 1, File.nodeId "f" 0 2, File.nodeId "f" 0 3] ∧
        d.previousRow? root.id = none := by
  have ran : ((parse "x = <div><p><b /></p></div>;").toOption.map fun tree =>
      let d := ((new "className" 1000 100).perform [(0, .load "f" tree)]).expandAncestors (File.nodeId "f" 0 3)
      (d.handle? (File.rootId "f"), d.store.parent? (File.rootId "f"),
        (File.rootId "f" :: d.store.descendants (File.rootId "f")).filter fun id => (d.store.ancestors id).all d.isOpen)) =
      some (some ⟨File.rootId "f", 1⟩, none, [File.rootId "f", File.nodeId "f" 0 1, File.nodeId "f" 0 2, File.nodeId "f" 0 3]) := by
    decide +kernel
  simp only [Option.map_eq_some_iff, Prod.mk.injEq] at ran
  obtain ⟨tree, parsed, held, top, shown⟩ := ran
  have used := (Used.of_acts "className" 1000 100 [(0, .load "f" tree)]).viewed
    (viewed_expandAncestors _ (File.nodeId "f" 0 3))
  refine ⟨tree, eq_ok_of_toOption parsed, ?_⟩
  generalize ((new "className" 1000 100).perform [(0, .load "f" tree)]).expandAncestors (File.nodeId "f" 0 3) = d at *
  obtain ⟨rows, _, _, _, _, started, _⟩ := @tree_view_enumerates d "className" used ⟨File.rootId "f", 1⟩ held top
  exact ⟨used, held, top, rows.trans shown, started⟩

end Document

end MarkupEditor
