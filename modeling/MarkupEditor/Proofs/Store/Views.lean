import Mathlib.Logic.Function.Iterate
import MarkupEditor.Proofs.Store.ChildIndex
import MarkupEditor.Proofs.Store.Instances
import MarkupEditor.Proofs.Store.UndoRedo

namespace MarkupEditor

inductive ViewAct (κ α : Type) where
  | act (act : BenchAct κ α)
  | read (store : κ) (parent : String)

namespace Bench

variable {κ α : Type}

def serial? (b : Bench κ α) (k : κ) (id : String) : Option Nat := (b.instances k).bind (·.get? id)

def writes (b : Bench κ α) : ViewAct κ α → List (Write κ α)
  | .act (.set k id value) => [⟨k, id, some value⟩]
  | .act (.update k id f) => (((b.store k).get? id).map fun value => ⟨k, id, some (f value)⟩).toList
  | .act (.delete k id) => [⟨k, id, none⟩]
  | .act .commit => []
  | .act .undo => b.history.undo.1.getD []
  | .act .redo => b.history.redo.1.getD []
  | .read .. => []

-- The instances of a store after some writes: what was there is there still unless it was erased, and everything
-- else is new.
structure Since (k : κ) (before : Instances) (writes : List (Write κ α)) (after : Instances) : Prop where
  made : before.made ≤ after.made
  still : ∀ id serial, serial ≤ before.made → (after.get? id = some serial ↔ before.get? id = some serial ∧ ⟨k, id, none⟩ ∉ writes)

theorem Since.nothing (k : κ) (held : Instances) : @Since κ α k held [] held := by
  refine ⟨Nat.le_refl _, ?_⟩
  intro id serial _
  simp

theorem Since.trans {k : κ} {first second third : Instances} {writes more : List (Write κ α)} (one : Since k first writes second)
    (two : Since k second more third) : Since k first (writes ++ more) third := by
  refine ⟨one.made.trans two.made, ?_⟩
  intro id serial bound
  rw [two.still id serial (bound.trans one.made), one.still id serial bound, List.mem_append, not_or, and_assoc]

theorem since_note (k : κ) (held : Instances) (c : Change α) : Since k held [⟨k, c.id, c.after⟩] (held.note c) := by
  refine ⟨held.made_note _, ?_⟩
  intro key serial bound
  rw [Instances.note_get?]
  by_cases here : key = c.id
  · cases after : c.after with
    | none => simp [here]
    | some r =>
      cases live : held.get? c.id with
      | none =>
        have new : held.made + 1 ≠ serial := by omega
        simp [here, live, new]
      | some other => simp [here, live]
  · simp [here]

theorem since_unchanged {k : κ} {held : Instances} {w : Write κ α} (idle : w.store = k → held.get? w.id = none) :
    Since k held [w] held := by
  refine ⟨Nat.le_refl _, ?_⟩
  intro id serial _
  rw [iff_self_and]
  intro live erased
  obtain rfl := List.mem_singleton.mp erased
  simp [live] at idle

variable [DecidableEq κ] [Placed α]

def attend (b : Bench κ α) (time : Nat) : ViewAct κ α → Bench κ α
  | .act act => (b.step time act).2
  | .read k parent => (b.readChildren k parent).2

def attendAll (b : Bench κ α) (acts : List (Nat × ViewAct κ α)) : Bench κ α := acts.foldl (fun b a => b.attend a.1 a.2) b

def written (b : Bench κ α) : List (Nat × ViewAct κ α) → List (Write κ α)
  | [] => []
  | (time, a) :: rest => b.writes a ++ (b.attend time a).written rest

theorem attend_act (b : Bench κ α) (time : Nat) (act : BenchAct κ α) :
    ∃ record history, b.attend time (.act act) = ({ b with now := time, history } : Bench κ α).writeAll record (b.writes (.act act)) := by
  cases act with
  | set k id value => exact ⟨true, b.history, rfl⟩
  | update k id f =>
    refine ⟨true, b.history, ?_⟩
    have here : (({ b with now := time } : Bench κ α).store k).get? id = (b.store k).get? id := rfl
    simp only [attend, step, writes, here]
    cases (b.store k).get? id <;> rfl
  | delete k id => exact ⟨true, b.history, rfl⟩
  | commit => exact ⟨true, b.history.close, rfl⟩
  | undo =>
    refine ⟨false, b.history.undo.2, ?_⟩
    simp only [attend, step, writes, Bench.undo]
    cases undone : b.history.undo with
    | mk writes history =>
      cases writes with
      | none => rfl
      | some writes => exact replay_eq_writeAll _ _
  | redo =>
    refine ⟨false, b.history.redo.2, ?_⟩
    simp only [attend, step, writes, Bench.redo]
    cases redone : b.history.redo with
    | mk writes history =>
      cases writes with
      | none => rfl
      | some writes => exact replay_eq_writeAll _ _

theorem attend_quiet {b : Bench κ α} (quiet : b.Quiet) (time : Nat) (a : ViewAct κ α) :
    (b.attend time a).contents = b.contents.replay (b.writes a) ∧ (b.attend time a).observers = b.observers := by
  cases a with
  | act act =>
    obtain ⟨record, history, same⟩ := attend_act b time act
    rw [same]
    obtain ⟨contents, observers, _⟩ := writeAll_quiet (b := { b with now := time, history }) quiet record (b.writes (.act act))
    exact ⟨contents, observers⟩
  | read k parent =>
    rw [attend, readChildren]
    split <;> exact ⟨rfl, rfl⟩

theorem attendAll_contents {b : Bench κ α} (quiet : b.Quiet) (acts : List (Nat × ViewAct κ α)) :
    (b.attendAll acts).contents = b.contents.replay (b.written acts) := by
  induction acts generalizing b with
  | nil => rfl
  | cons a acts ih =>
    obtain ⟨contents, observers⟩ := attend_quiet quiet a.1 a.2
    have silent : (b.attend a.1 a.2).Quiet := by
      unfold Quiet
      rw [observers]
      exact quiet
    have later := ih silent
    rw [contents, Contents.replay, Contents.replay, ← List.foldl_append] at later
    exact later

theorem assign_self {β : Type} (f : κ → β) (k : κ) : assign f k (f k) = f := by
  funext j
  unfold assign
  split
  · rename_i here
    rw [here]
  · rfl

theorem assign_assign {β : Type} (f : κ → β) (k : κ) (x y : β) : assign (assign f k x) k y = assign f k y := by
  funext j
  unfold assign
  split <;> rfl

theorem hear_views (record : Bool) (k : κ) (c : Change α) (observers : List (Observer α)) (b : Bench κ α) :
    ((observers.map (·, c)).foldl (hear record k) b).indexes =
        assign b.indexes k ((Option.map (·.note c))^[observers.countP isChildren] (b.indexes k)) ∧
      ((observers.map (·, c)).foldl (hear record k) b).instances =
        assign b.instances k ((Option.map (·.note c))^[observers.countP isInstances] (b.instances k)) := by
  induction observers generalizing b with
  | nil => exact ⟨(assign_self _ _).symm, (assign_self _ _).symm⟩
  | cons o rest ih =>
    obtain ⟨indexes, instances⟩ := ih (hear record k b (o, c))
    rw [List.map_cons, List.foldl_cons, indexes, instances]
    cases o with
    | history => cases record <;> exact ⟨by simp [hear, isChildren], by simp [hear, isInstances]⟩
    | log name copy => exact ⟨by simp [hear, isChildren], by simp [hear, isInstances]⟩
    | children =>
      refine ⟨?_, by simp [hear, isInstances]⟩
      simp only [hear, assign_assign, List.countP_cons, isChildren, if_true, Function.iterate_succ_apply]
      simp [assign]
    | instances =>
      refine ⟨by simp [hear, isChildren], ?_⟩
      simp only [hear, assign_assign, List.countP_cons, isInstances, if_true, Function.iterate_succ_apply]
      simp [assign]

theorem writeWith_views {b : Bench κ α} (quiet : b.Quiet) (record : Bool) (k : κ) (id : String) (value : Option α) :
    (b.writeWith record k id value).1.indexes =
        (match ((b.store k).write id value).2 with
        | none => b.indexes
        | some c => assign b.indexes k ((Option.map (·.note c))^[(b.observers k).countP isChildren] (b.indexes k))) ∧
      (b.writeWith record k id value).1.instances =
        match ((b.store k).write id value).2 with
        | none => b.instances
        | some c => assign b.instances k ((Option.map (·.note c))^[(b.observers k).countP isInstances] (b.instances k)) := by
  have written := Observed.write_quiet ((b.stores k).store.size + 2) (b.store k) id value (quiet k)
  unfold writeWith
  simp only [observers, store] at written ⊢
  rw [written]
  cases change : ((b.stores k).store.write id value).2 with
  | none => exact ⟨rfl, rfl⟩
  | some c => exact hear_views record k c (b.stores k).observers _

structure Views (b : Bench κ α) (k : κ) (index : ChildIndex) (held : Instances) : Prop where
  quiet : b.Quiet
  once : (b.observers k).countP isChildren = 1 ∧ (b.observers k).countP isInstances = 1
  indexed : b.indexes k = some index
  kept : b.instances k = some held
  agrees : index.Matches (b.store k)
  serves : held.Serves (b.store k)

section

variable {b : Bench κ α} {k : κ} {index : ChildIndex} {held : Instances}

theorem Views.write (views : Views b k index held) (record : Bool) (w : Write κ α) :
    ∃ index' held', Views (b.writeWith record w.store w.id w.value).1 k index' held' ∧ Since k held [w] held' := by
  have observers := writeWith_observers views.quiet record w.store w.id w.value
  have quiet : (b.writeWith record w.store w.id w.value).1.Quiet := by
    unfold Quiet
    rw [observers]
    exact views.quiet
  have once := views.once
  rw [← observers] at once
  obtain ⟨stores, -⟩ := writeWith_quiet views.quiet record w.store w.id w.value
  obtain ⟨indexes, instances⟩ := writeWith_views views.quiet record w.store w.id w.value
  by_cases here : w.store = k
  · obtain ⟨j, id, value⟩ := w
    dsimp only at here
    subst here
    simp only at *
    have store : (b.writeWith record j id value).1.store j = ((b.store j).write id value).1 := by simp [Bench.store, stores, assign]
    rw [Store.write_eq] at indexes instances store
    by_cases nothing : (b.store j).get? id = none ∧ value = none
    · rw [if_pos nothing] at indexes instances store
      refine ⟨index, held, ⟨quiet, once, indexes ▸ views.indexed, instances ▸ views.kept, store ▸ views.agrees, store ▸ views.serves⟩, ?_⟩
      apply since_unchanged
      intro _
      rw [← Option.not_isSome_iff_eq_none, views.serves.live, nothing.1]
      exact Bool.false_ne_true
    · rw [if_neg nothing] at indexes instances store
      dsimp only at store
      have since := since_note j held ⟨id, (b.store j).get? id, value⟩
      refine ⟨_, _, ⟨quiet, once, ?_, ?_, store ▸ views.agrees.note id value, store ▸ views.serves.note id value⟩, since⟩
      · simp [indexes, assign, views.once.1, views.indexed]
      · simp [instances, assign, views.once.2, views.kept]
  · have store : (b.writeWith record w.store w.id w.value).1.store k = b.store k := by simp [Bench.store, stores, assign, Ne.symm here]
    refine ⟨index, held, ⟨quiet, once, ?_, ?_, store ▸ views.agrees, store ▸ views.serves⟩, since_unchanged fun same => absurd same here⟩
    · rw [indexes, ← views.indexed]
      cases ((b.store w.store).write w.id w.value).2 with
      | none => rfl
      | some c => exact if_neg (Ne.symm here)
    · rw [instances, ← views.kept]
      cases ((b.store w.store).write w.id w.value).2 with
      | none => rfl
      | some c => exact if_neg (Ne.symm here)

theorem Views.writeAll (views : Views b k index held) (record : Bool) (writes : List (Write κ α)) :
    ∃ index' held', Views (b.writeAll record writes) k index' held' ∧ Since k held writes held' := by
  induction writes generalizing b index held with
  | nil => exact ⟨index, held, views, Since.nothing k held⟩
  | cons w ws ih =>
    obtain ⟨_, _, first, one⟩ := views.write record w
    obtain ⟨index', held', rest, more⟩ := ih first
    exact ⟨index', held', rest, one.trans more⟩

theorem Views.read (views : Views b k index held) (j : κ) (parent : String) :
    ∃ index', Views (b.readChildren j parent).2 k index' held := by
  unfold readChildren
  cases indexed : b.indexes j with
  | none => exact ⟨index, views⟩
  | some other =>
    by_cases here : k = j
    · subst here
      obtain rfl : index = other := Option.some.inj (views.indexed.symm.trans indexed)
      exact ⟨_, views.quiet, views.once, if_pos rfl, views.kept, ChildIndex.matches_read views.agrees parent, views.serves⟩
    · exact ⟨index, views.quiet, views.once, (if_neg here).trans views.indexed, views.kept, views.agrees, views.serves⟩

theorem Views.attend (views : Views b k index held) (time : Nat) (a : ViewAct κ α) :
    ∃ index' held', Views (b.attend time a) k index' held' ∧ Since k held (b.writes a) held' := by
  cases a with
  | act act =>
    obtain ⟨record, history, same⟩ := attend_act b time act
    have now : Views { b with now := time, history } k index held :=
      ⟨views.quiet, views.once, views.indexed, views.kept, views.agrees, views.serves⟩
    rw [same]
    exact now.writeAll record _
  | read j parent =>
    obtain ⟨index', later⟩ := views.read j parent
    exact ⟨index', held, later, Since.nothing k held⟩

theorem Views.attendAll (views : Views b k index held) (acts : List (Nat × ViewAct κ α)) :
    ∃ index' held', Views (b.attendAll acts) k index' held' ∧ Since k held (b.written acts) held' := by
  induction acts generalizing b index held with
  | nil => exact ⟨index, held, views, Since.nothing k held⟩
  | cons a acts ih =>
    obtain ⟨_, _, first, one⟩ := views.attend a.1 a.2
    obtain ⟨index', held', rest, more⟩ := ih first
    exact ⟨index', held', rest, one.trans more⟩

end

theorem views_start {b : Bench κ α} (quiet : b.Quiet) (k : κ) :
    Views ((b.indexChildren k).keepInstances k) k (.ofStore (b.store k)) (.ofStore (b.store k) 0) := by
  have observers : ∀ j, ((b.indexChildren k).keepInstances k).observers j =
      if j = k then ((b.observers k).filter (!isChildren ·) ++ [Observer.children]).filter (!isInstances ·) ++ [.instances]
      else b.observers j := by
    intro j
    by_cases here : j = k
    · simp [indexChildren, keepInstances, setObservers, Bench.observers, assign, here]
    · simp [indexChildren, keepInstances, setObservers, Bench.observers, assign, here]
  have store : ((b.indexChildren k).keepInstances k).store k = b.store k := by
    simp [indexChildren, keepInstances, setObservers, Bench.store, assign]
  constructor
  · intro j o member c
    rw [observers] at member
    split at member
    · rename_i here
      rcases List.mem_append.mp member with old | new
      · rcases List.mem_append.mp (List.mem_of_mem_filter old) with older | new
        · exact quiet k o (List.mem_of_mem_filter older) c
        · rw [List.mem_singleton.mp new]
          rfl
      · rw [List.mem_singleton.mp new]
        rfl
    · exact quiet j o member c
  · rw [observers, if_pos rfl]
    have noChildren : (((b.observers k).filter (!isChildren ·)).filter (!isInstances ·)).countP isChildren = 0 := by
      apply List.countP_eq_zero.mpr
      intro o member
      simpa using (List.mem_filter.mp (List.mem_of_mem_filter member)).2
    have noInstances : (((b.observers k).filter (!isChildren ·) ++ [Observer.children]).filter (!isInstances ·)).countP isInstances = 0 := by
      apply List.countP_eq_zero.mpr
      intro o member
      simpa using (List.mem_filter.mp member).2
    constructor
    · rw [List.filter_append, List.countP_append, List.countP_append, noChildren]
      rfl
    · rw [List.countP_append, noInstances]
      rfl
  · simp [keepInstances, indexChildren, assign, setObservers, Bench.store]
  · simp [keepInstances, indexChildren, assign, setObservers, Bench.store]
  · rw [store]
    exact ChildIndex.matches_ofStore _
  · rw [store]
    exact Instances.serves_ofStore _ 0

-- Derived views never drift from the store: whatever was done and read, the children of a parent are the entries
-- that name it, in order, and there is one instance for each entry, the same one until the entry is erased.
theorem views_never_drift (b : Bench κ α) (quiet : b.Quiet) (k : κ) (acts : List (Nat × ViewAct κ α)) :
    let now := ((b.indexChildren k).keepInstances k).attendAll acts
    (∀ parent, let listing := (now.readChildren k parent).1
      (∀ id, id ∈ listing.items ↔ ∃ r, (now.store k).get? id = some r ∧ (Placed.parent r).getD "" = parent) ∧
        listing.items.Nodup ∧
        listing.items.Pairwise (fun x y => ∃ r q, (now.store k).get? x = some r ∧ (now.store k).get? y = some q ∧
          (Store.orderKey r < Store.orderKey q ∨ Store.orderKey r = Store.orderKey q ∧ x < y)) ∧
        ∀ id n, listing.indexOf? id = some n ↔ listing.items[n]? = some id) ∧
      ∃ held, now.instances k = some held ∧ (held.live.map Prod.fst).Nodup ∧ (held.live.map Prod.snd).Nodup ∧
        (∀ id, (held.get? id).isSome = ((now.store k).get? id).isSome) ∧
        ∀ id serial, held.get? id = some serial → ∀ later other,
          (now.attendAll later).serial? k other = some serial ↔ other = id ∧ ⟨k, id, none⟩ ∉ now.written later := by
  intro now
  obtain ⟨index, held, views, -⟩ := (views_start quiet k).attendAll acts
  have listings : ∀ parent, (now.readChildren k parent).1 = .ofItems ((now.store k).children parent) := by
    intro parent
    simp only [readChildren, views.indexed, now]
    exact ChildIndex.read_listing views.agrees parent
  refine ⟨?_, held, views.kept, views.serves.apart.ids, views.serves.apart.serials, views.serves.live, ?_⟩
  · intro parent
    rw [listings]
    exact ⟨fun id => Store.mem_children, Store.nodup_children _ parent, Store.children_ascending _ parent,
      ChildList.indexOf?_ofItems (Store.nodup_children _ parent)⟩
  · intro id serial live later other
    obtain ⟨_, after, follows, since⟩ := views.attendAll later
    rw [serial?, follows.kept, Option.bind_some, since.still other serial (views.serves.apart.serial_le live)]
    constructor
    · intro lasts
      obtain ⟨same, unerased⟩ := lasts
      obtain rfl := views.serves.apart.id_unique same live
      exact ⟨rfl, unerased⟩
    · intro lasts
      obtain ⟨same, unerased⟩ := lasts
      rw [same]
      exact ⟨live, unerased⟩

def sibling (order : Option String) (parent : String) : Record := { parent := some parent, order, origin := .file ⟨[]⟩ }

-- Two parents, the first with three children. One child has no key.
def siblings : Bench Bool Record :=
  { stores := fun _ =>
      { store := ((((Store.empty.set "r" { origin := .file ⟨[]⟩ }).set "s" { origin := .file ⟨[]⟩ }).set "a" (sibling (some "B") "r")).set
          "b" (sibling none "r")).set "c" (sibling (some "K") "r")
        observers := [.history] } }

-- Between reads the first child gets a key beyond the others, the last goes to the other parent, and the second is renewed.
def shufflingActs : List (Nat × ViewAct Bool Record) :=
  [(0, .read true "r"), (1, .act (.set true "a" (sibling (some "Z") "r"))), (2, .read true "r"),
    (3, .act (.set true "c" (sibling (some "K") "s"))), (4, .read true "s"), (5, .act (.delete true "b")), (6, .read true "r"),
    (7, .act (.set true "b" (sibling none "r")))]

def renewingActs : List (Nat × ViewAct Bool Record) :=
  [(8, .read true "r"), (9, .act (.delete true "a")), (10, .read true "r"), (11, .act (.set true "a" (sibling (some "Z") "r")))]

abbrev shuffled : Bench Bool Record := ((siblings.indexChildren true).keepInstances true).attendAll shufflingActs

theorem siblings_quiet : siblings.Quiet := by
  intro k o member c
  obtain rfl : o = .history := by simpa [siblings, observers] using member
  rfl

theorem get?_shuffled (id : String) : (shuffled.store true).get? id =
    if id = "b" then some (sibling none "r") else if id = "c" then some (sibling (some "K") "s")
    else if id = "a" then some (sibling (some "Z") "r") else if id = "s" ∨ id = "r" then some { origin := .file ⟨[]⟩ } else none := by
  have contents := attendAll_contents (views_start siblings_quiet true).quiet shufflingActs
  have writes : ((siblings.indexChildren true).keepInstances true).written shufflingActs =
      [⟨true, "a", some (sibling (some "Z") "r")⟩, ⟨true, "c", some (sibling (some "K") "s")⟩, ⟨true, "b", none⟩,
        ⟨true, "b", some (sibling none "r")⟩] := rfl
  have before : ((siblings.indexChildren true).keepInstances true).contents true id = (siblings.store true).get? id := rfl
  have now := congrFun (congrFun contents true) id
  rw [writes] at now
  simp only [Contents.replay, List.foldl, Contents.apply, Contents.put, before] at now
  refine now.trans ?_
  simp only [siblings, store, Store.get?_set]
  have none_ : (Store.empty : Store Record).get? id = none := rfl
  grind

theorem parent_shuffled (id parent : String) : (∃ r, (shuffled.store true).get? id = some r ∧ (Placed.parent r).getD "" = parent) ↔
    (id = "a" ∨ id = "b") ∧ "r" = parent ∨ id = "c" ∧ "s" = parent ∨ (id = "r" ∨ id = "s") ∧ "" = parent := by
  have named : ∀ order parent', Placed.parent (sibling order parent') = some parent' := fun _ _ => rfl
  have top : Placed.parent ({ origin := .file ⟨[]⟩ } : Record) = none := rfl
  simp only [get?_shuffled]
  by_cases b : id = "b"
  · simp [b, named]
  by_cases c : id = "c"
  · simp [c, named]
  by_cases a : id = "a"
  · simp [a, named]
  by_cases r : id = "s" ∨ id = "r"
  · simp [a, b, c, r, r.symm, top]
  · simp [a, b, c, not_or.mp r]

theorem views_never_drift_renewed :
    siblings.Quiet ∧ (shuffled.readChildren true "r").1.items = ["b", "a"] ∧ (shuffled.readChildren true "s").1.items = ["c"] ∧
      (shuffled.readChildren true "r").1.indexOf? "a" = some 1 ∧
      ∃ kept erased, shuffled.serial? true "b" = some kept ∧ shuffled.serial? true "a" = some erased ∧
        (shuffled.attendAll renewingActs).serial? true "b" = some kept ∧ (shuffled.attendAll renewingActs).serial? true "a" ≠ some erased := by
  obtain ⟨listings, held, keeps, -, -, live, lasting⟩ := views_never_drift siblings siblings_quiet true shufflingActs
  have first : (shuffled.readChildren true "r").1.items = ["b", "a"] := by
    obtain ⟨members, -, ascending, -⟩ := listings "r"
    refine Store.eq_of_ascending ascending (List.pairwise_pair.mpr ?_) fun id => (members id).trans ((parent_shuffled id "r").trans ?_)
    · exact ⟨_, _, get?_shuffled "b", get?_shuffled "a", .inl (by decide)⟩
    · simp [or_comm]
  have second : (shuffled.readChildren true "s").1.items = ["c"] := by
    obtain ⟨members, -, ascending, -⟩ := listings "s"
    refine Store.eq_of_ascending ascending (List.pairwise_singleton ..) fun id => (members id).trans ((parent_shuffled id "s").trans ?_)
    simp
  have writes : shuffled.written renewingActs = [⟨true, "a", none⟩, ⟨true, "a", some (sibling (some "Z") "r")⟩] := rfl
  obtain ⟨kept, keptB⟩ := Option.isSome_iff_exists.mp ((live "b").trans (by rw [get?_shuffled]; rfl))
  obtain ⟨erased, heldA⟩ := Option.isSome_iff_exists.mp ((live "a").trans (by rw [get?_shuffled]; rfl))
  have serials : ∀ id, shuffled.serial? true id = held.get? id := fun id => by rw [serial?, keeps, Option.bind_some]
  refine ⟨siblings_quiet, first, second, ?_, kept, erased, (serials "b").trans keptB, (serials "a").trans heldA, ?_, fun same => ?_⟩
  · exact ((listings "r").2.2.2 "a" 1).mpr (congrArg (·[1]?) first)
  · refine (lasting "b" kept keptB renewingActs "b").mpr ⟨rfl, ?_⟩
    rw [writes]
    simp
  · have unerased := ((lasting "a" erased heldA renewingActs "a").mp same).2
    exact unerased List.mem_cons_self

end Bench

end MarkupEditor
