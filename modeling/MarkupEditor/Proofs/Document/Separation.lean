import MarkupEditor.Proofs.Document.Histories

namespace MarkupEditor

namespace File

theorem generation_of_nodeId {path path' : String} {generation generation' count count' : Nat}
    (same : nodeId path generation count = nodeId path' generation' count') : generation = generation' := by
  have digits : ∀ generation count : Nat,
      (Text.digits generation ++ '-' :: Text.digits count).takeWhile Char.isDigit = Text.digits generation := by
    intro generation count
    rw [List.takeWhile_append_of_pos (Text.digits_isDigit generation), List.takeWhile_cons_of_neg (by decide), List.append_nil]
  have rest : Text.digits generation ++ '-' :: Text.digits count = Text.digits generation' ++ '-' :: Text.digits count' := by
    have lists := congrArg String.toList same
    simpa [nodeId, seed_of_nodeId same, Text.decimal] using lists
  have shared := congrArg (List.takeWhile Char.isDigit) rest
  rw [digits, digits] at shared
  rw [← Text.ofDigits_digits generation, shared, Text.ofDigits_digits]

end File

namespace Rebuild

theorem entries_eq (classAttribute : String) (ts : List (Tree Record)) : entries classAttribute ts = ts.filterMap (entry classAttribute) := by
  induction ts with
  | nil => rfl
  | cons t ts ih =>
    rw [entries, List.filterMap_cons, ih]
    cases entry classAttribute t <;> rfl

def formedChildren (s : Store Record) (id : String) : List (String × String) :=
  (s.keyedChildren id).filter fun e => (s.get? e.2).any (!·.isFile)

theorem mem_formedChildren {s : Store Record} {id : String} (named : id ≠ Store.rootsId) {e : String × String} : e ∈ formedChildren s id ↔
    ∃ r, s.get? e.2 = some r ∧ r.parent = some id ∧ Store.orderKey r = e.1 ∧ r.isFile = false := by
  rw [formedChildren, List.mem_filter, Store.mem_keyedChildren]
  constructor
  · rintro ⟨⟨r, found, under, key⟩, formed⟩
    exact ⟨r, found, Store.parent_of_parentId under named, key, by simpa [found] using formed⟩
  · rintro ⟨r, found, parent, key, formed⟩
    exact ⟨⟨r, found, by simp [Store.parentId, Placed.parent, parent], key⟩, by simpa [found] using formed⟩

theorem entries_trees {s : Store Record} (wooded : Store.Wooded s.get?) (classAttribute id : String) :
    entries classAttribute (s.trees id) =
      (formedChildren s id).filterMap fun e => (s.get? e.2).bind fun r => entry classAttribute (.mk e.2 r (s.trees e.2)) := by
  rw [entries_eq, Store.trees_eq wooded, Store.children, List.filterMap_map, List.filterMap_filterMap, formedChildren, List.filterMap_filter]
  apply List.filterMap_congr
  intro e _
  cases found : s.get? e.2 with
  | none => simp [found]
  | some r =>
    cases node : r.node? with
    | none => simp [found, entry, Record.isFile, node]
    | some n => simp [found, Record.isFile, node]

theorem entries_congr {s s' : Store Record} (wooded : Store.Wooded s.get?) (wooded' : Store.Wooded s'.get?) (classAttribute : String)
    (outside : String → Prop) (kept : ∀ id r, outside id → s.get? id = some r → s'.get? id = some r)
    (closed : ∀ child r parent, s.get? child = some r → r.parent = some parent → outside parent → r.isFile = true ∨ outside child)
    (closed' : ∀ child r parent, s'.get? child = some r → r.parent = some parent → outside parent → r.isFile = true ∨ s.get? child = some r)
    {id : String} (here : outside id) (named : id ≠ Store.rootsId) : entries classAttribute (s'.trees id) = entries classAttribute (s.trees id) := by
  induction id using (Store.wellFounded_children wooded).induction with
  | _ id ih =>
    have stays : ∀ {child : String} {r : Record}, s.get? child = some r → r.parent = some id → r.isFile = false →
        outside child ∧ s'.get? child = some r := by
      intro child r found parent formed
      have away := (closed child r id found parent here).resolve_left (by simp [formed])
      exact ⟨away, kept child r away found⟩
    have same : formedChildren s' id = formedChildren s id := by
      have sorted : ∀ s : Store Record, (formedChildren s id).Pairwise fun a b => Store.precedes a b = true :=
        fun s => (Store.sorted_keyedChildren s id).filter _
      have nodup : ∀ s : Store Record, (formedChildren s id).Nodup := fun s => (Store.nodup_keyedChildren s id).filter _
      apply Store.eq_of_sorted (sorted s') (sorted s) (nodup s') (nodup s)
      intro e
      rw [mem_formedChildren named, mem_formedChildren named]
      constructor
      · rintro ⟨r, found, parent, key, formed⟩
        exact ⟨r, (closed' e.2 r id found parent here).resolve_left (by simp [formed]), parent, key, formed⟩
      · rintro ⟨r, found, parent, key, formed⟩
        exact ⟨r, (stays found parent formed).2, parent, key, formed⟩
    rw [entries_trees wooded', entries_trees wooded, same]
    apply List.filterMap_congr
    intro e member
    obtain ⟨r, found, parent, _, formed⟩ := (mem_formedChildren named).mp member
    obtain ⟨away, found'⟩ := stays found parent formed
    have below := ih e.2 ⟨r, found, parent⟩ away (wooded.named found)
    simp only [found, found', Option.bind_some, entry, below]

end Rebuild

def Inside (path : String) (get : String → Option Record) (id : String) : Prop := Relation.ReflTransGen (Store.Names get) (File.rootId path) id

theorem Inside.root {path id : String} {get : String → Option Record} {r : Record} (inside : Inside path get id) (wooded : Store.Wooded get)
    (found : get id = some r) : ∃ q, get (File.rootId path) = some q := by
  rcases Relation.ReflTransGen.cases_head inside with rfl | ⟨_, names, _⟩
  · exact ⟨r, found⟩
  · exact (wooded.above names).live

-- Entries with the root of a file as their id are roots, and the file is open.
def Filed (files : List File) (get : String → Option Record) : Prop :=
  ∀ path r, get (File.rootId path) = some r → r.isFile = true ∧ (File.find? files path).isSome = true

-- New entries take the place of what stood inside a file: a root and nodes that stand under other new entries.
structure Renewed (path : String) (generation : Nat) (get : String → Option Record) (new : List (String × Record))
    (get' : String → Option Record) : Prop where
  rest : ∀ id r, get' id = some r ↔ (id, r) ∈ new ∨ id ∉ new.map Prod.fst ∧ get id = some r ∧ ¬ Inside path get id
  nodes : ∀ id r, (id, r) ∈ new → id = File.rootId path ∧ r.isFile = true ∨
    (∃ count, id = File.nodeId path generation count) ∧ ∃ parent ∈ new.map Prod.fst, r.parent = some parent

namespace Renewed

variable {path : String} {generation : Nat} {get get' : String → Option Record} {new : List (String × Record)}

theorem id_of_mem (renewed : Renewed path generation get new get') {id : String} (listed : id ∈ new.map Prod.fst) :
    id = File.rootId path ∨ ∃ count, id = File.nodeId path generation count := by
  obtain ⟨e, member, rfl⟩ := List.mem_map.mp listed
  exact (renewed.nodes e.1 e.2 member).imp And.left And.left

-- As long as the new nodes take no ids that are in use, whatever stood outside stays.
variable (free : ∀ id r, get id = some r → id ∈ new.map Prod.fst → id = File.rootId path)

include free

theorem kept (renewed : Renewed path generation get new get') {id : String} {r : Record} (found : get id = some r)
    (outside : ¬ Inside path get id) : id ∉ new.map Prod.fst ∧ get' id = some r := by
  have absent : id ∉ new.map Prod.fst := by
    intro listed
    obtain rfl := free id r found listed
    exact outside .refl
  exact ⟨absent, (renewed.rest id r).mpr (.inr ⟨absent, found, outside⟩)⟩

theorem inside_before (renewed : Renewed path generation get new get') (wooded : Store.Wooded get) {id : String} {r : Record}
    (found : get id = some r) (inside : Inside path get' id) : Inside path get id := by
  have made : ∀ {id : String} {r : Record}, get id = some r → id = File.rootId path ∨ id ∈ new.map Prod.fst → id = File.rootId path :=
    fun held either => either.elim (fun root => root) (free _ _ held)
  have new_of_inside : ∀ {id : String}, Inside path get' id → id = File.rootId path ∨ id ∈ new.map Prod.fst := by
    intro id inside
    induction inside with
    | refl => exact .inl rfl
    | @tail parent id _ names ih =>
      obtain ⟨q, held, named⟩ := names
      rcases (renewed.rest id q).mp held with member | ⟨_, before, outside⟩
      · exact .inr (List.mem_map_of_mem member)
      · obtain ⟨p, live⟩ := (wooded.above ⟨q, before, named⟩).live
        obtain rfl := made live ih
        exact absurd (.tail .refl ⟨q, before, named⟩) outside
  obtain rfl := made found (new_of_inside inside)
  exact .refl

omit free

-- A root of a file may stand outside, but it has no form.
theorem forms_kept {s s' : Store Record} (renewed : Renewed path generation s.get? new s'.get?)
    (free : ∀ id r, s.get? id = some r → id ∈ new.map Prod.fst → id = File.rootId path) (wooded : Store.Wooded s.get?) (wooded' : Store.Wooded s'.get?)
    (root : ∀ r, s.get? (File.rootId path) = some r → r.isFile = true) (classAttribute : String) {other : String} (differs : other ≠ path)
    (outside : ¬ Inside path s.get? (File.rootId other)) :
    Rebuild.entries classAttribute (s'.trees (File.rootId other)) = Rebuild.entries classAttribute (s.trees (File.rootId other)) := by
  have unlisted : File.rootId other ∉ new.map Prod.fst := by
    intro listed
    rcases renewed.id_of_mem listed with same | ⟨count, same⟩
    · exact differs (File.rootId_injective same)
    · exact File.nodeId_ne_rootId path other generation count same.symm
  refine Rebuild.entries_congr wooded wooded' classAttribute (fun id => ¬ Inside path s.get? id ∧ id ∉ new.map Prod.fst) ?_ ?_ ?_
    ⟨outside, unlisted⟩ (File.rootId_ne_empty other)
  · exact fun id r away found => (renewed.kept free found away.1).2
  · intro child r parent found named away
    by_cases here : child = File.rootId path
    · exact .inl (root r (here ▸ found))
    · have apart : ¬ Inside path s.get? child := by
        intro inside
        rcases Relation.ReflTransGen.cases_tail inside with same | ⟨parent', above, q, held, named'⟩
        · exact here same
        · obtain rfl := Option.some.inj (found.symm.trans held)
          obtain rfl := Option.some.inj (named.symm.trans named')
          exact away.1 above
      exact .inr ⟨apart, (renewed.kept free found apart).1⟩
  · intro child r parent found named away
    rcases (renewed.rest child r).mp found with member | ⟨_, before, _⟩
    · rcases renewed.nodes child r member with ⟨_, isFile⟩ | ⟨_, parent', listed, named'⟩
      · exact .inl isFile
      · obtain rfl := Option.some.inj (named.symm.trans named')
        exact absurd listed away.2
    · exact .inr before

end Renewed

namespace Document

variable {d d' : Document} {a : Act} {path : String} {tree : SourceTree} {generation : Nat} {classAttribute : String}

theorem renewed_build {get : String → Option Record}
    (rest : ∀ id r, id ≠ File.rootId path → (d.store.get? id = some r ↔ get id = some r ∧ ¬ Inside path get id)) :
    Renewed path generation get (d.fileTree path tree generation).pairs (d.build path tree generation).store.get? := by
  refine ⟨fun id r => (d.build_contents path tree generation id r).trans (or_congr_right (and_congr_right fun absent => ?_)), fun id r member => ?_⟩
  · apply rest id r
    rintro rfl
    exact absent List.mem_cons_self
  · exact (mem_fileTree member).imp_left fun ⟨same, root⟩ => ⟨same, root ▸ rfl⟩

theorem inside_iff (wooded : Store.Wooded d.store.get?) {id : String} :
    Inside path d.store.get? id ↔ id = File.rootId path ∨ d.store.Below (File.rootId path) id := by
  rw [Inside, Relation.reflTransGen_iff_eq_or_transGen, Store.below_iff wooded (File.rootId_ne_empty path)]

theorem turns_renewed (standing : d.Standing) (filed : Filed d.files d.store.get?) (turns : Turns d a d') (here : a.file? = some path) :
    ∃ new, Renewed path (d.nextGeneration path) d.store.get? new d'.store.get? ∧ (a = .close path → new = []) := by
  have wooded := standing.planted.toWooded
  cases turns with
  | @opened path' tree absent =>
    obtain rfl : path' = path := Option.some.inj here
    refine ⟨(d.fileTree path' tree 0).pairs, ?_, fun closes => by cases closes⟩
    rw [nextGeneration, absent]
    refine renewed_build fun id r _ => (and_iff_left_of_imp fun found inside => ?_).symm
    obtain ⟨q, root⟩ := inside.root wooded found
    have opened : (d.file? path').isSome = true := (filed path' q root).2
    rw [absent] at opened
    cases opened
  | @reread path' tree f _ _ reads found viewed =>
    obtain rfl : path' = path := by rcases reads with rfl | rfl <;> exact Option.some.inj here
    refine ⟨((d.emptied path').fileTree path' tree (f.generation + 1)).pairs, ?_,
      fun closes => by rcases reads with rfl | rfl <;> cases closes⟩
    rw [nextGeneration, found, viewed.store]
    refine renewed_build fun id r other => ?_
    rw [inside_iff wooded, or_iff_right other]
    exact d.emptied_get? path' id r
  | @closed path' _ done =>
    obtain rfl : path' = path := Option.some.inj here
    refine ⟨[], ⟨fun id r => ?_, fun _ _ member => by cases member⟩, fun _ => rfl⟩
    rw [inside_iff wooded, (close_frame done).2.2.2.2 id r]
    simp

theorem filed_turns (standing : d.Standing) (filed : Filed d.files d.store.get?) (turns : Turns d a d') (here : a.file? = some path) :
    Filed d'.files d'.store.get? := by
  obtain ⟨new, renewed, closes⟩ := turns_renewed standing filed turns here
  intro other r found
  rcases (renewed.rest _ r).mp found with member | ⟨_, before, outside⟩
  · rcases renewed.nodes _ r member with ⟨same, isFile⟩ | ⟨⟨count, same⟩, _⟩
    · obtain rfl := File.rootId_injective same
      refine ⟨isFile, ?_⟩
      rcases turns.file?_self here with ⟨closing, _⟩ | ⟨_, f, opened, _⟩
      · rw [closes closing] at member
        cases member
      · exact Option.isSome_iff_exists.mpr ⟨f, opened⟩
    · exact absurd same.symm (File.nodeId_ne_rootId _ _ _ _)
  · obtain ⟨isFile, opened⟩ := filed other r before
    have differs : other ≠ path := by
      rintro rfl
      exact outside .refl
    have same : File.find? d'.files other = File.find? d.files other := turns.file?_other here differs
    exact ⟨isFile, same ▸ opened⟩

theorem Filed.stems {files : List File} {get get' : String → Option Record} (filed : Filed files get) (stems : Stems get get') : Filed files get' := by
  intro path r' found
  obtain ⟨r, held, origin⟩ := stems _ r' found
  rw [Record.isFile, Record.node?_eq origin]
  exact filed path r held

theorem filed_of_ran {allowed : Document → Act → Prop} (ran : d.Ran allowed classAttribute) : Filed d.files d.store.get? :=
  (ran.follows (P := Filed) nofun (fun standing follows edits _ => follows.stems standing edits Filed.stems)
    fun standing filed _ here turns => filed_turns standing filed turns here).present

-- No id of a file is left, and no open file has ids of the same seed.
def Untaken (d : Document) (path : String) : Prop :=
  (∀ f ∈ d.files, File.seed f.path ≠ File.seed path) ∧ ∀ generation count, d.store.get? (File.nodeId path generation count) = none

-- A file that is opened has all its ids to itself.
def OpensFresh (d : Document) (a : Act) : Prop := ∀ path tree, a = .load path tree → d.isLoaded path = false → d.Untaken path

-- No entry of an open file is newer than the file, and open files have different seeds. So the ids that a file gets
-- when it is read again are in use nowhere.
structure Dated (files : List File) (get : String → Option Record) : Prop where
  dated : ∀ path f, File.find? files path = some f → ∀ generation count r, get (File.nodeId path generation count) = some r →
    generation ≤ f.generation
  differ : ∀ path f path' f', File.find? files path = some f → File.find? files path' = some f' → File.seed path = File.seed path' → path = path'

theorem Dated.stems {files : List File} {get get' : String → Option Record} (dated : Dated files get) (stems : Stems get get') :
    Dated files get' := by
  refine ⟨fun path f opened generation count r' found => ?_, dated.differ⟩
  obtain ⟨r, held, _⟩ := stems _ r' found
  exact dated.dated path f opened generation count r held

theorem Dated.older (dated : Dated d.files d.store.get?) (opens : d.OpensFresh a) (turns : Turns d a d') (here : a.file? = some path)
    (opening : ∀ path, a ≠ .close path) :
    (∀ generation count r, d.store.get? (File.nodeId path generation count) = some r → generation < d.nextGeneration path) ∧
      ∀ other f, d.file? other = some f → File.seed other = File.seed path → other = path := by
  cases turns with
  | @opened path' tree absent =>
    obtain rfl : path' = path := Option.some.inj here
    obtain ⟨apart, unused⟩ := opens path' tree rfl (by rw [isLoaded, absent]; rfl)
    constructor
    · intro generation count r found
      cases (unused generation count).symm.trans found
    · intro other f held same
      have own : f.path = other := by simpa using List.find?_some held
      exact absurd (own ▸ same) (apart f (List.mem_of_find?_eq_some held))
  | @reread path' tree f _ _ reads found viewed =>
    obtain rfl : path' = path := by rcases reads with rfl | rfl <;> exact Option.some.inj here
    rw [nextGeneration, found]
    exact ⟨fun generation count r held => Nat.lt_succ_of_le (dated.dated path' f found generation count r held),
      fun other g held same => dated.differ other g path' f held found same⟩
  | @closed path' _ done => exact absurd rfl (opening path')

theorem dated_turns (standing : d.Standing) (filed : Filed d.files d.store.get?) (dated : Dated d.files d.store.get?) (opens : d.OpensFresh a)
    (turns : Turns d a d') (here : a.file? = some path) : Dated d'.files d'.store.get? := by
  obtain ⟨new, renewed, closes⟩ := turns_renewed standing filed turns here
  have elsewhere : ∀ {other f}, File.find? d'.files other = some f → other ≠ path → d.file? other = some f := fun opened differs =>
    (turns.file?_other here differs).symm.trans opened
  -- An id of another file is not new.
  have old : ∀ {other f generation count r}, File.find? d'.files other = some f → other ≠ path →
      d'.store.get? (File.nodeId other generation count) = some r → d.store.get? (File.nodeId other generation count) = some r := by
    intro other f generation count r opened differs found
    rcases (renewed.rest _ r).mp found with member | ⟨_, before, _⟩
    · rcases renewed.nodes _ r member with ⟨same, _⟩ | ⟨⟨count', same⟩, _⟩
      · exact absurd same (File.nodeId_ne_rootId _ _ _ _)
      · have opening : ∀ path, a ≠ .close path := by
          intro path' closing
          obtain rfl : path' = path := by simpa [closing, Act.file?] using here
          rw [closes closing] at member
          cases member
        exact absurd ((dated.older opens turns here opening).2 other f (elsewhere opened differs) (File.seed_of_nodeId same)) differs
    · exact before
  rcases turns.file?_self here with ⟨closing, closed⟩ | ⟨opening, f, opened, next⟩
  · have differs : ∀ {other g}, File.find? d'.files other = some g → other ≠ path := by
      rintro other g found rfl
      cases closed.symm.trans found
    refine ⟨fun other g found generation count r held => ?_, fun one g two g' first second same => ?_⟩
    · exact dated.dated other g (elsewhere found (differs found)) generation count r (old found (differs found) held)
    · exact dated.differ one g two g' (elsewhere first (differs first)) (elsewhere second (differs second)) same
  · obtain ⟨older, apart⟩ := dated.older opens turns here opening
    refine ⟨fun other g found generation count r held => ?_, fun one g two g' first second same => ?_⟩
    · by_cases own : other = path
      · subst own
        obtain rfl := Option.some.inj (opened.symm.trans found)
        rw [next]
        rcases (renewed.rest _ r).mp held with member | ⟨_, before, _⟩
        · rcases renewed.nodes _ r member with ⟨same, _⟩ | ⟨⟨count', same⟩, _⟩
          · exact absurd same (File.nodeId_ne_rootId _ _ _ _)
          · exact Nat.le_of_eq (File.generation_of_nodeId same)
        · exact Nat.le_of_lt (older generation count r before)
      · exact dated.dated other g (elsewhere found own) generation count r (old found own held)
    · by_cases own : one = path
      · by_cases own' : two = path
        · exact own.trans own'.symm
        · exact own ▸ (apart two g' (elsewhere second own') (own ▸ same.symm)).symm
      · by_cases own' : two = path
        · exact own' ▸ apart one g (elsewhere first own) (own' ▸ same)
        · exact dated.differ one g two g' (elsewhere first own) (elsewhere second own') same

theorem dated_of_ran (ran : d.Ran OpensFresh classAttribute) : Dated d.files d.store.get? := by
  refine (ran.follows (P := fun files get => Filed files get ∧ Dated files get) ⟨nofun, nofun, nofun⟩ ?_ ?_).present.2
  · intro d a standing follows edits _
    exact Follows.stems (P := fun get => Filed d.files get ∧ Dated d.files get) follows standing edits fun both stems =>
      ⟨Filed.stems both.1 stems, Dated.stems both.2 stems⟩
  · exact fun standing both opens here turns =>
      ⟨filed_turns standing both.1 turns here, dated_turns standing both.1 both.2 opens turns here⟩

-- Turning to a file leaves all entries alone that are neither its root nor below it, and with them the forms of the other
-- files, and gives the new entries ids that nothing outside has: always when it is closed, and when it is opened or read again
-- as long as every file that was opened had its ids to itself.
theorem files_do_not_interfere {allowed : Document → Act → Prop} (ran : d.Ran allowed classAttribute) (now : Nat) (here : a.file? = some path)
    (apart : a = .close path ∨ d.Ran OpensFresh classAttribute ∧ d.OpensFresh a) :
    let after := a.apply { d with now }
    (∀ id r, d.store.get? id = some r → ¬ Inside path d.store.get? id → after.store.get? id = some r) ∧
      (∀ other, other ≠ path → ¬ Inside path d.store.get? (File.rootId other) → after.modifiedTree other = d.modifiedTree other) ∧
      ∀ id r, d.store.get? id = some r → Inside path after.store.get? id → Inside path d.store.get? id := by
  intro after
  have standing := ran.standing.at_time now
  have filed := filed_of_ran ran
  rcases turns_apply { d with now } here with same | turns
  · have same : after = { d with now } := same
    rw [same]
    exact ⟨fun _ _ found _ => found, fun _ _ _ => rfl, fun _ _ _ inside => inside⟩
  · have classes : after.classAttribute = d.classAttribute := turns.classAttribute
    obtain ⟨new, renewed, closes⟩ := turns_renewed standing filed turns here
    -- A new id other than the root is in use nowhere: closing makes none, and otherwise the entries of the file are
    -- older.
    have free : ∀ id r, d.store.get? id = some r → id ∈ new.map Prod.fst → id = File.rootId path := by
      intro id r found listed
      refine (renewed.id_of_mem listed).resolve_right ?_
      rintro ⟨count, rfl⟩
      rcases apart with closing | ⟨ran, opens⟩
      · rw [closes closing] at listed
        cases listed
      · have opening : ∀ path, a ≠ .close path := by
          intro path' closing
          obtain rfl : path' = path := by simpa [closing, Act.file?] using here
          rw [closes closing] at listed
          cases listed
        have dated : Dated d.files d.store.get? := dated_of_ran ran
        exact lt_irrefl _ ((Dated.older (d := { d with now }) dated opens turns here opening).1 _ count r found)
    refine ⟨fun id r found outside => (renewed.kept free found outside).2, fun other differs outside => ?_,
      fun id r found => renewed.inside_before free standing.planted.toWooded found⟩
    have wooded' : Store.Wooded after.store.get? := (standing.apply a).planted.toWooded
    have forms : Rebuild.entries d.classAttribute (after.store.trees (File.rootId other)) =
        Rebuild.entries d.classAttribute (d.store.trees (File.rootId other)) :=
      renewed.forms_kept free standing.planted.toWooded wooded' (fun r held => (filed path r held).1) d.classAttribute differs outside
    have source : after.file? other = d.file? other := turns.file?_other here differs
    unfold modifiedTree Rebuild.file
    rw [source, classes, forms]

def lendingActs (a b : SourceTree) : List (Nat × Act) :=
  [(0, .load "a.jsx" a), (1, .load "b.jsx" b), (2, .append (File.nodeId "b.jsx" 0 2) [File.nodeId "a.jsx" 0 3])]

theorem files_do_not_interfere_lent :
    ∃ a b, parse "x = <p><b /></p>;" = .ok a ∧ parse "y = <div></div>;" = .ok b ∧
      let d := (new "className" 1000 100).perform (lendingActs a b)
      let after := (Act.reload "a.jsx" a).apply { d with now := 3 }
      (d.Ran OpensFresh "className" ∧ d.OpensFresh (.reload "a.jsx" a)) ∧ ¬ Inside "a.jsx" d.store.get? (File.nodeId "a.jsx" 0 3) ∧
        (∃ r, d.store.get? (File.nodeId "a.jsx" 0 3) = some r ∧ after.store.get? (File.nodeId "a.jsx" 0 3) = some r) ∧
        after.modifiedTree "b.jsx" = d.modifiedTree "b.jsx" := by
  have ran : ((parse "x = <p><b /></p>;").toOption.bind fun a => (parse "y = <div></div>;").toOption.map fun b =>
      let first := (new "className" 1000 100).perform [(0, .load "a.jsx" a)]
      let d := (new "className" 1000 100).perform (lendingActs a b)
      (first.files.map File.path, first.store.ids, (d.store.get? (File.nodeId "a.jsx" 0 3)).isSome,
        decide (d.store.Below (File.rootId "a.jsx") (File.nodeId "a.jsx" 0 3)), decide (d.store.Below (File.rootId "a.jsx") (File.rootId "b.jsx")))) =
      some (["a.jsx"], [File.rootId "a.jsx", File.nodeId "a.jsx" 0 1, File.nodeId "a.jsx" 0 2, File.nodeId "a.jsx" 0 3], true, false, false) := by
    decide +kernel
  simp only [Option.bind_eq_some_iff, Option.map_eq_some_iff, Prod.mk.injEq, decide_eq_false_iff_not] at ran
  obtain ⟨a, first, b, second, files, ids, live, lent, apart⟩ := ran
  have seeds : File.seed "b.jsx" ≠ File.seed "a.jsx" := by decide +kernel
  have one : ((new "className" 1000 100).perform [(0, .load "a.jsx" a)]).Ran OpensFresh "className" :=
    .act (a := .load "a.jsx" a) (.new 1000 100) 0 fun _ _ _ _ => ⟨nofun, fun _ _ => rfl⟩
  have two : ((new "className" 1000 100).perform [(0, .load "a.jsx" a), (1, .load "b.jsx" b)]).Ran OpensFresh "className" := by
    refine .act (a := .load "b.jsx" b) one 1 fun path tree same _ => ?_
    obtain ⟨rfl, _⟩ := Act.load.inj same
    constructor
    · intro f member alike
      have listed := List.mem_map_of_mem (f := File.path) member
      rw [files, List.mem_singleton] at listed
      exact seeds (listed ▸ alike.symm)
    · intro generation count
      apply Option.not_isSome_iff_eq_none.mp
      rw [Store.get?_isSome_iff, ids]
      simp only [List.mem_cons, List.not_mem_nil, or_false, not_or]
      exact ⟨File.nodeId_ne_rootId _ _ _ _, fun same => seeds (File.seed_of_nodeId same), fun same => seeds (File.seed_of_nodeId same),
        fun same => seeds (File.seed_of_nodeId same)⟩
  have three : ((new "className" 1000 100).perform (lendingActs a b)).Ran OpensFresh "className" :=
    .act (a := .append (File.nodeId "b.jsx" 0 2) [File.nodeId "a.jsx" 0 3]) two 2 nofun
  have opens : ((new "className" 1000 100).perform (lendingActs a b)).OpensFresh (.reload "a.jsx" a) := nofun
  have wooded := three.standing.planted.toWooded
  have away : ¬ Inside "a.jsx" ((new "className" 1000 100).perform (lendingActs a b)).store.get? (File.nodeId "a.jsx" 0 3) := by
    rw [inside_iff wooded]
    exact not_or.mpr ⟨File.nodeId_ne_rootId _ _ _ _, lent⟩
  have aside : ¬ Inside "a.jsx" ((new "className" 1000 100).perform (lendingActs a b)).store.get? (File.rootId "b.jsx") := by
    rw [inside_iff wooded]
    exact not_or.mpr ⟨by decide, apart⟩
  obtain ⟨r, found⟩ := Option.isSome_iff_exists.mp live
  obtain ⟨stays, forms, _⟩ := files_do_not_interfere three 3 (a := .reload "a.jsx" a) rfl (.inr ⟨three, opens⟩)
  exact ⟨a, b, eq_ok_of_toOption first, eq_ok_of_toOption second, ⟨three, opens⟩, away, ⟨r, found, stays _ r found away⟩,
    forms "b.jsx" (by decide) aside⟩

-- The first file is closed and opened again while the element stands in the second: the element's id is given out once more.
theorem reopening_takes_lent_id :
    ¬ ∀ (d : Document) (path : String) (tree : SourceTree) (id : String) (r : Record), d.Ran (fun _ _ => True) "className" →
      d.store.get? id = some r → ¬ Inside path d.store.get? id → ((Act.load path tree).apply d).store.get? id = some r := by
  intro stays
  have ran : ((parse "x = <p><b /></p>;").toOption.bind fun a => (parse "y = <div></div>;").toOption.map fun b =>
      let d := (new "className" 1000 100).perform (lendingActs a b ++ [(3, .close "a.jsx")])
      ((d.store.get? (File.nodeId "a.jsx" 0 3)).map Record.parent, decide (d.store.Below (File.rootId "a.jsx") (File.nodeId "a.jsx" 0 3)),
        ((((Act.load "a.jsx" a).apply d).store.get? (File.nodeId "a.jsx" 0 3)).map Record.parent))) =
      some (some (some (File.nodeId "b.jsx" 0 2)), false, some (some (File.nodeId "a.jsx" 0 2))) := by
    decide +kernel
  simp only [Option.bind_eq_some_iff, Option.map_eq_some_iff, Prod.mk.injEq, decide_eq_false_iff_not] at ran
  obtain ⟨a, _, b, _, ⟨r, found, here⟩, lent, ⟨r', taken, there⟩⟩ := ran
  have reached : ((new "className" 1000 100).perform (lendingActs a b ++ [(3, .close "a.jsx")])).Ran (fun _ _ => True) "className" :=
    (Ran.new 1000 100).perform fun _ _ _ => trivial
  have away : ¬ Inside "a.jsx" ((new "className" 1000 100).perform (lendingActs a b ++ [(3, .close "a.jsx")])).store.get? (File.nodeId "a.jsx" 0 3) := by
    rw [inside_iff reached.standing.planted.toWooded]
    exact not_or.mpr ⟨File.nodeId_ne_rootId _ _ _ _, lent⟩
  obtain rfl := Option.some.inj ((stays _ "a.jsx" a _ r reached found away).symm.trans taken)
  exact absurd (Option.some.inj (here.symm.trans there)) (by decide +kernel)

end Document

end MarkupEditor
