import Mathlib.Logic.Function.Basic
import MarkupEditor.Proofs.Text.Utf8
import MarkupEditor.Storage.FileTree

namespace MarkupEditor

inductive FileContent where
  | file (bytes : List UInt8)
  | directory

-- What stands below a node, by the names on the way. The order of entries does not show.
def FileNode.look : FileNode → List String → Option FileContent
  | .file bytes, [] => some (.file bytes)
  | .directory _, [] => some .directory
  | .file _, _ :: _ => none
  | .directory entries, name :: names =>
    match FileEntries.get? entries name with
    | none => none
    | some node => node.look names

namespace FileEntries

variable {entries entries' : FileEntries} {name other : String} {names : List String}

def look (entries : FileEntries) : List String → Option FileContent := (FileNode.directory entries).look

@[simp] theorem look_nil : entries.look [] = some .directory := rfl

theorem look_cons : entries.look (name :: names) = (entries.get? name).bind (·.look names) := by
  rw [look, FileNode.look]
  cases entries.get? name <;> rfl

theorem get?_put (node : FileNode) : (entries.put name node).get? other = if other = name then some node else entries.get? other := by
  rw [put, get?, List.find?_append]
  split
  · rename_i same
    subst same
    have absent : (entries.filter (·.1 != other)).find? (·.1 == other) = none := by
      rw [List.find?_filter]
      exact List.find?_eq_none.mpr fun e _ => by simp
    rw [absent]
    simp
  · rename_i differs
    have kept : (entries.filter (·.1 != name)).find? (·.1 == other) = entries.find? (·.1 == other) := by
      rw [List.find?_filter]
      congr 1
      funext e
      by_cases here : e.1 = other <;> simp [here, differs]
    have elsewhere : (name == other) = false := by simpa using Ne.symm differs
    rw [kept]
    simp [elsewhere, get?]

theorem look_put (node : FileNode) : (entries.put name node).look (other :: names) =
    if other = name then node.look names else entries.look (other :: names) := by
  rw [look_cons, get?_put, look_cons]
  split <;> rfl

theorem look_put_leaf {node : FileNode} {content : FileContent} (leaf : ∀ names, node.look names = if names = [] then some content else none)
    (free : entries.look [name] ≠ some .directory) :
    (entries.put name node).look = Function.update entries.look [name] (some content) := by
  funext way
  rw [Function.update_apply]
  cases way with
  | nil => rfl
  | cons other names =>
    rw [look_put]
    by_cases same : other = name
    · subst same
      have below : entries.look (other :: names) = none ∨ names = [] := by
        rw [look_cons] at free ⊢
        cases found : entries.get? other with
        | none => exact .inl rfl
        | some node =>
          cases node with
          | directory _ => exact absurd (by rw [found]; rfl) free
          | file bytes => cases names <;> simp [FileNode.look]
      rcases below with none_ | rfl
      · simp [leaf, none_]
      · simp [leaf]
    · simp [same]

end FileEntries

namespace FilePlace

variable {p : FilePlace} {name : String}

def way (p : FilePlace) : List String := (p.above.map Prod.fst).reverse

def look (p : FilePlace) : List String → Option FileContent := p.tree.entries.look

theorem closeFrom_look (entries : FileEntries) (above : List (String × FileEntries)) (names : List String) :
    (closeFrom entries above).look ((above.map Prod.fst).reverse ++ names) = entries.look names := by
  induction above generalizing entries names with
  | nil => rfl
  | cons first above ih =>
    rw [closeFrom, List.map_cons, List.reverse_cons, List.append_assoc, List.singleton_append, ih, FileEntries.look_put, if_pos rfl]
    rfl

theorem closeFrom_update {entries entries' : FileEntries} {names : List String} {content : Option FileContent}
    (changed : entries'.look = Function.update entries.look names content) (above : List (String × FileEntries)) :
    (closeFrom entries' above).look =
      Function.update (closeFrom entries above).look ((above.map Prod.fst).reverse ++ names) content := by
  induction above generalizing entries entries' names with
  | nil => exact changed
  | cons first above ih =>
    have put : (first.2.put first.1 (.directory entries')).look =
        Function.update (first.2.put first.1 (.directory entries)).look (first.1 :: names) content := by
      funext way
      rw [Function.update_apply]
      cases way with
      | nil => rfl
      | cons other rest =>
        rw [FileEntries.look_put, FileEntries.look_put]
        by_cases same : other = first.1
        · simp only [same, if_true, List.cons.injEq, true_and]
          exact (congrFun changed rest).trans (Function.update_apply ..)
        · simp [same]
    rw [closeFrom, ih put, List.map_cons, List.reverse_cons, List.append_assoc, List.singleton_append]
    rfl

theorem look_way (names : List String) : p.look (p.way ++ names) = p.entries.look names := closeFrom_look ..

theorem look_here : p.look p.way = some .directory := by
  rw [← List.append_nil p.way, look_way, FileEntries.look_nil]

theorem look_up : p.up.look = p.look := by
  unfold up
  split
  · rfl
  · rename_i eq
    rw [look, look, tree, tree, eq]
    rfl

theorem way_up : p.up.way = p.way.dropLast := by
  unfold up
  split <;> rename_i eq <;> simp [way, eq]

theorem way_down (entries : FileEntries) : (p.down name entries).way = p.way ++ [name] := by simp [down, way]

theorem look_down {entries : FileEntries} (found : p.entries.get? name = some (.directory entries)) :
    (p.down name entries).look = p.look := by
  have same : (p.entries.put name (.directory entries)).look = Function.update p.entries.look [name] (p.look (p.way ++ [name])) := by
    rw [look_way, Function.update_eq_self]
    funext way
    cases way with
    | nil => rfl
    | cons other names =>
      rw [FileEntries.look_put]
      split
      · rename_i same
        rw [same, FileEntries.look_cons, found]
        rfl
      · rfl
  have closed := closeFrom_update same p.above
  exact closed.trans (Function.update_eq_self (p.way ++ [name]) p.look)

theorem look_put (node : FileNode) {content : FileContent} (leaf : ∀ names, node.look names = if names = [] then some content else none)
    (free : p.look (p.way ++ [name]) ≠ some .directory) :
    look { p with entries := p.entries.put name node } = Function.update p.look (p.way ++ [name]) (some content) := by
  rw [look_way] at free
  exact closeFrom_update (FileEntries.look_put_leaf leaf free) p.above

end FilePlace

namespace FileTree

def look (t : FileTree) : List String → Option FileContent := t.entries.look

-- The place that names lead to, whether anything stands there or not.
def resolve (way : List String) : List String → List String
  | [] => way
  | name :: names => resolve (if stays name then way else if name = ".." then way.dropLast else way ++ [name]) names

def fileOf (path : String) : List String := resolve [] (names path)

-- Names lead on from a directory. Each of them, also one that stays or leads up, is looked for in a directory, and only the
-- last one may name a file.
inductive Leads (look : List String → Option FileContent) : List String → List String → List String → Prop
  | here (way : List String) : Leads look way [] way
  | stay {way target : List String} {name : String} {names : List String} (directory : look way = some .directory) (stays : stays name = true)
      (on : Leads look way names target) : Leads look way (name :: names) target
  | up {way target : List String} {names : List String} (directory : look way = some .directory) (on : Leads look way.dropLast names target) :
      Leads look way (".." :: names) target
  | down {way target : List String} {name : String} {names : List String} (directory : look way = some .directory) (moves : stays name = false)
      (forth : name ≠ "..") (short : isLongName name = false) (there : look (way ++ [name]) ≠ none)
      (on : Leads look (way ++ [name]) names target) : Leads look way (name :: names) target

section

variable {look look' : List String → Option FileContent} {way target : List String} {names : List String}

theorem Leads.resolve_eq (leads : Leads look way names target) : resolve way names = target := by
  induction leads with
  | here => rfl
  | stay _ stays _ ih => rw [resolve, if_pos stays, ih]
  | up _ _ ih => rw [resolve, if_neg (by decide), if_pos rfl, ih]
  | down _ moves forth _ _ _ ih => rw [resolve, if_neg (by simp [moves]), if_neg forth, ih]

theorem Leads.mono (leads : Leads look way names target) (directories : ∀ way, look way = some .directory → look' way = some .directory)
    (there : ∀ way, look way ≠ none → look' way ≠ none) : Leads look' way names target := by
  induction leads with
  | here way => exact .here way
  | stay directory stays _ ih => exact .stay (directories _ directory) stays ih
  | up directory _ ih => exact .up (directories _ directory) ih
  | down directory moves forth short found _ ih => exact .down (directories _ directory) moves forth short (there _ found) ih

theorem Leads.trans {onto : List String} {more : List String} (leads : Leads look way names target) (further : Leads look target more onto) :
    Leads look way (names ++ more) onto := by
  induction leads with
  | here => exact further
  | stay directory stays _ ih => exact .stay directory stays (ih further)
  | up directory _ ih => exact .up directory (ih further)
  | down directory moves forth short found _ ih => exact .down directory moves forth short found (ih further)

theorem update_directory {file : List String} {bytes : List UInt8} (free : look file ≠ some .directory)
    (directory : look way = some .directory) : Function.update look file (some (.file bytes)) way = some .directory := by
  rw [Function.update_of_ne, directory]
  rintro rfl
  exact free directory

theorem Leads.update {file : List String} {bytes : List UInt8} (leads : Leads look way names target) (free : look file ≠ some .directory) :
    Leads (Function.update look file (some (.file bytes))) way names target := by
  refine leads.mono (fun _ => update_directory free) fun way there => ?_
  rw [Function.update_apply]
  split
  · exact Option.some_ne_none _
  · exact there

theorem Leads.eq_of_file {bytes : List UInt8} (leads : Leads look way names target) (file : look way = some (.file bytes)) :
    names = [] ∧ target = way := by
  cases leads with
  | here => exact ⟨rfl, rfl⟩
  | stay directory | up directory | down directory =>
    rw [file] at directory
    cases directory

end

end FileTree

def FileSpot.At (look : List String → Option FileContent) (target : List String) : FileSpot → Prop
  | .file bytes => look target = some (.file bytes)
  | .directory place => place.way = target ∧ place.look = look

namespace FileTree

section

variable {p : FilePlace} {names : List String} {spot : FileSpot}

theorem content_of_entry {name : String} {node : FileNode} (found : p.entries.get? name = some node) :
    p.look (p.way ++ [name]) = node.look [] := by
  rw [FilePlace.look_way, FileEntries.look_cons, found]
  rfl

theorem leads_of_follow (found : follow (.directory p) names = .ok spot) : ∃ target, Leads p.look p.way names target ∧ spot.At p.look target := by
  induction names generalizing p with
  | nil =>
    obtain rfl := Except.ok.inj found
    exact ⟨p.way, .here _, rfl, rfl⟩
  | cons name names ih =>
    rw [follow] at found
    split at found
    · rename_i stays
      obtain ⟨target, leads, at_⟩ := ih found
      exact ⟨target, .stay FilePlace.look_here stays leads, at_⟩
    rename_i moves
    split at found
    · rename_i up
      obtain ⟨target, leads, at_⟩ := ih found
      rw [FilePlace.look_up, FilePlace.way_up] at leads
      rw [FilePlace.look_up] at at_
      subst up
      exact ⟨target, .up FilePlace.look_here leads, at_⟩
    rename_i forth
    split at found
    · cases found
    rename_i short
    have step : ∀ {target}, p.look (p.way ++ [name]) ≠ none → Leads p.look (p.way ++ [name]) names target → Leads p.look p.way (name :: names) target :=
      fun there leads => .down FilePlace.look_here (by simpa using moves) forth (by simpa using short) there leads
    split at found
    · cases found
    · rename_i entries entry
      have there := content_of_entry entry
      obtain ⟨target, leads, at_⟩ := ih found
      rw [FilePlace.look_down entry, FilePlace.way_down] at leads
      rw [FilePlace.look_down entry] at at_
      exact ⟨target, step (by rw [there]; exact Option.some_ne_none _) leads, at_⟩
    · rename_i bytes entry
      have there := content_of_entry entry
      cases names with
      | nil =>
        obtain rfl := Except.ok.inj found
        exact ⟨_, step (by rw [there]; exact Option.some_ne_none _) (.here _), there⟩
      | cons => cases found

theorem follow_of_leads {target : List String} (leads : Leads p.look p.way names target) :
    ∃ spot, follow (.directory p) names = .ok spot ∧ spot.At p.look target := by
  induction names generalizing p with
  | nil =>
    cases leads
    exact ⟨_, rfl, rfl, rfl⟩
  | cons name names ih =>
    rw [follow]
    cases leads with
    | stay _ stays on =>
      rw [if_pos stays]
      exact ih on
    | up _ on =>
      rw [if_neg (by decide), if_pos rfl]
      rw [← FilePlace.way_up, ← FilePlace.look_up] at on
      rw [← FilePlace.look_up]
      exact ih on
    | down _ moves forth short there on =>
      rw [if_neg (by simp [moves]), if_neg forth, if_neg (by simp [short])]
      cases entry : p.entries.get? name with
      | none =>
        rw [FilePlace.look_way, FileEntries.look_cons, entry] at there
        exact absurd rfl there
      | some node =>
        have content := content_of_entry entry
        cases node with
        | directory entries =>
          rw [← FilePlace.way_down entries, ← FilePlace.look_down entry] at on
          rw [← FilePlace.look_down entry]
          exact ih on
        | file bytes =>
          obtain ⟨rfl, rfl⟩ := on.eq_of_file content
          exact ⟨_, rfl, content⟩

theorem resolve_append (way names more : List String) : resolve way (names ++ more) = resolve (resolve way names) more := by
  induction names generalizing way with
  | nil => rfl
  | cons name names ih => exact ih _

theorem top_look (t : FileTree) : t.top.look = t.look := rfl

-- Only directories were added.
def Grown (look look' : List String → Option FileContent) : Prop :=
  ∀ way, look' way = look way ∨ look way = none ∧ look' way = some .directory

theorem Grown.refl (look : List String → Option FileContent) : Grown look look := fun _ => .inl rfl

theorem Grown.trans {look look' look'' : List String → Option FileContent} (first : Grown look look') (second : Grown look' look'') :
    Grown look look'' := by
  intro way
  rcases second way with same | ⟨absent, new⟩
  · rw [same]
    exact first way
  · rcases first way with same | ⟨_, new'⟩
    · exact .inr ⟨same.symm.trans absent, new⟩
    · rw [new'] at absent
      cases absent

theorem makeFrom_grown {making : Bool} : Grown p.look (makeFrom making p names).1.look := by
  induction names generalizing making p with
  | nil => exact .refl _
  | cons name names ih =>
    rw [makeFrom]
    split
    · exact ih
    split
    · exact FilePlace.look_up ▸ ih
    split
    · exact .refl _
    split
    · rename_i absent
      have free : p.look (p.way ++ [name]) = none := by rw [FilePlace.look_way, FileEntries.look_cons, absent]; rfl
      have made : (p.down name []).look = Function.update p.look (p.way ++ [name]) (some .directory) := by
        refine FilePlace.look_put (.directory []) (fun names => ?_) (by simp [free])
        cases names <;> rfl
      refine Grown.trans (fun way => ?_) (ih (p := p.down name []))
      rw [made, Function.update_apply]
      split
      · rename_i here
        exact .inr ⟨here ▸ free, rfl⟩
      · exact .inl rfl
    · rename_i entries entry
      exact FilePlace.look_down entry ▸ ih
    · exact .refl _

end

theorem makeAll_grown (t : FileTree) (reversed : List String) : Grown t.look (t.makeAll reversed).1.look := by
  rw [makeAll]
  split
  · exact .refl _
  · exact makeFrom_grown (p := t.top)

variable {t t' : FileTree} {path : String} {bytes : List UInt8}

theorem writeIn_ok {place : FilePlace} {name : String} (wrote : writeIn place name bytes = .ok t') : isLongName name = false ∧
    place.look (place.way ++ [name]) ≠ some .directory ∧
      t'.look = Function.update place.look (place.way ++ [name]) (some (.file bytes)) := by
  rw [writeIn] at wrote
  split at wrote
  · cases wrote
  rename_i short
  have free : place.look (place.way ++ [name]) ≠ some .directory := by
    rw [FilePlace.look_way, FileEntries.look_cons]
    intro directory
    split at wrote
    · cases wrote
    · rename_i other
      obtain ⟨node, entry, shows⟩ := Option.bind_eq_some_iff.mp directory
      cases node with
      | file => cases shows
      | directory entries => exact other entries entry
  have written : t' = FilePlace.tree { place with entries := place.entries.put name (.file bytes) } := by
    split at wrote
    · cases wrote
    · exact (Except.ok.inj wrote).symm
  refine ⟨by simpa using short, free, written ▸ FilePlace.look_put _ (fun names => ?_) free⟩
  cases names <;> rfl

theorem eq_append_of_dropWhile {reversed above : List String} {name : String} (last : reversed.dropWhile (· == "") = name :: above)
    (ended : reversed.head? ≠ some "") : reversed = name :: above ∧ name ≠ "" := by
  cases reversed with
  | nil => cases last
  | cons first rest =>
    have named : first ≠ "" := fun empty => ended (congrArg some empty)
    rw [List.dropWhile_cons_of_neg (by simpa using named)] at last
    obtain ⟨rfl, rfl⟩ := List.cons.inj last
    exact ⟨rfl, named⟩

theorem write_ok (wrote : t.write path bytes = .ok t') : pathFault? path = none ∧ Leads t'.look [] (names path) (fileOf path) ∧
    t.look (fileOf path) ≠ some .directory ∧ t'.look = Function.update t.look (fileOf path) (some (.file bytes)) := by
  simp only [write] at wrote
  split at wrote
  · cases wrote
  rename_i sound
  split at wrote
  · cases wrote
  rename_i name above last
  split at wrote
  · cases wrote
  · cases wrote
  rename_i place found
  split at wrote
  · cases wrote
  rename_i plain
  obtain ⟨ended, dot, up⟩ : (names path).reverse.head? ≠ some "" ∧ name ≠ "." ∧ name ≠ ".." := by simpa only [not_or] using plain
  obtain ⟨reversed, named⟩ := eq_append_of_dropWhile last ended
  have written : names path = above.reverse ++ [name] := by
    rw [← List.reverse_reverse (names path), reversed, List.reverse_cons]
  have moves : stays name = false := by simp [stays, named, dot]
  obtain ⟨short, free, put⟩ := writeIn_ok wrote
  obtain ⟨onto, leads, rfl, seen⟩ := leads_of_follow found
  have there : fileOf path = place.way ++ [name] := by
    have led : resolve [] above.reverse = place.way := leads.resolve_eq
    rw [fileOf, written, resolve_append, led]
    simp [resolve, moves, up]
  rw [seen, top_look] at free put
  rw [top_look] at leads
  rw [there]
  refine ⟨sound, ?_, free, put⟩
  have here : t.look place.way = some .directory := by
    rw [← top_look, ← seen]
    exact FilePlace.look_here
  have there : Function.update t.look (place.way ++ [name]) (some (.file bytes)) (place.way ++ [name]) ≠ none := by
    rw [Function.update_self]
    exact Option.some_ne_none _
  rw [written, put]
  exact (leads.update free).trans (.down (update_directory free here) moves up short there (.here _))

-- Directories are made first, and stay when the write after them fails.
theorem save_look {fault : Option FileFault} (saved : t.save path bytes = (t', fault)) : ∃ made, Grown t.look made ∧
    (fault ≠ none ∧ t'.look = made ∨ fault = none ∧ pathFault? path = none ∧ Leads t'.look [] (names path) (fileOf path) ∧
      made (fileOf path) ≠ some .directory ∧ t'.look = Function.update made (fileOf path) (some (.file bytes))) := by
  have grown := makeAll_grown t (trimmed (names path).reverse).tail
  unfold save at saved
  split at saved <;> rename_i eq <;> rw [eq] at grown
  · cases saved
    exact ⟨_, grown, .inl ⟨Option.some_ne_none _, rfl⟩⟩
  · split at saved <;> cases saved
    · rename_i wrote
      exact ⟨_, grown, .inr ⟨rfl, write_ok wrote⟩⟩
    · exact ⟨_, grown, .inl ⟨Option.some_ne_none _, rfl⟩⟩

theorem readBytes_eq_ok_iff : t.readBytes path = .ok bytes ↔
    pathFault? path = none ∧ Leads t.look [] (names path) (fileOf path) ∧ t.look (fileOf path) = some (.file bytes) := by
  rw [readBytes, find]
  cases pathFault? path with
  | some e => simp
  | none =>
    dsimp only
    constructor
    · intro read
      split at read
      · rename_i found
        obtain ⟨target, leads, here⟩ := leads_of_follow found
        have led : fileOf path = target := leads.resolve_eq
        exact ⟨rfl, led ▸ leads, led ▸ Except.ok.inj read ▸ here⟩
      · cases read
      · cases read
    · rintro ⟨-, leads, file⟩
      obtain ⟨spot, found, here⟩ := follow_of_leads (p := t.top) leads
      rw [found]
      cases spot with
      | file bytes' =>
        obtain ⟨rfl⟩ : bytes' = bytes := by simpa using here.symm.trans file
        rfl
      | directory place =>
        obtain ⟨there, same⟩ := here
        have directory : t.look (fileOf path) = some .directory := by
          rw [← top_look, ← same, ← there]
          exact FilePlace.look_here
        rw [file] at directory
        cases directory

def text? (t : FileTree) (file : List String) : Option String :=
  match t.look file with
  | some (.file bytes) => Text.decode? bytes
  | _ => none

theorem readText_eq_ok_iff {text : String} :
    t.readText path = .ok text ↔ pathFault? path = none ∧ Leads t.look [] (names path) (fileOf path) ∧ t.text? (fileOf path) = some text := by
  have parts : t.readText path = .ok text ↔ ∃ bytes, t.readBytes path = .ok bytes ∧ Text.decode? bytes = some text := by
    rw [readText]
    cases t.readBytes path with
    | error => simp
    | ok bytes => cases decoded : Text.decode? bytes <;> simp [decoded]
  have held : t.text? (fileOf path) = some text ↔ ∃ bytes, t.look (fileOf path) = some (.file bytes) ∧ Text.decode? bytes = some text := by
    rw [text?]
    cases t.look (fileOf path) with
    | none => simp
    | some content => cases content <;> simp
  simp only [parts, readBytes_eq_ok_iff, held]
  constructor
  · rintro ⟨bytes, ⟨sound, leads, file⟩, decoded⟩
    exact ⟨sound, leads, bytes, file, decoded⟩
  · rintro ⟨sound, leads, bytes, file, decoded⟩
    exact ⟨bytes, ⟨sound, leads, file⟩, decoded⟩

theorem readText_saved {text : String} (saved : t.save path (Text.encode text) = (t', none)) : t'.readText path = .ok text := by
  obtain ⟨made, _, ⟨failed, _⟩ | ⟨_, sound, leads, _, look⟩⟩ := save_look saved
  · exact absurd rfl failed
  · refine readText_eq_ok_iff.mpr ⟨sound, leads, ?_⟩
    rw [text?, look, Function.update_self]
    exact Text.decode?_encode text

variable {fault : Option FileFault} (saved : t.save path bytes = (t', fault))

include saved

theorem text?_save {file : List String} (other : fault = none → file ≠ fileOf path) : t'.text? file = t.text? file := by
  obtain ⟨made, grown, written⟩ := save_look saved
  have look : t'.look file = made file := by
    rcases written with ⟨_, look⟩ | ⟨done, _, _, _, look⟩
    · rw [look]
    · rw [look, Function.update_of_ne (other done)]
  rw [text?, text?, look]
  rcases grown file with same | ⟨absent, new⟩
  · rw [same]
  · rw [absent, new]

theorem leads_save {way names target : List String} (leads : Leads t.look way names target) : Leads t'.look way names target := by
  obtain ⟨made, grown, written⟩ := save_look saved
  have through : Leads made way names target := by
    refine leads.mono (fun way directory => ?_) fun way there => ?_
    · rcases grown way with same | ⟨_, new⟩
      · exact same.trans directory
      · exact new
    · rcases grown way with same | ⟨absent, _⟩
      · rwa [same]
      · exact absurd absent there
  rcases written with ⟨_, look⟩ | ⟨_, _, _, free, look⟩
  · rwa [look]
  · rw [look]
    exact through.update free

theorem readText_save {other text : String} (differs : fault = none → fileOf other ≠ fileOf path) (read : t.readText other = .ok text) :
    t'.readText other = .ok text := by
  obtain ⟨sound, leads, stored⟩ := readText_eq_ok_iff.mp read
  exact readText_eq_ok_iff.mpr ⟨sound, leads_save saved leads, (text?_save saved differs).trans stored⟩

end FileTree

end MarkupEditor
