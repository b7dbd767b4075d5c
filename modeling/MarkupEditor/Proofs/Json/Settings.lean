import MarkupEditor.Config
import MarkupEditor.Proofs.Json.Forms
import MarkupEditor.Proofs.Json.Written

namespace MarkupEditor

namespace Config

structure Fits (c : Config) : Prop where
  saveDebounceMs : c.saveDebounceMs < 2 ^ 64
  undoCoalesceMs : c.undoCoalesceMs < 2 ^ 64
  undoMaxLevels : c.undoMaxLevels < 2 ^ 64

variable {c d : Config}

theorem Field.mem_all (f : Field) : f ∈ all := by cases f <;> decide

def Agrees (c d : Config) (fs : List Field) : Prop := ∀ f ∈ fs, d.get f = c.get f

theorem eq_of_agrees {fs : List Field} (all : ∀ f, f ∈ fs) (agrees : c.Agrees d fs) : d = c := by
  have debounce : Json.nat d.saveDebounceMs = .nat c.saveDebounceMs := agrees .saveDebounceMs (all _)
  have coalesce : Json.nat d.undoCoalesceMs = .nat c.undoCoalesceMs := agrees .undoCoalesceMs (all _)
  have levels : Json.nat d.undoMaxLevels = .nat c.undoMaxLevels := agrees .undoMaxLevels (all _)
  have tag : Json.string d.tagAttribute = .string c.tagAttribute := agrees .tagAttribute (all _)
  have className : Json.string d.classAttribute = .string c.classAttribute := agrees .classAttribute (all _)
  simp only [Json.nat, Json.number.injEq, Json.Number.whole.injEq, Int.natCast_inj, Json.string.injEq] at debounce coalesce levels tag className
  cases c
  cases d
  simp_all

theorem set?_get (fits : c.Fits) (d : Config) (f : Field) :
    ∃ d', d.set? f (c.get f) = some d' ∧ d'.get f = c.get f ∧ ∀ g, g ≠ f → d'.get g = d.get g := by
  have small : ∀ {n : Nat}, n < 2 ^ 64 → (Json.nat n).natUpTo? Text.largest64 = some n :=
    fun fits => Json.natUpTo?_nat Text.largest64 (Nat.le_of_lt_succ fits)
  cases f with
  | saveDebounceMs =>
    refine ⟨{ d with saveDebounceMs := c.saveDebounceMs }, by rw [set?, get, small fits.saveDebounceMs, Option.map_some], rfl, fun g other => ?_⟩
    cases g <;> first | rfl | exact absurd rfl other
  | undoCoalesceMs =>
    refine ⟨{ d with undoCoalesceMs := c.undoCoalesceMs }, by rw [set?, get, small fits.undoCoalesceMs, Option.map_some], rfl, fun g other => ?_⟩
    cases g <;> first | rfl | exact absurd rfl other
  | undoMaxLevels =>
    refine ⟨{ d with undoMaxLevels := c.undoMaxLevels }, by rw [set?, get, small fits.undoMaxLevels, Option.map_some], rfl, fun g other => ?_⟩
    cases g <;> first | rfl | exact absurd rfl other
  | tagAttribute =>
    refine ⟨{ d with tagAttribute := c.tagAttribute }, rfl, rfl, fun g other => ?_⟩
    cases g <;> first | rfl | exact absurd rfl other
  | classAttribute =>
    refine ⟨{ d with classAttribute := c.classAttribute }, rfl, rfl, fun g other => ?_⟩
    cases g <;> first | rfl | exact absurd rfl other

theorem agrees_set (fits : c.Fits) (f : Field) {fs : List Field} (agrees : c.Agrees d fs) :
    ∃ d', d.set? f (c.get f) = some d' ∧ c.Agrees d' (f :: fs) := by
  obtain ⟨d', set, own, others⟩ := set?_get fits d f
  refine ⟨d', set, fun g listed => ?_⟩
  by_cases same : g = f
  · rw [same, own]
  · rw [others g same]
    exact agrees g ((List.mem_cons.mp listed).resolve_left same)

theorem setAll?_get (fits : c.Fits) (fs : List Field) {seen : List Field} (agrees : c.Agrees d seen) :
    ∃ d', d.setAll? (fs.map fun f => (f, some (c.get f))) = some d' ∧ c.Agrees d' (fs ++ seen) := by
  induction fs generalizing d seen with
  | nil => exact ⟨d, rfl, agrees⟩
  | cons f fs ih =>
    obtain ⟨d₁, set, agrees⟩ := agrees_set fits f agrees
    obtain ⟨d₂, later, agrees⟩ := ih agrees
    refine ⟨d₂, ?_, fun g listed => agrees g (List.perm_middle.mem_iff.mpr listed)⟩
    simp only [List.map_cons, setAll?, set, Option.bind_eq_bind, Option.bind_some, later]

theorem ofJson?_json (fits : c.Fits) : ofJson? c.json = some c := by
  have fields : c.json.fields? (Field.all.map Field.name) = some ((Field.all.map c.get).map some) :=
    Json.fields?_zip (Field.all.map Field.name) (Field.all.map c.get) [] (by decide) rfl
  have nothing : c.Agrees {} [] := fun _ listed => absurd listed List.not_mem_nil
  obtain ⟨d, read, agrees⟩ := setAll?_get fits Field.all nothing
  have paired : Field.all.zip ((Field.all.map c.get).map some) = Field.all.map fun f => (f, some (c.get f)) := rfl
  simp only [ofJson?, fields, paired, read, Option.bind_eq_bind, Option.bind_some]
  exact congrArg some (eq_of_agrees (fun f => List.mem_append_left [] (Field.mem_all f)) agrees)

structure Spacing where
  before : List Char
  inside : List Char
  last : List Char
  blank : ∀ ch ∈ before ++ (inside ++ last), Json.Scan.isSpace ch

namespace Spacing

def line : Spacing := ⟨[], [], [], by simp⟩

def lines : Spacing := ⟨['\n', ' ', ' '], [' '], ['\n'], by simp [Json.Scan.isSpace]⟩

variable (s : Spacing) (c : Config)

def entry (f : Field) : List Char :=
  s.before ++ ((Json.Write.quoted f.name).toList ++ ':' :: (s.inside ++ (Json.Write.line (c.get f)).toList))

def following : List Field → List Char
  | [] => s.last ++ ['}']
  | f :: fs => ',' :: (s.entry c f ++ following fs)

theorem length_following (fs : List Field) : fs.length < (s.following c fs).length := by
  induction fs with
  | nil => simp [following]
  | cons f fs ih =>
    simp only [following, List.length_cons, List.length_append]
    omega

theorem intercalate_entries (f : Field) (fs : List Field) :
    [','].intercalate ((f :: fs).map (s.entry c)) ++ (s.last ++ ['}']) = s.entry c f ++ s.following c fs := by
  induction fs generalizing f with
  | nil => simp [following]
  | cons g fs ih =>
    have later := ih g
    simp only [List.map_cons, List.intercalate_cons_cons, List.append_assoc] at later ⊢
    rw [later]
    rfl

end Spacing

theorem memberLines_entries (c : Config) (fs : List Field) :
    (Json.Write.memberLines (fs.map fun f => (f.name, c.get f))).map String.toList = fs.map (Spacing.line.entry c) := by
  induction fs with
  | nil => rfl
  | cons f fs ih =>
    simp only [List.map_cons, Json.Write.memberLines, ih, String.toList_append]
    simp [Spacing.entry, Spacing.line]

theorem spreadMembers_entries (c : Config) (fs : List Field) :
    (Json.Write.spreadMembers 1 (fs.map fun f => (f.name, c.get f))).map String.toList = fs.map (Spacing.lines.entry c) := by
  have plain : ∀ f, Json.Write.spread 1 (c.get f) = Json.Write.line (c.get f) := by
    intro f
    cases f <;> simp [get, Json.nat, Json.Write.spread]
  induction fs with
  | nil => rfl
  | cons f fs ih =>
    simp only [List.map_cons, Json.Write.spreadMembers, ih, plain, String.toList_append]
    simp [Spacing.entry, Spacing.lines, Json.Write.indent]

theorem compact_entries (c : Config) :
    c.json.compact.toList = '{' :: ([','].intercalate (Field.all.map (Spacing.line.entry c)) ++ (Spacing.line.last ++ ['}'])) := by
  simp only [Json.compact, json, Json.Write.line, String.toList_append, String.toList_intercalate, memberLines_entries]
  rfl

theorem pretty_entries (c : Config) :
    c.json.pretty.toList = '{' :: ([','].intercalate (Field.all.map (Spacing.lines.entry c)) ++ (Spacing.lines.last ++ ['}'])) := by
  have spread : c.json.pretty = "\x7b" ++ ",".intercalate (Json.Write.spreadMembers 1 (Field.all.map fun f => (f.name, c.get f))) ++
      Json.Write.indent 0 ++ "\x7d" := rfl
  simp only [spread, String.toList_append, String.toList_intercalate, spreadMembers_entries]
  simp [Json.Write.indent, Spacing.lines]

namespace Read

open Json.Scan (EndsNumber)

variable {c d d' : Config}

theorem quoted_written (text : String) (rest : List Char) :
    (Json.Write.quoted text).toList ++ rest = '"' :: (text.toList.flatMap Json.Write.escapeChar ++ '"' :: rest) := by
  simp [Json.Write.quoted]

theorem field_text {f : Field} (isText : f = .tagAttribute ∨ f = .classAttribute) {text : String} (set : d.set? f (.string text) = some d')
    (rest : List Char) : field d f ((Json.Write.quoted text).toList ++ rest) = .ok (d', rest) := by
  have read := Json.Scan.string_written text.toList rest
  rw [quoted_written, field, Json.Scan.space_cons _ rfl]
  simp only [if_pos isText, read, bind, Except.bind, String.ofList_toList, set]
  rfl

theorem field_number {f : Field} (isNumber : ¬ (f = .tagAttribute ∨ f = .classAttribute)) {n : Nat} (small : n ≤ Text.largest64)
    (set : d.set? f (.nat n) = some d') {rest : List Char} (ends : EndsNumber rest) :
    field d f ((Json.Write.number (.whole n)).toList ++ rest) = .ok (d', rest) := by
  have read := Json.Scan.number_written small ends
  obtain ⟨digit, ds, written, isDigit⟩ : ∃ digit ds, (Json.Write.number (.whole n)).toList = digit :: ds ∧ digit.isDigit := by
    have spelled : (Json.Write.number (.whole n)).toList = Nat.toDigits 10 n := Nat.toList_repr
    obtain ⟨digit, ds, same⟩ := List.exists_cons_of_ne_nil (Json.Scan.toDigits_ne_nil n)
    exact ⟨digit, ds, spelled.trans same, Json.Scan.isDigit_of_written digit (by rw [same]; exact List.mem_cons_self)⟩
  rw [written, List.cons_append] at read ⊢
  have opened : Json.Scan.space (digit :: (ds ++ rest)) = digit :: (ds ++ rest) := by
    refine Json.Scan.space_cons _ ?_
    cases blank : Json.Scan.isSpace digit with
    | false => rfl
    | true => exact absurd isDigit (by rw [(Json.Scan.inert_of_isSpace blank).1]; decide)
  unfold field
  simp only [opened]
  split
  · rename_i same
    cases same
  · rename_i same
    obtain ⟨rfl, _⟩ := List.cons.inj same
    cases isDigit
  · rename_i other same
    obtain ⟨rfl, rfl⟩ := List.cons.inj same
    have set : d.set? f (.number (.whole n)) = some d' := set
    simp only [if_pos (And.intro isNumber (Or.inr isDigit)), read, bind, Except.bind, set]
    rfl

theorem field_written (fits : c.Fits) {f : Field} (set : d.set? f (c.get f) = some d') {rest : List Char} (ends : EndsNumber rest) :
    field d f ((Json.Write.line (c.get f)).toList ++ rest) = .ok (d', rest) := by
  cases f with
  | saveDebounceMs => exact field_number (by decide) (Nat.le_of_lt_succ fits.saveDebounceMs) set ends
  | undoCoalesceMs => exact field_number (by decide) (Nat.le_of_lt_succ fits.undoCoalesceMs) set ends
  | undoMaxLevels => exact field_number (by decide) (Nat.le_of_lt_succ fits.undoMaxLevels) set ends
  | tagAttribute => exact field_text (by decide) set rest
  | classAttribute => exact field_text (by decide) set rest

theorem field_spaced (d : Config) (f : Field) {blank cs : List Char} (all : ∀ ch ∈ blank, Json.Scan.isSpace ch) :
    field d f (blank ++ cs) = field d f cs := by
  simp only [field, Json.Scan.space_append all]

theorem ofName?_name (f : Field) : Field.ofName? f.name = some f := by
  cases f <;> rfl

theorem members_entry (s : Spacing) (fits : c.Fits) {f : Field} {seen : List Field} (new : f ∉ seen) (set : d.set? f (c.get f) = some d')
    (fuel : Nat) {rest : List Char} (ends : EndsNumber rest) :
    members d seen false (fuel + 1) (',' :: (s.entry c f ++ rest)) = members d' (f :: seen) false fuel rest ∧
      members d [] true (fuel + 1) (s.entry c f ++ rest) = members d' [f] false fuel rest := by
  have blank : (∀ ch ∈ s.before, Json.Scan.isSpace ch) ∧ ∀ ch ∈ s.inside, Json.Scan.isSpace ch :=
    ⟨fun ch member => s.blank ch (List.mem_append_left _ member),
      fun ch member => s.blank ch (List.mem_append_right _ (List.mem_append_left _ member))⟩
  have opened : Json.Scan.space (s.entry c f ++ rest) =
      '"' :: (f.name.toList.flatMap Json.Write.escapeChar ++ '"' :: ':' :: (s.inside ++ ((Json.Write.line (c.get f)).toList ++ rest))) := by
    rw [Spacing.entry, List.append_assoc, Json.Scan.space_append blank.1, List.append_assoc, quoted_written, Json.Scan.space_cons _ rfl,
      List.cons_append, List.append_assoc]
  have name := Json.Scan.string_written f.name.toList (':' :: (s.inside ++ ((Json.Write.line (c.get f)).toList ++ rest)))
  have valued : field d f (s.inside ++ ((Json.Write.line (c.get f)).toList ++ rest)) = .ok (d', rest) := by
    rw [field_spaced d f blank.2, field_written fits set ends]
  have known : Field.ofName? (String.ofList f.name.toList) = some f := by rw [String.ofList_toList, ofName?_name]
  have comma : Json.Scan.space (',' :: (s.entry c f ++ rest)) = ',' :: (s.entry c f ++ rest) := Json.Scan.space_cons _ rfl
  have colon : ∀ cs, Json.Scan.space (':' :: cs) = ':' :: cs := fun cs => Json.Scan.space_cons cs rfl
  have unseen : ∀ {fs : List Field}, f ∉ fs → (some f).any (fs.contains ·) = false := by
    intro fs absent
    simpa using absent
  constructor
  · conv => lhs; unfold members
    simp only [comma, opened, name, known, colon, valued, bind, Except.bind, unseen new, Bool.false_eq_true, if_false]
  · conv => lhs; unfold members
    simp only [opened, name, known, colon, valued, bind, Except.bind, unseen List.not_mem_nil, Bool.false_eq_true, if_false]

theorem ends_following (s : Spacing) (c : Config) (fs : List Field) : EndsNumber (s.following c fs) := by
  cases fs with
  | nil =>
    intro ch first
    have member : ch ∈ s.last ++ ['}'] := List.mem_of_mem_head? first
    cases List.mem_append.mp member with
    | inl listed => exact Json.Scan.inert_of_isSpace (s.blank ch (List.mem_append_right _ (List.mem_append_right _ listed)))
    | inr last =>
      rw [List.mem_singleton.mp last]
      decide
  | cons f fs =>
    intro ch first
    cases first
    decide

theorem members_following (s : Spacing) (fits : c.Fits) {fs seen : List Field} (apart : (fs ++ seen).Nodup) (agrees : c.Agrees d seen)
    {fuel : Nat} (enough : fs.length < fuel) :
    ∃ d', members d seen false fuel (s.following c fs) = .ok (d', []) ∧ c.Agrees d' (fs ++ seen) := by
  induction fs generalizing d seen fuel with
  | nil =>
    obtain ⟨fuel, rfl⟩ : ∃ more, fuel = more + 1 := ⟨fuel - 1, by omega⟩
    have closed : Json.Scan.space (s.following c []) = ['}'] := by
      rw [Spacing.following, Json.Scan.space_append fun ch member => s.blank ch (List.mem_append_right _ (List.mem_append_right _ member))]
      rfl
    refine ⟨d, ?_, agrees⟩
    unfold members
    simp only [closed]
    rfl
  | cons f fs ih =>
    obtain ⟨fuel, rfl⟩ : ∃ more, fuel = more + 1 := ⟨fuel - 1, by omega⟩
    obtain ⟨new, later⟩ := List.nodup_cons.mp apart
    obtain ⟨d₁, set, agrees⟩ := agrees_set fits f agrees
    obtain ⟨d₂, read, agrees⟩ := ih (List.perm_middle.nodup_iff.mpr apart) agrees (Nat.lt_of_succ_lt_succ enough)
    refine ⟨d₂, ?_, fun g listed => agrees g (List.perm_middle.mem_iff.mpr listed)⟩
    have step := (members_entry s fits (fun listed => new (List.mem_append_right _ listed)) set fuel (ends_following s c fs)).1
    rw [Spacing.following, step, read]

theorem members_spaced (s : Spacing) (fits : c.Fits) {fuel : Nat}
    (enough : ([','].intercalate (Field.all.map (s.entry c)) ++ (s.last ++ ['}'])).length < fuel) :
    members {} [] true fuel ([','].intercalate (Field.all.map (s.entry c)) ++ (s.last ++ ['}'])) = .ok (c, []) := by
  obtain ⟨f, fs, fields⟩ : ∃ f fs, Field.all = f :: fs := ⟨_, _, rfl⟩
  have distinct : (f :: fs).Nodup := by
    rw [← fields]
    decide
  have nothing : c.Agrees {} [] := fun _ listed => absurd listed List.not_mem_nil
  rw [fields, s.intercalate_entries c f fs] at enough ⊢
  obtain ⟨fuel, rfl⟩ : ∃ more, fuel = more + 1 := ⟨fuel - 1, by omega⟩
  have left := s.length_following c fs
  rw [List.length_append] at enough
  obtain ⟨d₁, set, agrees⟩ := agrees_set fits f nothing
  obtain ⟨d₂, read, agrees⟩ := members_following s fits (List.perm_append_singleton f fs |>.nodup_iff.mpr distinct) agrees (by omega : fs.length < fuel)
  have step := (members_entry s fits List.not_mem_nil set fuel (ends_following s c fs)).2
  have whole : d₂ = c := eq_of_agrees (fun g => (List.perm_append_singleton f fs).mem_iff.mpr (fields ▸ Field.mem_all g)) agrees
  rw [step, read, whole]

end Read

theorem parse_spaced (s : Spacing) (fits : c.Fits) {text : String}
    (spelled : text.toList = '{' :: ([','].intercalate (Field.all.map (s.entry c)) ++ (s.last ++ ['}']))) : parse text = .ok c := by
  have opened : Json.Scan.space text.toList = '{' :: ([','].intercalate (Field.all.map (s.entry c)) ++ (s.last ++ ['}'])) := by
    rw [spelled, Json.Scan.space_cons _ rfl]
  simp only [parse, opened, Read.members_spaced s fits (Nat.lt_succ_self _), bind, Except.bind]
  rfl

end Config

-- Trees whose places fit, outlines and configurations whose numbers fit are read back from their JSON; a configuration
-- also from the text that it is written as.
theorem json_forms_round_trip :
    (∀ t : SourceTree, (∀ n ∈ t.nodes, n.loc.Fits) → SourceTree.ofJson? t.json = some t) ∧
    (∀ o : Outline, Outline.ofJson? o.json = some o) ∧
    ∀ c : Config, c.Fits → Config.ofJson? c.json = some c ∧ Config.parse c.json.compact = .ok c ∧ Config.parse c.json.pretty = .ok c :=
  ⟨fun _ fits => SourceTree.ofJson?_json fits, Outline.ofJson?_json, fun c fits =>
    ⟨Config.ofJson?_json fits, Config.parse_spaced .line fits c.compact_entries, Config.parse_spaced .lines fits c.pretty_entries⟩⟩

-- A tree with every kind of node and of attribute, whose places stand at the end of what fits, and a configuration with
-- numbers that large and with characters that are escaped.
def farPlace : Location := ⟨.origin, ⟨2 ^ 64 - 1, 2 ^ 32 - 1, 2 ^ 32 - 1⟩⟩

def farTree : SourceTree :=
  ⟨[.code " ", .node (.other farPlace [.code "x", .node (.element farPlace "b"
    [.flag "c", .string "d" "\"" .single, .expression "e" [.node (.fragment farPlace [])], .spread [.code "f"]]
    [.text farPlace "\n", .wrapper farPlace true [.code "g"]] false)])]⟩

def farConfig : Config := ⟨2 ^ 64 - 1, 0, 2 ^ 64 - 1, "\"\\\x01", "\u2028\t"⟩

theorem json_forms_round_trip_far :
    SourceTree.ofJson? farTree.json = some farTree ∧
      Outline.ofJson? (Outline.mk "a" "b" [.mk "c" "d" []]).json = some (.mk "a" "b" [.mk "c" "d" []]) ∧
      Config.ofJson? farConfig.json = some farConfig ∧ Config.parse farConfig.json.compact = .ok farConfig ∧
      Config.parse farConfig.json.pretty = .ok farConfig := by
  have place : farPlace.Fits := ⟨⟨by decide, by decide, by decide⟩, ⟨by decide, by decide, by decide⟩⟩
  have places : ∀ n ∈ farTree.nodes, n.loc = farPlace := by decide +kernel
  have numbers : farConfig.Fits := ⟨by decide, by decide, by decide⟩
  obtain ⟨trees, outlines, configs⟩ := json_forms_round_trip
  exact ⟨trees farTree fun n listed => places n listed ▸ place, outlines _, configs farConfig numbers⟩

end MarkupEditor
