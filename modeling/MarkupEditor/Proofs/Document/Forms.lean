import MarkupEditor.Document.Rebuild
import MarkupEditor.Proofs.Markup.Literals
import MarkupEditor.Proofs.Markup.Places
import MarkupEditor.Proofs.Markup.Recast

namespace MarkupEditor

theorem kind_of_sameSource {a b : Node} (same : a.sameSource b = true) : a.kind = b.kind := by
  simp only [Node.sameSource, Bool.and_eq_true, beq_iff_eq] at same
  exact same.2

theorem loc_of_sameSource {a b : Node} (same : a.sameSource b = true) : a.loc = b.loc := by
  simp only [Node.sameSource, Bool.and_eq_true, beq_iff_eq] at same
  exact same.1

namespace Rebuild

def present (kids : List (Node × Node)) (n : Node) : Node := ((kids.find? (·.1.sameSource n)).map Prod.snd).getD n

theorem splice_eq (kids : List (Node × Node)) : splice kids = Part.mapNode (present kids) := by
  funext p
  cases p with
  | code text => rfl
  | node n =>
    simp only [splice, Part.mapNode, present]
    cases kids.find? (·.1.sameSource n) <;> rfl

-- A source and its form that have a property, with the place and the kind of the source.
structure Kept (Q : Node → Prop) (q : Node × Node) : Prop where
  source : Q q.1
  form : Q q.2
  kind : q.2.kind = q.1.kind
  loc : q.2.loc = q.1.loc

theorem present_cases (kids : List (Node × Node)) (n : Node) :
    present kids n = n ∨ ∃ q ∈ kids, q.1.sameSource n = true ∧ present kids n = q.2 := by
  unfold present
  cases found : kids.find? (·.1.sameSource n) with
  | none => exact .inl rfl
  | some q => exact .inr ⟨q, List.mem_of_find?_eq_some found, by simpa using List.find?_some found, rfl⟩

theorem kept_present {Q : Node → Prop} {kids : List (Node × Node)} (kept : ∀ q ∈ kids, Kept Q q) {n : Node} (own : Q n) :
    Kept Q (n, present kids n) := by
  rcases present_cases kids n with same | ⟨q, member, source, same⟩
  · rw [same]
    exact ⟨own, own, rfl, rfl⟩
  · have from_ := kept q member
    rw [same]
    exact ⟨own, from_.form, from_.kind.trans (kind_of_sameSource source), from_.loc.trans (loc_of_sameSource source)⟩

theorem form_kind (classAttribute : String) (r : Record) (kids : List (Node × Node)) (n : Node) :
    (form classAttribute r kids n).kind = n.kind := by
  cases n <;> rfl

theorem form_loc (classAttribute : String) (r : Record) (kids : List (Node × Node)) (n : Node) :
    (form classAttribute r kids n).loc = n.loc := by
  cases n <;> rfl

theorem mem_entries {classAttribute : String} {ts : List (Tree Record)} {q : Node × Node} :
    q ∈ entries classAttribute ts ↔ ∃ t ∈ ts, entry classAttribute t = some q := by
  induction ts with
  | nil => simp [entries]
  | cons t ts ih =>
    rw [entries]
    cases made : entry classAttribute t with
    | none => simp [ih, made]
    | some q' => simp [ih, made, eq_comm]

-- What markup may list as its children: everything but statements.
def Lists (n : Node) (kids : List (Node × Node)) : Prop := n.isMarkup → ∀ k ∈ kids, k.1.kind ≠ .other

-- The forms of nodes that have a property, with children that have it, have it.
def FormClosed (classAttribute : String) (Q : Node → Prop) : Prop :=
  ∀ r n kids, Q n → (∀ k ∈ kids, Kept Q k) → Lists n kids → Q (form classAttribute r kids n)

theorem nodes_setText {name value : String} {attributes : List Attribute} {m : Node}
    (member : m ∈ ((Attribute.setText name value attributes).flatMap Attribute.parts).filterMap Part.node?) :
    m ∈ (attributes.flatMap Attribute.parts).filterMap Part.node? := by
  induction attributes with
  | nil => simp [Attribute.setText, Attribute.parts_ofText] at member
  | cons a attributes ih =>
    rw [Attribute.setText] at member
    split at member <;> rw [List.flatMap_cons, List.filterMap_append, List.mem_append] at member
    · simp only [Attribute.parts_ofText, List.not_mem_nil, false_or] at member
      simp [member]
    · rw [List.flatMap_cons, List.filterMap_append, List.mem_append]
      exact member.imp_right ih

theorem withClass_cases (classAttribute : String) (className : Option String) (attributes : List Attribute) :
    withClass classAttribute className attributes = attributes ∨
      ∃ name, withClass classAttribute className attributes = Attribute.setText classAttribute name attributes := by
  cases className with
  | none => exact .inl rfl
  | some name =>
    simp only [withClass]
    split
    · exact .inl rfl
    · exact .inr ⟨name, rfl⟩

theorem inner_form {classAttribute : String} {r : Record} {kids : List (Node × Node)} {n m : Node}
    (held : m ∈ (form classAttribute r kids n).inner) : m ∈ n.inner ∨ ∃ q ∈ kids, m = q.2 := by
  have spliced : ∀ ps : List Part, m ∈ (ps.map (splice kids)).filterMap Part.node? →
      m ∈ ps.filterMap Part.node? ∨ ∃ q ∈ kids, m = q.2 := by
    intro ps member
    rw [splice_eq, filterMap_mapNode, List.mem_map] at member
    obtain ⟨k, member, rfl⟩ := member
    rcases present_cases kids k with same | ⟨q, listed, _, same⟩
    · exact .inl (same.symm ▸ member)
    · exact .inr ⟨q, listed, same⟩
  have listed : m ∈ kids.map Prod.snd → ∃ q ∈ kids, m = q.2 := by
    intro member
    obtain ⟨q, listed, rfl⟩ := List.mem_map.mp member
    exact ⟨q, listed, rfl⟩
  cases n with
  | element loc name attributes children selfClosing =>
    rcases List.mem_append.mp held with member | member
    · refine .inl (List.mem_append_left _ ?_)
      rcases withClass_cases classAttribute r.className attributes with same | ⟨name, same⟩
      · rwa [same] at member
      · exact nodes_setText (same ▸ member)
    · exact .inr (listed member)
  | fragment => exact .inr (listed held)
  | text => cases held
  | wrapper loc spread ps => exact spliced ps held
  | other loc ps => exact spliced ps held

theorem formClosed_throughout {classAttribute : String} {L : Node → Prop}
    (own : ∀ r n kids, n.Throughout L → (∀ k ∈ kids, Kept (Node.Throughout L) k) → Lists n kids → L (form classAttribute r kids n)) :
    FormClosed classAttribute (Node.Throughout L) := by
  intro r n kids holds kept lists
  refine .of_inner (own r n kids holds kept lists) fun m held => ?_
  rcases inner_form held with held | ⟨q, member, rfl⟩
  · exact holds.inner held
  · exact (kept q member).form

theorem sound_withClass {classAttribute : String} (isName : Tag.IsName classAttribute) (className : Option String)
    {attributes : List Attribute} (sound : ∀ a ∈ attributes, a.Sound) : ∀ a ∈ withClass classAttribute className attributes, a.Sound := by
  rcases withClass_cases classAttribute className attributes with same | ⟨name, same⟩
  · rwa [same]
  · rw [same]
    exact Attribute.sound_setText isName name sound

theorem kind_of_lists {Q : Node → Prop} {n : Node} {kids : List (Node × Node)} (kept : ∀ k ∈ kids, Kept Q k) (lists : Lists n kids)
    (markup : n.isMarkup) : ∀ m ∈ kids.map Prod.snd, m.kind ≠ .other := by
  intro m member
  obtain ⟨k, listed, rfl⟩ := List.mem_map.mp member
  rw [(kept k listed).kind]
  exact lists markup k listed

theorem isMarkup_of_kind {n m : Node} (same : m.kind = n.kind) (markup : n.isMarkup) : m.isMarkup := by
  rwa [Node.isMarkup, same]

theorem formClosed_sound {classAttribute : String} (isName : Tag.IsName classAttribute) : FormClosed classAttribute Node.Sound := by
  apply formClosed_throughout
  intro r n kids sound kept lists
  cases n with
  | element loc name attributes children selfClosing =>
    obtain ⟨named, tag, _⟩ := sound.self
    exact ⟨named, sound_withClass isName _ tag, kind_of_lists kept lists rfl⟩
  | fragment => exact kind_of_lists kept lists rfl
  | text => trivial
  | wrapper loc spread ps =>
    obtain ⟨coded, undotted⟩ := sound.self
    simp only [form, splice_eq]
    refine ⟨coded.mapNode fun m member markup => ?_, ?_⟩
    · have held : m ∈ (Node.wrapper loc spread ps).inner := member
      exact isMarkup_of_kind (kept_present kept (sound.inner held)).kind markup
    · rwa [lead_mapNode]
  | other => trivial

end Rebuild

-- The nodes in code are markup and told apart by their places; markup lists no statements.
def Node.Plain : Node → Prop
  | element _ _ _ children _ => ∀ n ∈ children, n.kind ≠ .other
  | fragment _ children => ∀ n ∈ children, n.kind ≠ .other
  | text .. => True
  | wrapper _ _ ps => (∀ n ∈ ps.filterMap Part.node?, n.isMarkup) ∧ Part.Distinct ps
  | other _ ps => (∀ n ∈ ps.filterMap Part.node?, n.isMarkup) ∧ Part.Distinct ps

def Node.Regular (n : Node) : Prop := n.Throughout Node.Plain

namespace Rebuild

theorem distinct_mapNode {ps : List Part} {f : Node → Node} (distinct : Part.Distinct ps)
    (same : ∀ n ∈ ps.filterMap Part.node?, (f n).kind = n.kind ∧ (f n).loc = n.loc) : Part.Distinct (ps.map (Part.mapNode f)) := by
  unfold Part.Distinct
  rw [filterMap_mapNode, List.pairwise_map]
  refine List.Pairwise.imp_of_mem ?_ distinct
  intro a b first second apart
  obtain ⟨kindA, locA⟩ := same a first
  obtain ⟨kindB, locB⟩ := same b second
  rwa [Node.sameSource, kindA, kindB, locA, locB]

theorem plain_code {Q : Node → Prop} {ps : List Part} {kids : List (Node × Node)} (kept : ∀ k ∈ kids, Kept Q k)
    (own : ∀ n ∈ ps.filterMap Part.node?, Q n) (plain : (∀ n ∈ ps.filterMap Part.node?, n.isMarkup) ∧ Part.Distinct ps) :
    (∀ n ∈ (ps.map (splice kids)).filterMap Part.node?, n.isMarkup) ∧ Part.Distinct (ps.map (splice kids)) := by
  obtain ⟨markup, distinct⟩ := plain
  rw [splice_eq]
  constructor
  · intro n member
    rw [filterMap_mapNode, List.mem_map] at member
    obtain ⟨m, member, rfl⟩ := member
    exact isMarkup_of_kind (kept_present kept (own m member)).kind (markup m member)
  · refine distinct_mapNode distinct fun n member => ?_
    have still := kept_present kept (own n member)
    exact ⟨still.kind, still.loc⟩

theorem formClosed_regular (classAttribute : String) : FormClosed classAttribute Node.Regular := by
  apply formClosed_throughout
  intro r n kids regular kept lists
  cases n with
  | element | fragment => exact kind_of_lists kept lists rfl
  | text => trivial
  | wrapper loc spread ps => exact plain_code kept (fun m member => regular.inner (show m ∈ (Node.wrapper loc spread ps).inner from member)) regular.self
  | other loc ps => exact plain_code kept (fun m member => regular.inner (show m ∈ (Node.other loc ps).inner from member)) regular.self

end Rebuild

end MarkupEditor
