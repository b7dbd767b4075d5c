import MarkupEditor.Proofs.Markup.Elements
import MarkupEditor.Proofs.Markup.Literals
import MarkupEditor.Proofs.Markup.Recast

namespace MarkupEditor

namespace Attribute

theorem find?_isNone {attributes : List Attribute} {name : String} :
    (find? attributes name).isNone ↔ some name ∉ attributes.map Attribute.name? := by
  simp [find?, Option.isNone_iff_eq_none, List.find?_eq_none]

end Attribute

namespace Annotate

variable (path mark : String)

section

variable {R : Node → Node → Prop}

theorem nodes_related {ns : List Node} (each : ∀ n ∈ ns, ∀ count, R n (node path mark count n).1) (count : Nat) :
    List.Forall₂ R ns (nodes path mark count ns).1 := by
  induction ns generalizing count with
  | nil => exact .nil
  | cons n ns ih =>
    obtain ⟨first, later⟩ := List.forall_mem_cons.mp each
    exact .cons (first count) (ih later _)

theorem parts_related {ps : List Part} (each : ∀ n ∈ ps.filterMap Part.node?, ∀ count, R n (node path mark count n).1) (count : Nat) :
    List.Forall₂ (Part.Related R) ps (parts path mark count ps).1 := by
  induction ps generalizing count with
  | nil => exact .nil
  | cons p ps ih =>
    cases p with
    | code text => exact .cons (.code text) (ih each _)
    | node n =>
      obtain ⟨first, later⟩ := List.forall_mem_cons.mp each
      exact .cons (.node (first count)) (ih later _)

theorem attributes_related {attrs : List Attribute}
    (each : ∀ n ∈ (attrs.flatMap Attribute.parts).filterMap Part.node?, ∀ count, R n (node path mark count n).1) (count : Nat) :
    List.Forall₂ (Attribute.Related R) attrs (attributes path mark count attrs).1 := by
  induction attrs generalizing count with
  | nil => exact .nil
  | cons a attrs ih =>
    rw [List.flatMap_cons, List.filterMap_append] at each
    obtain ⟨own, later⟩ := List.forall_mem_append.mp each
    refine .cons ?_ (ih later _)
    cases a with
    | flag name => exact .flag name
    | string name value quote => exact .string name value quote
    | expression name ps => exact .expression name (parts_related path mark own count)
    | spread ps => exact .spread (parts_related path mark own count)

end

def Tags (n n' : Node) : Prop := ∃ count, n' = (node path mark count n).1

variable {path mark}

theorem Tags.kind {n n' : Node} (tags : Tags path mark n n') : n'.kind = n.kind := by
  obtain ⟨count, rfl⟩ := tags
  cases n <;> rfl

theorem Tags.markup {n n' : Node} (tags : Tags path mark n n') (markup : n.isMarkup) : n'.isMarkup := by
  rwa [Node.isMarkup, tags.kind]

theorem tags_parts (ps : List Part) (count : Nat) : List.Forall₂ (Part.Related (Tags path mark)) ps (parts path mark count ps).1 :=
  parts_related path mark (fun _ _ count => ⟨count, rfl⟩) count

theorem tags_nodes (ns : List Node) (count : Nat) : List.Forall₂ (Tags path mark) ns (nodes path mark count ns).1 :=
  nodes_related path mark (fun _ _ count => ⟨count, rfl⟩) count

theorem tags_attributes (attrs : List Attribute) (count : Nat) :
    List.Forall₂ (Attribute.Related (Tags path mark)) attrs (attributes path mark count attrs).1 :=
  attributes_related path mark (fun _ _ count => ⟨count, rfl⟩) count

theorem mem_tagged_nodes {ns : List Node} {count : Nat} {n' : Node} (member : n' ∈ (nodes path mark count ns).1) :
    ∃ n ∈ ns, Tags path mark n n' :=
  exists_of_forall₂ (tags_nodes ns count) member

theorem inner_tagged {n n' m' : Node} (tags : Tags path mark n n') (held : m' ∈ n'.inner) : ∃ m ∈ n.inner, Tags path mark m m' := by
  obtain ⟨count, rfl⟩ := tags
  cases n with
  | element loc name attrs kids selfClosing =>
    cases List.mem_append.mp held with
    | inl inAttributes =>
      have kept : m' ∈ ((attributes path mark (count + 1) attrs).1.flatMap Attribute.parts).filterMap Part.node? := by
        split at inAttributes
        · rw [List.flatMap_append, List.filterMap_append, List.flatMap_singleton, Attribute.parts_ofText, List.append_nil] at inAttributes
          exact inAttributes
        · exact inAttributes
      obtain ⟨m, listed, tags⟩ := Attribute.mem_of_related (tags_attributes attrs (count + 1)) kept
      exact ⟨m, List.mem_append_left _ listed, tags⟩
    | inr below =>
      obtain ⟨m, listed, tags⟩ := mem_tagged_nodes below
      exact ⟨m, List.mem_append_right _ listed, tags⟩
  | fragment loc kids => exact mem_tagged_nodes held
  | text => cases held
  | wrapper loc spread ps => exact mem_of_related (tags_parts ps count) held
  | other loc ps => exact mem_of_related (tags_parts ps count) held

theorem local_tagged {n n' : Node} (isName : Tag.IsName mark) (tags : Tags path mark n n') (own : n.Local) : n'.Local := by
  have markup : ∀ m m', Tags path mark m m' → m.isMarkup → m'.isMarkup := fun _ _ tags => tags.markup
  have listed : ∀ {kids : List Node} {count : Nat}, (∀ m ∈ kids, m.kind ≠ .other) →
      ∀ m' ∈ (nodes path mark count kids).1, m'.kind ≠ .other := by
    intro kids count none m' member
    obtain ⟨m, listed, tags⟩ := mem_tagged_nodes member
    rw [tags.kind]
    exact none m listed
  obtain ⟨count, rfl⟩ := tags
  cases n with
  | element loc name attrs kids selfClosing =>
    obtain ⟨named, sound, none⟩ := own
    have tags : List.Forall₂ (Attribute.Related (Tags path mark)) attrs _ := tags_attributes attrs (count + 1)
    have inTag := Attribute.sound_of_related (tags.imp fun _ _ a => a.mono markup) sound
    refine ⟨named, ?_, listed none⟩
    split
    · exact List.forall_mem_append.mpr ⟨inTag, List.forall_mem_singleton.mpr (Attribute.sound_ofText isName _)⟩
    · exact inTag
  | fragment loc kids => exact listed own
  | text | other => trivial
  | wrapper loc spread ps =>
    obtain ⟨coded, undotted⟩ := own
    refine ⟨coded.recast ((tags_parts ps count).imp fun _ _ p => p.mono markup), fun single => ?_⟩
    rw [lead_of_related (tags_parts ps count)]
    exact undotted single

theorem sound_tagged {n n' : Node} (isName : Tag.IsName mark) (tags : Tags path mark n n') (sound : n.Sound) : n'.Sound := by
  induction n using Node.inner_induction generalizing n' with
  | step n ih =>
    refine Node.Throughout.of_inner (local_tagged isName tags sound.self) fun m' held => ?_
    obtain ⟨m, listed, tagged⟩ := inner_tagged tags held
    exact ih m listed tagged (Node.Throughout.inner sound listed)

theorem recasts_tagged {n n' : Node} (isName : Tag.IsName mark) (kind : n.kind = .other) (tags : Tags path mark n n') (sound : n.Sound) :
    Recasts n n' := by
  obtain ⟨count, rfl⟩ := tags
  cases n with
  | other loc ps =>
    refine .other (parts_related path mark (fun m listed count => ?_) count)
    have below : m.Sound := Node.Throughout.inner sound listed
    have tags : Tags path mark m (node path mark count m).1 := ⟨count, rfl⟩
    exact ⟨below.self, fun markup => ⟨tags.markup markup, (sound_tagged isName tags below).self⟩⟩
  | element | fragment | text | wrapper => cases kind

def Marked (mark : String) (n : Node) : Prop := n.kind = .element → some mark ∈ n.attributes.map Attribute.name?

theorem node_marked {n : Node} (marked : n.Throughout (Marked mark)) (count : Nat) : (node path mark count n).1 = n := by
  induction n using Node.inner_induction generalizing count with
  | step n ih =>
    have same : ∀ m ∈ n.inner, ∀ count, m = (node path mark count m).1 := fun m held count => (ih m held (marked.inner held) count).symm
    cases n with
    | element loc name attrs kids selfClosing =>
      have present : ¬ (Attribute.find? attrs mark).isNone := fun none => Attribute.find?_isNone.mp none (marked.self rfl)
      have inAttributes := Attribute.eq_of_related (attributes_related path mark (fun m held => same m (List.mem_append_left _ held)) (count + 1))
      have below : kids = (nodes path mark (attributes path mark (count + 1) attrs).2 kids).1 :=
        List.forall₂_eq_eq_eq ▸ nodes_related path mark (fun m held => same m (List.mem_append_right _ held)) _
      simp only [node, if_neg present, inAttributes, ← below]
    | fragment loc kids =>
      have below : kids = (nodes path mark count kids).1 := List.forall₂_eq_eq_eq ▸ nodes_related path mark same count
      simp only [node, ← below]
    | text => rfl
    | wrapper loc spread ps =>
      have inCode := eq_of_related (parts_related path mark same count)
      simp only [node, inCode]
    | other loc ps =>
      have inCode := eq_of_related (parts_related path mark same count)
      simp only [node, inCode]

end Annotate

namespace SourceTree

variable {mark : String} {t : SourceTree}

def Marked (mark : String) (t : SourceTree) : Prop := ∀ n ∈ t.nodes, Annotate.Marked mark n

theorem mem_statements {n : Node} (listed : n ∈ t.body.filterMap Part.node?) : n ∈ t.nodes :=
  Walk.mem_parts.mpr ⟨n, listed, Walk.mem_node n⟩

theorem annotate_marked (marked : t.Marked mark) (path : String) : t.annotate path mark = t := by
  have same : ∀ n ∈ t.body.filterMap Part.node?, ∀ count, n = (Annotate.node path mark count n).1 :=
    fun n listed count => (Annotate.node_marked (throughout marked n (mem_statements listed)) count).symm
  exact congrArg SourceTree.mk (eq_of_related (Annotate.parts_related path mark same 0))

theorem marked_annotate (t : SourceTree) (path mark : String) : (t.annotate path mark).Marked mark := by
  intro e' member kind
  have element : e' ∈ (t.annotate path mark).elements := List.mem_filter.mpr ⟨member, beq_iff_eq.mpr kind⟩
  obtain ⟨e, _, tagged⟩ := exists_of_forall₂ (t.annotate_elements path mark) element
  obtain ⟨attrs, names, same⟩ := tagged.attributes
  rw [same, List.map_append, names, List.mem_append]
  by_cases none : (Attribute.find? e.1.attributes mark).isNone
  · rw [if_pos none, List.map_singleton, Attribute.name?_ofText]
    exact .inr (List.mem_singleton_self _)
  · exact .inl (not_not.mp (mt Attribute.find?_isNone.mpr none))

theorem tagHead?_element {e : Node} (kind : e.kind = .element) : ∃ name, e.tagHead? = some ⟨name, e.attributes.map Attribute.name?⟩ := by
  cases e with
  | element loc name attrs kids selfClosing => exact ⟨name, rfl⟩
  | fragment | text | wrapper | other => cases kind

theorem marked_of_heads {t' : SourceTree} (same : t'.elements.map Node.tagHead? = t.elements.map Node.tagHead?) (marked : t.Marked mark) :
    t'.Marked mark := by
  intro e' member kind
  have element : e'.tagHead? ∈ t'.elements.map Node.tagHead? :=
    List.mem_map_of_mem (List.mem_filter.mpr ⟨member, beq_iff_eq.mpr kind⟩)
  rw [same] at element
  obtain ⟨e, listed, heads⟩ := List.mem_map.mp element
  obtain ⟨present, isElement⟩ := List.mem_filter.mp listed
  have isElement : e.kind = .element := beq_iff_eq.mp isElement
  obtain ⟨name, head⟩ := tagHead?_element isElement
  obtain ⟨name', head'⟩ := tagHead?_element kind
  rw [head, head', Option.some.injEq, TagHead.mk.injEq] at heads
  rw [← heads.2]
  exact marked e present isElement

theorem sound_annotate (isName : Tag.IsName mark) (sound : t.Sound) (path : String) : (t.annotate path mark).Sound := by
  have each : ∀ n ∈ t.body.filterMap Part.node?, n.Sound := fun n listed => throughout sound.inside n (mem_statements listed)
  have recast : List.Forall₂ (Part.Related Recasts) t.body (t.annotate path mark).body :=
    Annotate.parts_related path mark (fun n listed count =>
      Annotate.recasts_tagged isName (sound.settled.kind n listed).1 ⟨count, rfl⟩ (each n listed)) 0
  refine ⟨(settled_recast sound.settled recast).1, fun m' member => ?_⟩
  obtain ⟨n', listed', inside⟩ := Walk.mem_parts.mp member
  obtain ⟨n, listed, tags⟩ := mem_of_related (Annotate.tags_parts t.body 0) listed'
  exact Annotate.sound_tagged isName tags (each n listed) m' inside

end SourceTree

-- Tagging a tree again changes nothing, whatever path it is tagged with. What a tagged tree is printed as is read back
-- into a tree that tagging for any path leaves as that text.
theorem tagging_idempotent :
    (∀ (t : SourceTree) (path path' mark : String), (t.annotate path mark).annotate path' mark = t.annotate path mark) ∧
    ∀ (source : String) (t : SourceTree) (path mark : String), parse source = .ok t → Tag.IsName mark →
      ∃ t', parse (t.annotate path mark).print = .ok t' ∧ ∀ path', (t'.annotate path' mark).print = (t.annotate path mark).print := by
  refine ⟨fun t path path' mark => SourceTree.annotate_marked (t.marked_annotate path mark) path', ?_⟩
  intro source t path mark read isName
  obtain ⟨t', again, same, printed⟩ := parse_print (SourceTree.sound_annotate isName (parse_sound read) path)
  refine ⟨t', again, fun path' => ?_⟩
  have marked : t'.Marked mark := SourceTree.marked_of_heads (heads_of_reread same) (t.marked_annotate path mark)
  rw [SourceTree.annotate_marked marked path', printed]

def markedSource : String := "x = <a b=\x7b<i />\x7d><u t>\x7d</u></a>;"

def markedPrint : String := "x = <a b=\x7b<i t=\x7b\"it's \\\"a\\\":1\"\x7d />\x7d t=\x7b\"it's \\\"a\\\":0\"\x7d><u t>\x7b\"\x7d\"\x7d</u></a>;"

theorem tagging_idempotent_quoted :
    ∃ t, parse markedSource = .ok t ∧ Tag.IsName "t" ∧ (t.annotate "it's \"a\"" "t").print = markedPrint ∧
      (t.annotate "it's \"a\"" "t").annotate "b" "t" = t.annotate "it's \"a\"" "t" ∧
      ∃ t', parse (t.annotate "it's \"a\"" "t").print = .ok t' ∧
        ∀ path', (t'.annotate path' "t").print = (t.annotate "it's \"a\"" "t").print := by
  have printed : (parse markedSource).toOption.map (fun t => (t.annotate "it's \"a\"" "t").print) = some markedPrint := by decide +kernel
  have isName : Tag.IsName "t" := Tag.isName_iff.mpr rfl
  obtain ⟨onTrees, throughText⟩ := tagging_idempotent
  cases read : parse markedSource with
  | error e =>
    rw [read] at printed
    cases printed
  | ok t =>
    rw [read] at printed
    exact ⟨t, rfl, isName, Option.some.inj printed, onTrees t _ _ _, throughText _ t _ _ read isName⟩

end MarkupEditor
