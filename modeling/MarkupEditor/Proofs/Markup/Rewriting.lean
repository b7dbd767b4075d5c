import MarkupEditor.Proofs.Markup.Literals
import MarkupEditor.Proofs.Markup.Recast

namespace MarkupEditor

namespace Rewrite

section

variable (f : Node → Node)

mutual

def node : Node → Node
  | .element loc name attrs kids selfClosing => f (.element loc name (attributes attrs) (nodes kids) selfClosing)
  | .fragment loc kids => f (.fragment loc (nodes kids))
  | .text loc value => f (.text loc value)
  | .wrapper loc spread expression => f (.wrapper loc spread (parts expression))
  | .other loc ps => f (.other loc (parts ps))

def nodes : List Node → List Node
  | [] => []
  | n :: ns => node n :: nodes ns

def part : Part → Part
  | .code text => .code text
  | .node n => .node (node n)

def parts : List Part → List Part
  | [] => []
  | p :: ps => part p :: parts ps

def attr : Attribute → Attribute
  | .flag name => .flag name
  | .string name value quote => .string name value quote
  | .expression name ps => .expression name (parts ps)
  | .spread ps => .spread (parts ps)

def attributes : List Attribute → List Attribute
  | [] => []
  | a :: rest => attr a :: attributes rest

end

def within : Node → Node
  | .element loc name attrs kids selfClosing => .element loc name (attributes f attrs) (nodes f kids) selfClosing
  | .fragment loc kids => .fragment loc (nodes f kids)
  | .text loc value => .text loc value
  | .wrapper loc spread expression => .wrapper loc spread (parts f expression)
  | .other loc ps => .other loc (parts f ps)

end

variable {f : Node → Node}

theorem node_eq (n : Node) : node f n = f (within f n) := by
  cases n <;> rfl

theorem nodes_eq (ns : List Node) : nodes f ns = ns.map (node f) := by
  induction ns with
  | nil => rfl
  | cons n ns ih => rw [nodes, ih, List.map_cons]

theorem parts_eq (ps : List Part) : parts f ps = ps.map (Part.mapNode (node f)) := by
  induction ps with
  | nil => rfl
  | cons p ps ih =>
    rw [parts, ih, List.map_cons]
    cases p <;> rfl

theorem kind_within (n : Node) : (within f n).kind = n.kind := by
  cases n <;> rfl

theorem parts_related {R : Node → Node → Prop} {ps : List Part} (each : ∀ n ∈ ps.filterMap Part.node?, R n (node f n)) :
    List.Forall₂ (Part.Related R) ps (parts f ps) := by
  rw [parts_eq]
  exact related_mapNode each

theorem attributes_related {R : Node → Node → Prop} {attrs : List Attribute}
    (each : ∀ n ∈ (attrs.flatMap Attribute.parts).filterMap Part.node?, R n (node f n)) :
    List.Forall₂ (Attribute.Related R) attrs (attributes f attrs) := by
  induction attrs with
  | nil => exact .nil
  | cons a attrs ih =>
    rw [List.flatMap_cons, List.filterMap_append] at each
    obtain ⟨own, later⟩ := List.forall_mem_append.mp each
    refine .cons ?_ (ih later)
    cases a with
    | flag name => exact .flag name
    | string name value quote => exact .string name value quote
    | expression name ps => exact .expression name (parts_related own)
    | spread ps => exact .spread (parts_related own)

theorem inner_within {n m' : Node} (held : m' ∈ (within f n).inner) : ∃ m ∈ n.inner, node f m = m' := by
  have inCode : ∀ {ps : List Part}, m' ∈ (parts f ps).filterMap Part.node? → ∃ m ∈ ps.filterMap Part.node?, node f m = m' := by
    intro ps member
    exact mem_of_related (parts_related fun _ _ => rfl) member
  have listed : ∀ {kids : List Node}, m' ∈ nodes f kids → ∃ m ∈ kids, node f m = m' := by
    intro kids member
    rw [nodes_eq] at member
    exact List.mem_map.mp member
  cases n with
  | element loc name attrs kids selfClosing =>
    cases List.mem_append.mp held with
    | inl inAttributes =>
      have related : List.Forall₂ (Attribute.Related fun m m' => node f m = m') attrs (attributes f attrs) :=
        attributes_related fun _ _ => rfl
      obtain ⟨m, inside, same⟩ := Attribute.mem_of_related related inAttributes
      exact ⟨m, List.mem_append_left _ inside, same⟩
    | inr below =>
      obtain ⟨m, inside, same⟩ := listed below
      exact ⟨m, List.mem_append_right _ inside, same⟩
  | fragment => exact listed held
  | text => cases held
  | wrapper => exact inCode held
  | other => exact inCode held

theorem node_same {n : Node} (same : n.Throughout fun m => f m = m) : node f n = n := by
  induction n using Node.inner_induction with
  | step n ih =>
    have inside : ∀ m ∈ n.inner, m = node f m := fun m held => (ih m held (same.inner held)).symm
    have below : ∀ {kids : List Node}, kids ⊆ n.inner → nodes f kids = kids := by
      intro kids held
      rw [nodes_eq]
      exact (List.map_congr_left fun m listed => (inside m (held listed)).symm).trans (List.map_id kids)
    rw [node_eq]
    cases n with
    | element loc name attrs kids selfClosing =>
      have tag := Attribute.eq_of_related (attributes_related fun m held => inside m (List.mem_append_left _ held))
      rw [within, tag, below (List.subset_append_right _ _)]
      exact same.self
    | fragment loc kids =>
      rw [within, below (show kids ⊆ _ from List.Subset.refl _)]
      exact same.self
    | text => exact same.self
    | wrapper loc spread ps =>
      rw [within, eq_of_related (parts_related inside)]
      exact same.self
    | other loc ps =>
      rw [within, eq_of_related (parts_related inside)]
      exact same.self

theorem attributes_same {attrs : List Attribute} (same : ∀ m ∈ Walk.attributes attrs, f m = m) : attributes f attrs = attrs := by
  refine Attribute.eq_of_related (attributes_related fun m held => (node_same fun k below => same k ?_).symm)
  exact Walk.mem_attributes.mpr ⟨m, held, below⟩

structure Faithful (f : Node → Node) : Prop where
  kind : ∀ n, (f n).kind = n.kind
  inner : ∀ n, (f n).inner ⊆ n.inner
  own : ∀ n, n.Local → (f n).Local
  statement : ∀ n, n.kind = .other → f n = n

namespace Faithful

variable (faithful : Faithful f)

include faithful

theorem kind_node (n : Node) : (node f n).kind = n.kind := by rw [node_eq, faithful.kind, kind_within]

theorem inner_node {n m' : Node} (held : m' ∈ (node f n).inner) : ∃ m ∈ n.inner, node f m = m' := by
  rw [node_eq] at held
  exact inner_within (faithful.inner _ held)

theorem throughout {L L' : Node → Prop} (each : ∀ m, L m → L' (node f m)) {n : Node} (holds : n.Throughout L) :
    (node f n).Throughout L' := by
  induction n using Node.inner_induction with
  | step n ih =>
    refine .of_inner (each n holds.self) fun m' held => ?_
    obtain ⟨m, inside, rfl⟩ := faithful.inner_node held
    exact ih m inside (holds.inner inside)

theorem local_within {n : Node} (own : n.Local) : (within f n).Local := by
  have markup : ∀ m m', node f m = m' → m.isMarkup → m'.isMarkup := by
    intro m m' same markup
    rwa [← same, Node.isMarkup, faithful.kind_node]
  have listed : ∀ {kids : List Node}, (∀ m ∈ kids, m.kind ≠ .other) → ∀ m' ∈ nodes f kids, m'.kind ≠ .other := by
    intro kids none m' member
    rw [nodes_eq] at member
    obtain ⟨m, inside, rfl⟩ := List.mem_map.mp member
    rw [faithful.kind_node]
    exact none m inside
  cases n with
  | element loc name attrs kids selfClosing =>
    obtain ⟨named, sound, none⟩ := own
    refine ⟨named, ?_, listed none⟩
    have related : List.Forall₂ (Attribute.Related fun m m' => node f m = m') attrs (attributes f attrs) :=
      attributes_related fun _ _ => rfl
    exact Attribute.sound_of_related (related.imp fun _ _ a => a.mono markup) sound
  | fragment loc kids => exact listed own
  | text | other => trivial
  | wrapper loc spread ps =>
    obtain ⟨coded, undotted⟩ := own
    have related : List.Forall₂ (Part.Related fun m m' => node f m = m') ps (parts f ps) := parts_related fun _ _ => rfl
    refine ⟨coded.recast (related.imp fun _ _ p => p.mono markup), fun single => ?_⟩
    rw [lead_of_related related]
    exact undotted single

theorem sound_node {n : Node} (sound : n.Sound) : (node f n).Sound := by
  refine faithful.throughout (fun m own => ?_) sound
  rw [node_eq]
  exact faithful.own _ (faithful.local_within own)

end Faithful

end Rewrite

def SourceTree.rewrite (f : Node → Node) (t : SourceTree) : SourceTree := ⟨Rewrite.parts f t.body⟩

theorem mem_rewritten {f : Node → Node} (faithful : Rewrite.Faithful f) {L L' : Node → Prop} (each : ∀ m, L m → L' (Rewrite.node f m))
    {t : SourceTree} (holds : ∀ n ∈ t.nodes, L n) : ∀ n ∈ (t.rewrite f).nodes, L' n := by
  intro n' member
  obtain ⟨s', listed', inside⟩ := Walk.mem_parts.mp member
  rw [SourceTree.rewrite, Rewrite.parts_eq, filterMap_mapNode] at listed'
  obtain ⟨s, listed, rfl⟩ := List.mem_map.mp listed'
  exact faithful.throughout each (fun k below => holds k (Walk.mem_parts.mpr ⟨s, listed, below⟩)) n' inside

theorem sound_rewrite {f : Node → Node} (faithful : Rewrite.Faithful f) {t : SourceTree} (sound : t.Sound) : (t.rewrite f).Sound := by
  constructor
  · rw [SourceTree.rewrite, Rewrite.parts_eq]
    refine (settled_mapNode sound.settled fun n listed => ?_).1
    have kind := (sound.settled.kind n listed).1
    have inside : ∀ m ∈ n.inner, m.Sound := by
      intro m held k below
      exact sound.inside k (Walk.mem_parts.mpr ⟨n, listed, Walk.mem_of_inner held below⟩)
    cases n with
    | other loc ps =>
      refine ⟨Rewrite.node f, ?_, fun m held => ⟨(inside m held).self, fun markup => ⟨?_, (faithful.sound_node (inside m held)).self⟩⟩⟩
      · rw [Rewrite.node_eq, faithful.statement _ (Rewrite.kind_within _), Rewrite.within, Rewrite.parts_eq]
      · rwa [Node.isMarkup, faithful.kind_node]
    | element | fragment | text | wrapper => cases kind
  · refine mem_rewritten faithful (fun m own => ?_) sound.inside
    rw [Rewrite.node_eq]
    exact faithful.own _ (faithful.local_within own)

namespace Node

-- Changes the node that was read from the same source as another one, and no other.
def only (source : Node) (change : Node → Node) (n : Node) : Node := if source.sameSource n then change n else n

def retext (value : String) : Node → Node
  | text loc _ => text loc value
  | n => n

end Node

namespace Attribute

def put (name : String) (a : Attribute) : List Attribute → List Attribute
  | [] => [a]
  | b :: rest => if b.name? == some name then a :: rest else b :: put name a rest

theorem setText_eq (name value : String) (attributes : List Attribute) : setText name value attributes = put name (ofText name value) attributes := by
  induction attributes with
  | nil => rfl
  | cons b rest ih => rw [setText, put, ih]

theorem put_put {name : String} {a b : Attribute} (named : b.name? = some name) (attributes : List Attribute) :
    put name a (put name b attributes) = put name a attributes := by
  have same : (b.name? == some name) = true := by simp [named]
  induction attributes with
  | nil => simp only [put, same, if_true]
  | cons c rest ih =>
    rw [put, put]
    split
    · rw [put, if_pos same]
    · rename_i other
      rw [put, if_neg other, ih]

theorem put_found {name : String} {a : Attribute} {attributes : List Attribute} (found : find? attributes name = some a) :
    put name a attributes = attributes := by
  induction attributes with
  | nil => cases found
  | cons b rest ih =>
    rw [find?, List.find?_cons] at found
    rw [put]
    split
    · rename_i named
      rw [named] at found
      rw [Option.some.inj found]
    · rename_i other
      rw [Bool.not_eq_true] at other
      rw [other] at found
      rw [ih found]

theorem mem_put {name : String} {a b : Attribute} {attributes : List Attribute} (member : b ∈ put name a attributes) :
    b = a ∨ b ∈ attributes := by
  induction attributes with
  | nil => exact .inl (List.mem_singleton.mp member)
  | cons c rest ih =>
    rw [put] at member
    split at member
    · exact (List.mem_cons.mp member).imp_right fun later => List.mem_cons_of_mem _ later
    · cases List.mem_cons.mp member with
      | inl same => exact .inr (same ▸ List.mem_cons_self)
      | inr later => exact (ih later).imp_right fun inside => List.mem_cons_of_mem _ inside

end Attribute

def Node.putAttribute (name : String) (a : Attribute) : Node → Node
  | element loc tag attrs kids selfClosing => element loc tag (a.put name attrs) kids selfClosing
  | n => n

namespace Rewrite

variable {change : Node → Node}

theorem Faithful.only (faithful : Faithful change) (source : Node) : Faithful (source.only change) := by
  constructor
  · intro n
    rw [Node.only]
    split
    · exact faithful.kind n
    · rfl
  · intro n
    rw [Node.only]
    split
    · exact faithful.inner n
    · exact List.Subset.refl _
  · intro n own
    rw [Node.only]
    split
    · exact faithful.own n own
    · exact own
  · intro n kind
    rw [Node.only, faithful.statement n kind, ite_self]

theorem faithful_retext (value : String) : Faithful (Node.retext value) := by
  constructor
  · intro n
    cases n <;> rfl
  · intro n
    cases n <;> exact List.Subset.refl _
  · intro n own
    cases n with
    | text => trivial
    | element | fragment | wrapper | other => exact own
  · intro n kind
    cases n with
    | other => rfl
    | element | fragment | text | wrapper => cases kind

theorem faithful_putAttribute (name : String) {a : Attribute} (sound : a.Sound) (empty : a.parts.filterMap Part.node? = []) :
    Faithful (Node.putAttribute name a) := by
  constructor
  · intro n
    cases n <;> rfl
  · intro n m held
    cases n with
    | element loc tag attrs kids selfClosing =>
      cases List.mem_append.mp held with
      | inl inTag =>
        obtain ⟨p, listed, node⟩ := List.mem_filterMap.mp inTag
        obtain ⟨b, member, inside⟩ := List.mem_flatMap.mp listed
        cases Attribute.mem_put member with
        | inl same =>
          have inOwn : m ∈ a.parts.filterMap Part.node? := List.mem_filterMap.mpr ⟨p, same ▸ inside, node⟩
          rw [empty] at inOwn
          cases inOwn
        | inr before => exact List.mem_append_left _ (List.mem_filterMap.mpr ⟨p, List.mem_flatMap.mpr ⟨b, before, inside⟩, node⟩)
      | inr below => exact List.mem_append_right _ below
    | fragment | text | wrapper | other => exact held
  · intro n own
    cases n with
    | element loc tag attrs kids selfClosing =>
      obtain ⟨named, good, kinds⟩ := own
      refine ⟨named, fun b member => ?_, kinds⟩
      cases Attribute.mem_put member with
      | inl same => exact same ▸ sound
      | inr before => exact good b before
    | fragment | text | wrapper | other => exact own
  · intro n kind
    cases n with
    | other => rfl
    | element | fragment | text | wrapper => cases kind

end Rewrite

end MarkupEditor
