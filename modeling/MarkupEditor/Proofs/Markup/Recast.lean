import Mathlib.Data.List.Forall2
import MarkupEditor.Proofs.Markup.Sound

namespace MarkupEditor

def Part.mapNode (f : Node → Node) : Part → Part
  | .code text => .code text
  | .node n => .node (f n)

theorem mapNode_id : Part.mapNode id = id := by
  funext p
  cases p <;> rfl

theorem filterMap_mapNode (f : Node → Node) (ps : List Part) :
    (ps.map (Part.mapNode f)).filterMap Part.node? = (ps.filterMap Part.node?).map f := by
  induction ps with
  | nil => rfl
  | cons p ps ih =>
    cases p with
    | code text =>
      simp only [List.map_cons, Part.mapNode, List.filterMap_cons, Part.node?]
      exact ih
    | node n =>
      simp only [List.map_cons, Part.mapNode, List.filterMap_cons, Part.node?, List.cons.injEq, true_and]
      exact ih

theorem lead_mapNode (f : Node → Node) (ps : List Part) : Part.lead (ps.map (Part.mapNode f)) = Part.lead ps := by
  cases ps with
  | nil => rfl
  | cons p ps => cases p <;> rfl

theorem exists_of_forall₂ {α β : Type} {R : α → β → Prop} {as : List α} {bs : List β} (related : List.Forall₂ R as bs) {b : β}
    (member : b ∈ bs) : ∃ a ∈ as, R a b := by
  induction related with
  | nil => cases member
  | @cons a b' as bs first _ ih =>
    cases List.mem_cons.mp member with
    | inl same => exact ⟨a, List.mem_cons_self, same ▸ first⟩
    | inr later =>
      obtain ⟨c, listed, held⟩ := ih later
      exact ⟨c, List.mem_cons_of_mem _ listed, held⟩

-- Parts of the same code, with nodes in a relation to one another.
inductive Part.Related (R : Node → Node → Prop) : Part → Part → Prop where
  | code (text : String) : Related R (.code text) (.code text)
  | node {n n' : Node} (related : R n n') : Related R (.node n) (.node n')

section

variable {R R' : Node → Node → Prop} {ps ps' : List Part}

theorem Part.Related.mono {p p' : Part} (related : Part.Related R p p') (weaker : ∀ n n', R n n' → R' n n') : Part.Related R' p p' := by
  cases related with
  | code text => exact .code text
  | node held => exact .node (weaker _ _ held)

theorem lead_of_related (related : List.Forall₂ (Part.Related R) ps ps') : Part.lead ps' = Part.lead ps := by
  cases related with
  | nil => rfl
  | cons first _ => cases first <;> rfl

theorem related_mapNode {f : Node → Node} (each : ∀ n ∈ ps.filterMap Part.node?, R n (f n)) :
    List.Forall₂ (Part.Related R) ps (ps.map (Part.mapNode f)) := by
  induction ps with
  | nil => exact .nil
  | cons p ps ih =>
    cases p with
    | code text => exact .cons (.code text) (ih each)
    | node n =>
      obtain ⟨first, later⟩ := List.forall_mem_cons.mp each
      exact .cons (.node first) (ih later)

theorem mem_of_related (related : List.Forall₂ (Part.Related R) ps ps') {n' : Node} (member : n' ∈ ps'.filterMap Part.node?) :
    ∃ n ∈ ps.filterMap Part.node?, R n n' := by
  induction related with
  | nil => cases member
  | cons first _ ih =>
    cases first with
    | code => exact ih member
    | node held =>
      rcases List.mem_cons.mp member with rfl | member
      · exact ⟨_, List.mem_cons_self, held⟩
      · obtain ⟨n, listed, held⟩ := ih member
        exact ⟨n, List.mem_cons_of_mem _ listed, held⟩

theorem related_ofCode {text : List Char} (related : List.Forall₂ (Part.Related R) (Part.ofCode text ++ ps) ps') :
    ∃ more, ps' = Part.ofCode text ++ more ∧ List.Forall₂ (Part.Related R) ps more := by
  cases text with
  | nil => exact ⟨ps', rfl, related⟩
  | cons c cs =>
    cases related with
    | cons first later =>
      cases first
      exact ⟨_, rfl, later⟩

theorem related_ofCode_only {text : List Char} (related : List.Forall₂ (Part.Related R) (Part.ofCode text) ps') : ps' = Part.ofCode text := by
  rw [← List.append_nil (Part.ofCode text)] at related
  obtain ⟨more, rfl, later⟩ := related_ofCode related
  cases later
  exact List.append_nil _

theorem related_embedded {text : List Char} {n : Node} (related : List.Forall₂ (Part.Related R) (Part.ofCode text ++ .node n :: ps) ps') :
    ∃ n' more, ps' = Part.ofCode text ++ .node n' :: more ∧ R n n' ∧ List.Forall₂ (Part.Related R) ps more := by
  obtain ⟨more, rfl, later⟩ := related_ofCode related
  cases later with
  | cons first later =>
    cases first with
    | node held => exact ⟨_, _, rfl, held, later⟩

end

theorem Coded.recast {e : CodeEnd} {E : Nat → Bool → List Char → Prop} {d : Nat} {a : Bool} {ps ps' : List Part} (coded : Coded e E d a ps)
    (related : List.Forall₂ (Part.Related fun n n' => n.isMarkup → n'.isMarkup) ps ps') : Coded e E d a ps' := by
  induction coded generalizing ps' with
  | last ends =>
    obtain rfl := related_ofCode_only related
    exact .last ends
  | embedded opens isMarkup _ ih =>
    obtain ⟨n', more, rfl, markup, later⟩ := related_embedded related
    exact .embedded opens (markup isMarkup) (ih later)

theorem Coded.mapNode {e : CodeEnd} {E : Nat → Bool → List Char → Prop} {d : Nat} {a : Bool} {ps : List Part} {f : Node → Node}
    (coded : Coded e E d a ps) (markup : ∀ n ∈ ps.filterMap Part.node?, n.isMarkup → (f n).isMarkup) :
    Coded e E d a (ps.map (Part.mapNode f)) :=
  coded.recast (related_mapNode markup)

theorem Coded.markup {e : CodeEnd} {E : Nat → Bool → List Char → Prop} {d : Nat} {a : Bool} {ps : List Part} (coded : Coded e E d a ps) :
    ∀ n ∈ ps.filterMap Part.node?, n.isMarkup := by
  induction coded with
  | @last d a text =>
    intro n member
    rw [filterMap_ofCode] at member
    cases member
  | @embedded d a text d' n ps opens isMarkup _ ih =>
    intro m member
    rw [List.filterMap_append, filterMap_ofCode, List.nil_append] at member
    have same : m = n ∨ m ∈ ps.filterMap Part.node? := by simpa [Part.node?] using member
    rcases same with rfl | member
    · exact isMarkup
    · exact ih m member

theorem Settled.kind {body : List Part} (settled : Settled body) :
    ∀ n ∈ body.filterMap Part.node?, n.kind = .other ∧ ∀ m ∈ n.inner, m.isMarkup := by
  induction settled with
  | done =>
    intro n member
    rw [filterMap_ofCode] at member
    cases member
  | @statement w loc ps more t _ _ coded _ ih =>
    intro n member
    rw [List.filterMap_append, filterMap_ofCode, List.nil_append] at member
    have same : n = .other loc ps ∨ n ∈ more.filterMap Part.node? := by simpa [Part.node?] using member
    rcases same with rfl | member
    · exact ⟨rfl, coded.markup⟩
    · exact ih n member

-- No statement is left where the text has ended, so nothing gives way to anything.
theorem Settled.ended {R : Node → Node → Prop} {body body' : List Part} (settled : Settled body)
    (ended : Code.next (Print.parts body) = none) (related : List.Forall₂ (Part.Related R) body body') : body' = body := by
  cases settled with
  | done => exact related_ofCode_only related
  | statement found =>
    simp only [Print.parts_append, Print.parts_ofCode, Print.parts, Print.part, Print.node] at ended
    rw [ended] at found
    cases found

def Swaps (n n' : Node) : Prop := n.Local ∧ (n.isMarkup → n'.isMarkup ∧ n'.Local)

-- A statement gives way to one with other markup in the same code.
inductive Recasts : Node → Node → Prop where
  | other {loc : Location} {ps ps' : List Part} (related : List.Forall₂ (Part.Related Swaps) ps ps') :
      Recasts (.other loc ps) (.other loc ps')

def Recast (f : Node → Node) : Node → Prop
  | .other loc ps => ∃ g, f (.other loc ps) = .other loc (ps.map (Part.mapNode g)) ∧
      ∀ n ∈ ps.filterMap Part.node?, n.Local ∧ (n.isMarkup → (g n).isMarkup ∧ (g n).Local)
  | _ => False

theorem Recast.recasts {f : Node → Node} {n : Node} (recast : Recast f n) : Recasts n (f n) := by
  cases n with
  | other loc ps =>
    obtain ⟨g, same, good⟩ := recast
    rw [same]
    exact .other (related_mapNode good)
  | element | fragment | text | wrapper => cases recast

theorem alike_recast {ps ps' more more' : List Part} (coded : Coded .statement (Code.Settles (Print.parts more)) 0 true ps)
    (related : List.Forall₂ (Part.Related Swaps) ps ps')
    (same : Code.next (Print.parts more) = none → Print.parts more' = Print.parts more) :
    Code.Alike (Print.parts ps ++ Print.parts more) (Print.parts ps' ++ Print.parts more') := by
  cases coded with
  | @last _ _ text ends =>
    obtain rfl := related_ofCode_only related
    rw [Print.parts_ofCode]
    obtain ⟨stop, rfl | rfl, ran⟩ := ends
    · refine .inr ⟨by simp [ran], Print.parts more', ?_⟩
      rw [ran]
      rfl
    · rw [same (Code.run_exhausted ran).2]
      exact .inl rfl
  | @embedded _ _ text d' n qs opens markup _ =>
    obtain ⟨n', qs', rfl, ⟨sound, good⟩, _⟩ := related_embedded related
    obtain ⟨markup', sound'⟩ := good markup
    obtain ⟨y, opened, starts⟩ := print_markup markup sound (Print.parts qs ++ Print.parts more)
    obtain ⟨y', opened', _⟩ := print_markup markup' sound' (Print.parts qs' ++ Print.parts more')
    simp only [Print.parts_append, Print.parts_ofCode, Print.parts, Print.part, List.append_assoc, opened, opened']
    refine .inr ⟨by simp [opens y starts], y', ?_⟩
    rw [opens y starts]
    rfl

theorem settled_recast {body body' : List Part} (settled : Settled body) (related : List.Forall₂ (Part.Related Recasts) body body') :
    Settled body' ∧ Code.endsLine (Print.parts body) = Code.endsLine (Print.parts body') := by
  induction settled generalizing body' with
  | done ended =>
    obtain rfl := related_ofCode_only related
    exact ⟨.done ended, rfl⟩
  | @statement w loc ps more t found skipped coded settled ih =>
    obtain ⟨n', more', rfl, recast, later⟩ := related_embedded related
    cases recast with
    | @other _ _ ps' swapped =>
      obtain ⟨settled', line⟩ := ih later
      have rest : Code.next (Print.parts more) = none → Print.parts more' = Print.parts more :=
        fun ended => by rw [settled.ended ended later]
      have alike := alike_recast coded swapped rest
      obtain ⟨t', again, skips⟩ := Code.next_alike found skipped alike
      have settles := coded.mono fun d a text (settles : Code.Settles (Print.parts more) d a text) =>
        settles.before line fun ended => (rest ended).symm
      have recoded : Coded .statement (Code.Settles (Print.parts more')) 0 true ps' :=
        settles.recast (swapped.imp fun _ _ part => part.mono fun _ _ swap markup => (swap.2 markup).1)
      refine ⟨.statement again skips recoded settled', ?_⟩
      simp only [Print.parts_append, Print.parts_ofCode, Print.parts, Print.part, Print.node]
      exact Code.endsLine_alike w alike

theorem settled_mapNode {body : List Part} {f : Node → Node} (settled : Settled body)
    (recast : ∀ n ∈ body.filterMap Part.node?, Recast f n) :
    Settled (body.map (Part.mapNode f)) ∧
      Code.endsLine (Print.parts body) = Code.endsLine (Print.parts (body.map (Part.mapNode f))) :=
  settled_recast settled (related_mapNode fun n member => (recast n member).recasts)

inductive Attribute.Related (R : Node → Node → Prop) : Attribute → Attribute → Prop where
  | flag (name : String) : Related R (.flag name) (.flag name)
  | string (name value : String) (quote : Quote) : Related R (.string name value quote) (.string name value quote)
  | expression (name : String) {ps ps' : List Part} (parts : List.Forall₂ (Part.Related R) ps ps') :
      Related R (.expression name ps) (.expression name ps')
  | spread {ps ps' : List Part} (parts : List.Forall₂ (Part.Related R) ps ps') : Related R (.spread ps) (.spread ps')

theorem Attribute.Related.mono {R R' : Node → Node → Prop} {a a' : Attribute} (related : Attribute.Related R a a')
    (weaker : ∀ n n', R n n' → R' n n') : Attribute.Related R' a a' := by
  have inCode : ∀ {ps ps' : List Part}, List.Forall₂ (Part.Related R) ps ps' → List.Forall₂ (Part.Related R') ps ps' :=
    fun parts => parts.imp fun _ _ p => p.mono weaker
  cases related with
  | flag name => exact .flag name
  | string name value quote => exact .string name value quote
  | expression name parts => exact .expression name (inCode parts)
  | spread parts => exact .spread (inCode parts)

theorem eq_of_related {ps ps' : List Part} (related : List.Forall₂ (Part.Related Eq) ps ps') : ps' = ps := by
  induction related with
  | nil => rfl
  | cons first _ ih =>
    cases first with
    | code text => exact congrArg (_ :: ·) ih
    | node same => exact congr (congrArg (fun n => List.cons (Part.node n)) same.symm) ih

namespace Attribute

variable {R : Node → Node → Prop} {attrs attrs' : List Attribute}

theorem eq_of_related (related : List.Forall₂ (Attribute.Related Eq) attrs attrs') : attrs' = attrs := by
  induction related with
  | nil => rfl
  | cons first _ ih =>
    cases first with
    | flag | string => exact congrArg (_ :: ·) ih
    | expression name parts => rw [ih, MarkupEditor.eq_of_related parts]
    | spread parts => rw [ih, MarkupEditor.eq_of_related parts]

theorem mem_of_related (related : List.Forall₂ (Attribute.Related R) attrs attrs') {n' : Node}
    (member : n' ∈ (attrs'.flatMap Attribute.parts).filterMap Part.node?) :
    ∃ n ∈ (attrs.flatMap Attribute.parts).filterMap Part.node?, R n n' := by
  induction related with
  | nil => cases member
  | @cons a a' attrs attrs' first _ ih =>
    have inFirst : n' ∈ a'.parts.filterMap Part.node? → ∃ n ∈ a.parts.filterMap Part.node?, R n n' := by
      intro member
      cases first with
      | flag | string => cases member
      | expression name parts => exact MarkupEditor.mem_of_related parts member
      | spread parts => exact MarkupEditor.mem_of_related parts member
    rw [List.flatMap_cons, List.filterMap_append, List.mem_append] at member
    rw [List.flatMap_cons, List.filterMap_append]
    cases member with
    | inl member =>
      obtain ⟨n, listed, held⟩ := inFirst member
      exact ⟨n, List.mem_append_left _ listed, held⟩
    | inr member =>
      obtain ⟨n, listed, held⟩ := ih member
      exact ⟨n, List.mem_append_right _ listed, held⟩

theorem sound_of_related (related : List.Forall₂ (Attribute.Related fun n n' => n.isMarkup → n'.isMarkup) attrs attrs')
    (sound : ∀ a ∈ attrs, a.Sound) : ∀ a ∈ attrs', a.Sound := by
  induction related with
  | nil => exact sound
  | cons first _ ih =>
    obtain ⟨own, later⟩ := List.forall_mem_cons.mp sound
    refine List.forall_mem_cons.mpr ⟨?_, ih later⟩
    cases first with
    | flag | string => exact own
    | expression name parts => exact ⟨own.1, own.2.recast parts⟩
    | spread parts => exact Coded.recast own parts

end Attribute

end MarkupEditor
