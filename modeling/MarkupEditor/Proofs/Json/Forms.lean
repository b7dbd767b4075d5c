import Mathlib.Algebra.Group.Nat.Defs
import MarkupEditor.Markup.TreeJson
import MarkupEditor.Outline
import MarkupEditor.Proofs.Markup.Nesting
import MarkupEditor.Proofs.Store.Contents

namespace MarkupEditor

theorem mapM_map_eq_some {α β : Type} {write : α → β} {read : β → Option α} {as : List α}
    (each : ∀ a ∈ as, read (write a) = some a) : (as.map write).mapM read = some as := by
  induction as with
  | nil => rfl
  | cons a as ih =>
    obtain ⟨first, later⟩ := List.forall_mem_cons.mp each
    rw [List.map_cons, List.mapM_cons, first, ih later]
    rfl

namespace Json

theorem member?_of_mem {members : List (String × Json)} (distinct : (members.map Prod.fst).Nodup) {name : String} {j : Json}
    (listed : (name, j) ∈ members) : member? name members = some j := by
  have turned : (members.reverse.map Prod.fst).Nodup := by
    rw [List.map_reverse]
    exact (List.reverse_perm _).nodup_iff.mpr distinct
  exact (Store.find?_eq_some_iff turned name j).mpr (List.mem_reverse.mpr listed)

theorem fields?_zip (names : List String) (values : List Json) (before : List (String × Json))
    (distinct : (before.map Prod.fst ++ names).Nodup) (all : names.length = values.length) :
    (object (before ++ names.zip values)).fields? names = some (values.map some) := by
  have keys : ((before ++ names.zip values).map Prod.fst).Nodup := by
    rwa [List.map_append, List.map_fst_zip (Nat.le_of_eq all)]
  have each : (names.zip values).map (fun m => member? m.1 (before ++ names.zip values)) = (names.zip values).map (fun m => some m.2) :=
    List.map_congr_left fun m listed => member?_of_mem keys (List.mem_append_right _ listed)
  have found : names.map (member? · (before ++ names.zip values)) = values.map some := by
    calc names.map (member? · (before ++ names.zip values))
        = ((names.zip values).map Prod.fst).map (member? · (before ++ names.zip values)) := by rw [List.map_fst_zip (Nat.le_of_eq all)]
      _ = (names.zip values).map fun m => member? m.1 (before ++ names.zip values) := List.map_map
      _ = (names.zip values).map fun m => some m.2 := each
      _ = ((names.zip values).map Prod.snd).map some := List.map_map.symm
      _ = values.map some := by rw [List.map_snd_zip (Nat.le_of_eq all.symm)]
  exact congrArg some found

theorem depth_le_items {items : List Json} {j : Json} (listed : j ∈ items) : j.depth ≤ depthItems items := by
  induction items with
  | nil => cases listed
  | cons i items ih =>
    cases List.mem_cons.mp listed with
    | inl same => exact same ▸ Nat.le_max_left ..
    | inr later => exact Nat.le_trans (ih later) (Nat.le_max_right ..)

theorem depth_le_members {members : List (String × Json)} {m : String × Json} (listed : m ∈ members) : m.2.depth ≤ depthMembers members := by
  induction members with
  | nil => cases listed
  | cons k members ih =>
    cases List.mem_cons.mp listed with
    | inl same => exact same ▸ Nat.le_max_left ..
    | inr later => exact Nat.le_trans (ih later) (Nat.le_max_right ..)

theorem depth_lt_array {items : List Json} {j : Json} (listed : j ∈ items) : j.depth < (array items).depth :=
  Nat.lt_succ_of_le (depth_le_items listed)

theorem depth_lt_object {members : List (String × Json)} (name : String) {j : Json} (listed : (name, j) ∈ members) :
    j.depth < (object members).depth :=
  Nat.lt_succ_of_le (depth_le_members listed)

theorem natUpTo?_nat (bound : Nat) {n : Nat} (small : n ≤ bound) : (nat n).natUpTo? bound = some n := by
  simp [nat, natUpTo?, small]

end Json

structure Position.Fits (p : Position) : Prop where
  offset : p.offset < 2 ^ 64
  line : p.line < 2 ^ 32
  column : p.column < 2 ^ 32

structure Location.Fits (l : Location) : Prop where
  start : l.start.Fits
  stop : l.stop.Fits

theorem Position.ofJson?_json {p : Position} (fits : p.Fits) : ofJson? p.json = some p := by
  have offset := Json.natUpTo?_nat Text.largest64 (Nat.le_of_lt_succ fits.offset)
  have line := Json.natUpTo?_nat Text.largest32 (Nat.le_of_lt_succ fits.line)
  have column := Json.natUpTo?_nat Text.largest32 (Nat.le_of_lt_succ fits.column)
  have fields : p.json.fields? ["offset", "line", "column"] = some [some (.nat p.offset), some (.nat p.line), some (.nat p.column)] :=
    Json.fields?_zip ["offset", "line", "column"] [.nat p.offset, .nat p.line, .nat p.column] [] (by decide) rfl
  simp only [ofJson?, fields, Option.bind_eq_bind, Option.bind_some, offset, line, column]
  rfl

theorem Location.ofJson?_json {l : Location} (fits : l.Fits) : ofJson? l.json = some l := by
  have fields : l.json.fields? ["start", "end"] = some [some l.start.json, some l.stop.json] :=
    Json.fields?_zip ["start", "end"] [l.start.json, l.stop.json] [] (by decide) rfl
  simp only [ofJson?, fields, Option.bind_eq_bind, Option.bind_some, Position.ofJson?_json fits.start, Position.ofJson?_json fits.stop]
  rfl

theorem Quote.ofJson?_json (q : Quote) : ofJson? q.json = some q := by
  cases q <;> rfl

namespace TreeJson

theorem nodes_eq (ns : List Node) : nodes ns = ns.map node := by
  induction ns with
  | nil => rfl
  | cons n ns ih => exact congrArg (node n :: ·) ih

theorem parts_eq (ps : List Part) : parts ps = ps.map part := by
  induction ps with
  | nil => rfl
  | cons p ps ih => exact congrArg (part p :: ·) ih

theorem attributes_eq (attrs : List Attribute) : attributes attrs = attrs.map attr := by
  induction attrs with
  | nil => rfl
  | cons a attrs ih => exact congrArg (attr a :: ·) ih

theorem tagged_fields (kinds : List String) (standing : Standing) (kind : String) (names : List String) (values : List Json) {j : Json}
    (distinct : ("type" :: names).Nodup) (all : names.length = values.length) (same : j = .object (("type", .string kind) :: names.zip values)) :
    tagged? kinds standing j = some (kind, j) ∧ j.fields? names = some (values.map some) := by
  subst same
  have keys : ((("type", Json.string kind) :: names.zip values).map Prod.fst).Nodup := by
    rwa [List.map_cons, List.map_fst_zip (Nat.le_of_eq all)]
  have found : Json.member? "type" (("type", .string kind) :: names.zip values) = some (.string kind) :=
    Json.member?_of_mem keys List.mem_cons_self
  refine ⟨?_, Json.fields?_zip names values [("type", .string kind)] distinct all⟩
  simp only [tagged?, found, Option.bind_eq_bind, Option.bind_some]
  cases standing <;> rfl

def Reads (n : Node) : Prop := ∀ standing fuel, (node n).depth < fuel → node? standing fuel (node n) = some n

theorem parts_read (ps : List Part) (each : ∀ n ∈ ps.filterMap Part.node?, Reads n) {standing : Standing} {fuel : Nat}
    (deep : (Json.array (parts ps)).depth ≤ fuel) : (parts ps).mapM (part? standing fuel) = some ps := by
  rw [parts_eq] at deep ⊢
  refine mapM_map_eq_some fun p listed => ?_
  have below : (part p).depth < fuel := Nat.lt_of_lt_of_le (Json.depth_lt_array (List.mem_map_of_mem listed)) deep
  cases fuel with
  | zero => cases below
  | succ fuel =>
    cases p with
    | code text => rfl
    | node n =>
      have inside : (node n).depth < (part (.node n)).depth := Json.depth_lt_object "Node" (List.mem_singleton_self _)
      have read := each n (List.mem_filterMap.mpr ⟨_, listed, rfl⟩) standing fuel (by omega)
      simp only [part, part?, read]
      rfl

theorem nodes_read (ns : List Node) (each : ∀ n ∈ ns, Reads n) {standing : Standing} {fuel : Nat}
    (deep : (Json.array (nodes ns)).depth ≤ fuel) : (nodes ns).mapM (node? standing fuel) = some ns := by
  rw [nodes_eq] at deep ⊢
  refine mapM_map_eq_some fun n listed => ?_
  exact each n listed standing fuel (Nat.lt_of_lt_of_le (Json.depth_lt_array (List.mem_map_of_mem listed)) deep)

theorem named_read (fuel : Nat) (name : String) (value : Json) :
    attr? (fuel + 1) (.object [("type", .string "Named"), ("name", .string name), ("value", value)]) = value? fuel name value := by
  have distinct : (["type", "name", "value"] : List String).Nodup := by decide
  obtain ⟨kind, _⟩ := tagged_fields attributeKinds .inside "Named" ["name", "value"] [.string name, value] distinct rfl rfl
  have named : Json.member? "name" [("type", .string "Named"), ("name", .string name), ("value", value)] = some (.string name) :=
    Json.member?_of_mem (by exact distinct) (by simp)
  have valued : Json.member? "value" [("type", .string "Named"), ("name", .string name), ("value", value)] = some value :=
    Json.member?_of_mem (by exact distinct) (by simp)
  simp only [List.zip_cons_cons, List.zip_nil_right] at kind
  simp only [attr?, kind, Option.bind_eq_bind, Option.bind_some, named, valued, Json.string?, Option.getD_some]

theorem quoted_read (fuel : Nat) (name value : String) (quote : Quote) :
    value? (fuel + 1) name (.object [("String", .object [("value", .string value), ("quote", quote.json)])]) =
      some (.string name value quote) := by
  have fields : (Json.object [("value", .string value), ("quote", quote.json)]).fields? ["value", "quote"] =
      some [some (.string value), some quote.json] :=
    Json.fields?_zip ["value", "quote"] [.string value, quote.json] [] (by decide) rfl
  simp only [value?, fields, Option.bind_eq_bind, Option.bind_some, Json.string?, Quote.ofJson?_json]
  rfl

theorem code_read {ps : List Part} (each : ∀ n ∈ ps.filterMap Part.node?, Reads n) {fuel : Nat}
    (deep : (Json.array (parts ps)).depth ≤ fuel) (name : String) :
    value? (fuel + 1) name (.object [("Expression", .array (parts ps))]) = some (.expression name ps) := by
  simp only [value?, Json.array?, Option.bind_eq_bind, Option.bind_some, parts_read _ each deep]
  rfl

theorem attr_read (a : Attribute) (each : ∀ n ∈ a.parts.filterMap Part.node?, Reads n) {fuel : Nat} (deep : (attr a).depth < fuel) :
    attr? fuel (attr a) = some a := by
  have object : 0 < (attr a).depth := by cases a <;> exact Nat.succ_pos _
  obtain ⟨fuel, rfl⟩ : ∃ more, fuel = more + 2 := ⟨fuel - 2, by omega⟩
  cases a with
  | flag name =>
    rw [attr, named_read]
    rfl
  | string name value quote => rw [attr, named_read, quoted_read]
  | expression name ps =>
    have bounded : (Json.array (parts ps)).depth ≤ fuel := by
      simp only [attr, Json.depth, Json.depthMembers] at deep ⊢
      omega
    rw [attr, named_read]
    exact code_read each bounded name
  | spread ps =>
    have bounded : (Json.array (parts ps)).depth ≤ fuel + 1 := by
      simp only [attr, Json.depth, Json.depthMembers] at deep ⊢
      omega
    have read : (parts ps).mapM (part? .inside (fuel + 1)) = some ps := parts_read ps each bounded
    obtain ⟨kind, fields⟩ := tagged_fields attributeKinds .inside "Spread" ["expression"] [.array (parts ps)] (by decide) rfl rfl
    simp only [List.zip_cons_cons, List.zip_nil_right] at kind fields
    simp only [attr, attr?, kind, fields, List.map_cons, List.map_nil, Json.array?, Option.bind_eq_bind, Option.bind_some, read]
    rfl

theorem attributes_read {attrs : List Attribute} (each : ∀ n ∈ (attrs.flatMap Attribute.parts).filterMap Part.node?, Reads n) {fuel : Nat}
    (deep : (Json.array (attributes attrs)).depth ≤ fuel) : (attributes attrs).mapM (attr? fuel) = some attrs := by
  rw [attributes_eq] at deep ⊢
  refine mapM_map_eq_some fun a listed => attr_read a (fun n held => each n ?_) ?_
  · obtain ⟨p, inside, same⟩ := List.mem_filterMap.mp held
    exact List.mem_filterMap.mpr ⟨p, List.mem_flatMap.mpr ⟨a, listed, inside⟩, same⟩
  · exact Nat.lt_of_lt_of_le (Json.depth_lt_array (List.mem_map_of_mem listed)) deep

theorem located_fields (loc : Location) (kind : List (String × Json)) :
    (node.located loc kind).fields? ["loc", "kind"] = some [some loc.json, some (.object kind)] :=
  Json.fields?_zip ["loc", "kind"] [loc.json, .object kind] [] (by decide) rfl

theorem node_read {n : Node} (fits : n.Throughout fun m => m.loc.Fits) : Reads n := by
  induction n using Node.inner_induction with
  | step n ih =>
    have below : ∀ m ∈ n.inner, Reads m := fun m held => ih m held (fits.inner held)
    have place : Location.ofJson? n.loc.json = some n.loc := Location.ofJson?_json fits.self
    intro standing fuel deep
    obtain ⟨fuel, rfl⟩ : ∃ more, fuel = more + 1 := ⟨fuel - 1, by omega⟩
    cases n with
    | element loc name attrs kids selfClosing =>
      simp only [Node.loc] at place
      have inTag : (attributes attrs).mapM (attr? fuel) = some attrs := by
        refine attributes_read (fun m held => below m (List.mem_append_left _ held)) ?_
        simp only [node, node.located, Json.depth, Json.depthMembers] at deep ⊢
        omega
      have inside : (nodes kids).mapM (node? .inside fuel) = some kids := by
        refine nodes_read kids (fun m held => below m (List.mem_append_right _ held)) ?_
        simp only [node, node.located, Json.depth, Json.depthMembers] at deep ⊢
        omega
      obtain ⟨kind, fields⟩ := tagged_fields nodeKinds standing "Element" ["name", "attributes", "children", "self_closing"]
        [.string name, .array (attributes attrs), .array (nodes kids), .bool selfClosing] (by decide) rfl rfl
      simp only [List.zip_cons_cons, List.zip_nil_right, List.map_cons, List.map_nil] at kind fields
      simp only [node, node?, located_fields, place, kind, fields, Json.string?, Json.array?, Json.bool?, inTag, inside,
        Option.bind_eq_bind, Option.bind_some]
      rfl
    | fragment loc kids =>
      simp only [Node.loc] at place
      have inside : (nodes kids).mapM (node? .inside fuel) = some kids := by
        refine nodes_read kids below ?_
        simp only [node, node.located, Json.depth, Json.depthMembers] at deep ⊢
        omega
      obtain ⟨kind, fields⟩ := tagged_fields nodeKinds standing "Fragment" ["children"] [.array (nodes kids)] (by decide) rfl rfl
      simp only [List.zip_cons_cons, List.zip_nil_right, List.map_cons, List.map_nil] at kind fields
      simp only [node, node?, located_fields, place, kind, fields, Json.array?, inside, Option.bind_eq_bind, Option.bind_some]
      rfl
    | text loc value =>
      simp only [Node.loc] at place
      obtain ⟨kind, fields⟩ := tagged_fields nodeKinds standing "Text" ["value"] [.string value] (by decide) rfl rfl
      simp only [List.zip_cons_cons, List.zip_nil_right, List.map_cons, List.map_nil] at kind fields
      simp only [node, node?, located_fields, place, kind, fields, Json.string?, Option.bind_eq_bind, Option.bind_some]
      rfl
    | wrapper loc spread ps =>
      simp only [Node.loc] at place
      have inCode : (parts ps).mapM (part? .inside fuel) = some ps := by
        refine parts_read ps below ?_
        simp only [node, node.located, Json.depth, Json.depthMembers] at deep ⊢
        omega
      obtain ⟨kind, fields⟩ := tagged_fields nodeKinds standing "Wrapper" ["spread", "expression"] [.bool spread, .array (parts ps)] (by decide) rfl rfl
      simp only [List.zip_cons_cons, List.zip_nil_right, List.map_cons, List.map_nil] at kind fields
      simp only [node, node?, located_fields, place, kind, fields, Json.array?, Json.bool?, inCode, Option.bind_eq_bind, Option.bind_some]
      rfl
    | other loc ps =>
      simp only [Node.loc] at place
      have inCode : (parts ps).mapM (part? .inside fuel) = some ps := by
        refine parts_read ps below ?_
        simp only [node, node.located, Json.depth, Json.depthMembers] at deep ⊢
        omega
      obtain ⟨kind, fields⟩ := tagged_fields nodeKinds standing "Other" ["parts"] [.array (parts ps)] (by decide) rfl rfl
      simp only [List.zip_cons_cons, List.zip_nil_right, List.map_cons, List.map_nil] at kind fields
      simp only [node, node?, located_fields, place, kind, fields, Json.array?, inCode, Option.bind_eq_bind, Option.bind_some]
      rfl

end TreeJson

theorem Node.ofJson?_json {n : Node} (fits : n.Throughout fun m => m.loc.Fits) : ofJson? (TreeJson.node n) = some n :=
  TreeJson.node_read fits .alone _ (Nat.lt_succ_self _)

theorem SourceTree.ofJson?_json {t : SourceTree} (fits : ∀ n ∈ t.nodes, n.loc.Fits) : ofJson? t.json = some t := by
  have each : ∀ n ∈ t.body.filterMap Part.node?, TreeJson.Reads n := fun n listed =>
    TreeJson.node_read (throughout fits n (Walk.mem_parts.mpr ⟨n, listed, Walk.mem_node n⟩))
  have deep : (Json.array (TreeJson.parts t.body)).depth ≤ t.json.depth + 1 :=
    Nat.le_succ_of_le (Nat.le_of_lt (Json.depth_lt_object "body" (List.mem_singleton_self _)))
  have read : (TreeJson.parts t.body).mapM (TreeJson.part? .alone (t.json.depth + 1)) = some t.body := TreeJson.parts_read _ each deep
  have fields : t.json.fields? ["body"] = some [some (.array (TreeJson.parts t.body))] :=
    Json.fields?_zip ["body"] [.array (TreeJson.parts t.body)] [] (by decide) rfl
  simp only [ofJson?, fields, Json.array?, Option.bind_eq_bind, Option.bind_some, read]
  rfl

namespace Outline

theorem fields_json (id label : String) (children : List Outline) :
    (json (mk id label children)).fields? ["id", "label", "children"] =
      some [some (.string id), some (.string label), if children.isEmpty then none else some (.array (jsonList children))] := by
  cases children with
  | nil => rfl
  | cons o os =>
    exact Json.fields?_zip ["id", "label", "children"] [.string id, .string label, .array (jsonList (o :: os))] []
      (by decide) rfl

mutual

theorem read?_json : ∀ (o : Outline) (fuel : Nat), o.json.depth < fuel → read? fuel o.json = some o
  | mk id label [], fuel + 1, _ => by
    simp only [read?, fields_json, List.isEmpty_nil, if_true, Json.string?, Option.bind_eq_bind, Option.bind_some]
    rfl
  | mk id label (o :: os), fuel + 1, deep => by
    have below : (Json.array (jsonList (o :: os))).depth ≤ fuel := by
      have listed : (Json.array (jsonList (o :: os))).depth < (json (mk id label (o :: os))).depth :=
        Json.depth_lt_object "children" (by simp)
      omega
    have read : (jsonList (o :: os)).mapM (read? fuel) = some (o :: os) := read?_jsonList (o :: os) fuel below
    simp only [read?, fields_json, List.isEmpty_cons, Bool.false_eq_true, if_false, Json.string?, Json.array?, read, Option.bind_eq_bind, Option.bind_some]
    rfl

theorem read?_jsonList : ∀ (os : List Outline) (fuel : Nat), (Json.array (jsonList os)).depth ≤ fuel → (jsonList os).mapM (read? fuel) = some os
  | [], _, _ => rfl
  | o :: os, fuel, deep => by
    have first : o.json.depth < fuel := Nat.lt_of_lt_of_le (Json.depth_lt_array (List.mem_cons_self : o.json ∈ jsonList (o :: os))) deep
    have later : (Json.array (jsonList os)).depth ≤ fuel := Nat.le_trans (Nat.succ_le_succ (Nat.le_max_right ..)) deep
    rw [jsonList, List.mapM_cons, read?_json o fuel first, read?_jsonList os fuel later]
    rfl

end

theorem ofJson?_json (o : Outline) : ofJson? o.json = some o := read?_json o _ (Nat.lt_succ_self _)

end Outline

end MarkupEditor
