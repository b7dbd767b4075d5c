import MarkupEditor.Proofs.Markup.Elements
import MarkupEditor.Proofs.Markup.Places

namespace MarkupEditor

-- Nodes in statements that start one after another, from one place on and before another.
structure StartsIn (low high : Nat) (ns : List Node) : Prop where
  lifted : ∀ n ∈ ns, n.kind ≠ .other
  within : ∀ n ∈ ns, low ≤ n.loc.start.offset ∧ n.loc.start.offset < high
  ascending : ns.Pairwise fun a b => a.loc.start.offset < b.loc.start.offset

namespace StartsIn

variable {low middle high : Nat} {ns more : List Node}

theorem nil (low high : Nat) : StartsIn low high [] := ⟨nofun, nofun, .nil⟩

theorem mono {low' high' : Nat} (starts : StartsIn low high ns) (lower : low' ≤ low) (higher : high ≤ high') : StartsIn low' high' ns := by
  refine ⟨starts.lifted, fun n member => ?_, starts.ascending⟩
  obtain ⟨above, below⟩ := starts.within n member
  exact ⟨Nat.le_trans lower above, Nat.lt_of_lt_of_le below higher⟩

theorem append (first : StartsIn low middle ns) (second : StartsIn middle high more) (before : low ≤ middle) (after : middle ≤ high) :
    StartsIn low high (ns ++ more) := by
  refine ⟨fun n member => ?_, fun n member => ?_, List.pairwise_append.mpr ⟨first.ascending, second.ascending, fun a left b right => ?_⟩⟩
  · exact (List.mem_append.mp member).elim (first.lifted n) (second.lifted n)
  · rcases List.mem_append.mp member with member | member
    · exact (first.mono (Nat.le_refl _) after).within n member
    · exact (second.mono before (Nat.le_refl _)).within n member
  · exact Nat.lt_of_lt_of_le (first.within a left).2 (second.within b right).1

theorem cons {n : Node} (starts : StartsIn middle high ns) (kind : n.kind ≠ .other) (place : n.loc.start.offset = low)
    (before : low < middle) (after : middle ≤ high) : StartsIn low high (n :: ns) := by
  have single : StartsIn low middle [n] := by
    refine ⟨?_, ?_, List.pairwise_singleton _ n⟩
    · exact fun m member => List.mem_singleton.mp member ▸ kind
    · intro m member
      rw [List.mem_singleton.mp member, place]
      exact ⟨Nat.le_refl _, before⟩
  exact single.append starts (Nat.le_of_lt before) after

end StartsIn

def Goal.Starts : (g : Goal) → Cursor → g.Output → Cursor → Prop
  | .parts .., c, ps, c' => StartsIn c.pos.offset c'.pos.offset (Walk.parts ps)
  | .markup start, c, n, c' => start.offset < c.pos.offset → StartsIn start.offset c'.pos.offset (Walk.node n)
  | .attributes, c, (attrs, _), c' => StartsIn c.pos.offset c'.pos.offset (Walk.attributes attrs)
  | .children _, c, kids, c' => StartsIn c.pos.offset c'.pos.offset (Walk.nodes kids)

theorem offset_moved (c : Cursor) (text rest : List Char) : (c.moved text rest).pos.offset = c.pos.offset + byteSize text :=
  Position.after_offset ..

theorem Position.offset_le_after (p : Position) (cs : List Char) : p.offset ≤ (p.after cs).offset := by
  rw [after_offset]
  exact Nat.le_add_right _ _

theorem StartsIn.after_text {start : Position} {text : List Char} {high : Nat} {ns : List Node}
    (starts : StartsIn (start.after text).offset high ns) (onward : (start.after text).offset ≤ high) :
    StartsIn start.offset high (Walk.nodes (Parse.textNode start text) ++ ns) := by
  unfold Parse.textNode
  split
  · exact starts.mono (start.offset_le_after text) (Nat.le_refl _)
  · rename_i nonempty
    refine starts.cons (n := .text ⟨start, start.after text⟩ (String.ofList text)) Kind.noConfusion rfl ?_ onward
    rw [Position.after_offset]
    exact Nat.lt_add_of_pos_right (byteSize_pos (by simpa using nonempty))

theorem reads_starts {g : Goal} {c c' : Cursor} {v : g.Output} (read : Reads g c v c') : g.Starts c v c' := by
  induction read with
  | finished | exhausted =>
    rw [Goal.Starts, Walk.parts_ofCode]
    exact .nil _ _
  | @embedded e d a c text d' mark rest n c₁ ps c₂ ran readNode readMore node more =>
    have marked : (c.pos.after text).offset < (c.moved (text ++ mark) rest).pos.offset := by
      rw [offset_moved, Position.after_offset, byteSize_append, (Code.run_markup ran).1]
      have : byteSize ['<'] = 1 := rfl
      omega
    have onward := (reads_moves readNode).offset_le
    have later := (reads_moves readMore).offset_le
    have both := (node marked).append more (Nat.le_of_lt (Nat.lt_of_lt_of_le marked onward)) later
    have walked : Walk.parts (Part.ofCode text ++ .node n :: ps) = Walk.node n ++ Walk.parts ps := by
      rw [Walk.parts_append, Walk.parts_ofCode, List.nil_append]
      rfl
    rw [Goal.Starts, walked]
    exact both.mono (c.pos.offset_le_after text) (Nat.le_refl _)
  | fragment opened readInside inside =>
    intro before
    have onward := (reads_moves readInside).offset_le
    rw [offset_moved] at onward
    exact StartsIn.cons inside Kind.noConfusion rfl (by rw [offset_moved]; omega) (by rw [offset_moved]; exact onward)
  | selfClosed named isName readTag tag =>
    intro before
    have past := (past_moves named).offset_le
    have onward := (reads_moves readTag).offset_le
    rw [Walk.node, Walk.nodes, List.append_nil]
    exact StartsIn.cons tag Kind.noConfusion rfl (Nat.lt_of_lt_of_le before past) onward
  | element named isName readTag readInside tag inside =>
    intro before
    have past := (past_moves named).offset_le
    have onward := (reads_moves readTag).offset_le
    have later := (reads_moves readInside).offset_le
    exact StartsIn.cons (StartsIn.append tag inside onward later) Kind.noConfusion rfl (Nat.lt_of_lt_of_le before past)
      (Nat.le_trans onward later)
  | flag named _ _ _ more => exact StartsIn.mono more (past_moves named).offset_le (Nat.le_refl _)
  | string v _ _ more => exact StartsIn.mono more v.moves.offset_le (Nat.le_refl _)
  | expression v _ readCode readMore code more =>
    have both := StartsIn.append code more (reads_moves readCode).offset_le (reads_moves readMore).offset_le
    exact both.mono v.moves.offset_le (Nat.le_refl _)
  | spread found _ dotted readCode readMore code more =>
    have both := StartsIn.append code more (reads_moves readCode).offset_le (reads_moves readMore).offset_le
    refine both.mono ?_ (Nat.le_refl _)
    exact ((past_moves found).trans (Cursor.moves_moved (Parse.spreadDots?_append dotted))).offset_le
  | slash | close => exact .nil _ _
  | @closing name c text after c₁ plain tag =>
    have onward := tag.moves.offset_le
    rw [offset_moved, byteSize_append] at onward
    rw [Goal.Starts, ← List.append_nil (Walk.nodes _)]
    exact StartsIn.after_text (.nil _ _) (by rw [Position.after_offset]; omega)
  | @wrapper name c text inside ps c₁ kids c₂ plain readCode readMore code more =>
    have opened : (c.pos.after text).offset < (c.moved (text ++ '{' :: (braceHead inside).2.1) (braceHead inside).2.2).pos.offset := by
      rw [offset_moved, Position.after_offset, byteSize_append, byteSize_cons]
      have := Char.utf8Size_pos '{'
      omega
    have onward := (reads_moves readCode).offset_le
    have later := (reads_moves readMore).offset_le
    have both := StartsIn.append code more onward later
    have whole := both.cons (n := .wrapper ⟨c.pos.after text, c₁.pos⟩ (braceHead inside).1 ps) Kind.noConfusion rfl opened
      (Nat.le_trans onward later)
    rw [Goal.Starts, Walk.nodes_append]
    exact whole.after_text (Nat.le_trans (Nat.le_of_lt opened) (Nat.le_trans onward later))
  | @child name c text after n c₁ kids c₂ plain starts readNode readMore node more =>
    have opened : (c.pos.after text).offset < (c.moved (text ++ ['<']) after).pos.offset := by
      rw [offset_moved, Position.after_offset, byteSize_append]
      have : byteSize ['<'] = 1 := rfl
      omega
    have onward := (reads_moves readNode).offset_le
    have later := (reads_moves readMore).offset_le
    have before := Nat.le_trans (Nat.le_of_lt opened) onward
    have both := (node opened).append more before later
    rw [Goal.Starts, Walk.nodes_append]
    exact both.after_text (Nat.le_trans before later)

theorem walk_statement (skipped : List Char) (loc : Location) (ps more : List Part) :
    Walk.parts (Part.ofCode skipped ++ .node (.other loc ps) :: more) = .other loc ps :: (Walk.parts ps ++ Walk.parts more) := by
  rw [Walk.parts_append, Walk.parts_ofCode, List.nil_append]
  rfl

theorem readsBody_starts {c : Cursor} {ps : List Part} (read : ReadsBody c ps) :
    ∃ stop, StartsIn c.pos.offset stop ((Walk.parts ps).filter (·.kind != .other)) := by
  induction read with
  | done =>
    rw [Walk.parts_ofCode]
    exact ⟨0, .nil _ _⟩
  | @statement c t ps c₁ more found code _ ih =>
    obtain ⟨stop, later⟩ := ih
    have inside : StartsIn (c.moved t.skipped t.ahead).pos.offset c₁.pos.offset (Walk.parts ps) := reads_starts code
    have onward := (reads_moves code).offset_le
    have skipped : c.pos.offset ≤ (c.moved t.skipped t.ahead).pos.offset := c.pos.offset_le_after t.skipped
    have kept : (Walk.parts ps).filter (·.kind != .other) = Walk.parts ps :=
      List.filter_eq_self.mpr fun n member => by simpa using inside.lifted n member
    refine ⟨max c₁.pos.offset stop, ?_⟩
    rw [walk_statement, List.filter_cons_of_neg (by simp [Node.kind]), List.filter_append, kept]
    exact (inside.mono skipped (Nat.le_refl _)).append (later.mono (Nat.le_refl _) (Nat.le_max_right ..)) (Nat.le_trans skipped onward)
      (Nat.le_max_left ..)

theorem readsBody_statements {c : Cursor} {ps : List Part} (read : ReadsBody c ps) :
    (Walk.parts ps).filter (·.kind == .other) = ps.filterMap Part.node? := by
  induction read with
  | done => rw [Walk.parts_ofCode, filterMap_ofCode, List.filter_nil]
  | @statement c t ps c₁ more found code _ ih =>
    have inside : StartsIn (c.moved t.skipped t.ahead).pos.offset c₁.pos.offset (Walk.parts ps) := reads_starts code
    have none : (Walk.parts ps).filter (·.kind == .other) = [] :=
      List.filter_eq_nil_iff.mpr fun n member => by simpa using inside.lifted n member
    rw [walk_statement, List.filter_cons_of_pos (by simp [Node.kind]), List.filter_append, none, List.nil_append, ih, List.filterMap_append,
      filterMap_ofCode]
    rfl

-- A statement may start where the first node in it does. It is told from it by its kind.
theorem parse_nodes_apart {source : String} {t : SourceTree} (read : parse source = .ok t) :
    t.nodes.Pairwise fun a b => a.sameSource b = false := by
  have body := parse_eq_ok_iff.mp read
  obtain ⟨_, starts⟩ := readsBody_starts body
  have lifted := List.pairwise_filter.mp starts.ascending
  have statements := (readsBody_placed body).1.2
  rw [← readsBody_statements body] at statements
  refine ((List.pairwise_filter.mp statements).and lifted).imp ?_
  rintro a b ⟨both, neither⟩
  by_contra same
  simp only [Node.sameSource, Bool.not_eq_false, Bool.and_eq_true, beq_iff_eq] at same
  obtain ⟨loc, kind⟩ := same
  have before : a.loc.start.offset < b.loc.start.offset := by
    by_cases other : a.kind = .other
    · exact both (by simp [other]) (by simp [← kind, other])
    · exact neither (by simp [other]) (by simp [← kind, other])
  rw [loc] at before
  exact Nat.lt_irrefl _ before

end MarkupEditor
