import Mathlib.Data.List.Pairwise
import MarkupEditor.Proofs.Markup.Sound

namespace MarkupEditor

-- No two nodes in the code stand for the same piece of source.
def Part.Distinct (ps : List Part) : Prop := (ps.filterMap Part.node?).Pairwise fun a b => a.sameSource b = false

theorem eq_of_sameSource {β : Type} {l : List β} {f : β → Node} (apart : (l.map f).Pairwise fun a b => a.sameSource b = false) {x y : β}
    (first : x ∈ l) (second : y ∈ l) (same : (f x).sameSource (f y) = true) : x = y := by
  have symmetric : Std.Symm fun x y : β => (f x).sameSource (f y) = false := by
    refine ⟨fun x y apart => ?_⟩
    simpa only [Node.sameSource, Bool.beq_comm] using apart
  by_contra other
  cases same.symm.trans ((List.pairwise_map.mp apart).forall first second other)

theorem Part.Distinct.eq {ps : List Part} (distinct : Part.Distinct ps) {a b : Node} (first : a ∈ ps.filterMap Part.node?)
    (second : b ∈ ps.filterMap Part.node?) (same : a.sameSource b = true) : a = b := by
  have apart : ((ps.filterMap Part.node?).map id).Pairwise fun a b => a.sameSource b = false := by rwa [List.map_id]
  exact eq_of_sameSource apart first second same

def Node.Apart : Node → Prop
  | wrapper _ _ ps => Part.Distinct ps
  | other _ ps => Part.Distinct ps
  | _ => True

def Cursor.Moves (c c' : Cursor) : Prop := ∃ text, c.rest = text ++ c'.rest ∧ c'.pos = c.pos.after text

namespace Cursor

theorem moves_moved {c : Cursor} {text rest : List Char} (whole : text ++ rest = c.rest) : c.Moves (c.moved text rest) :=
  ⟨text, whole.symm, rfl⟩

theorem Moves.trans {c₁ c₂ c₃ : Cursor} (first : c₁.Moves c₂) (second : c₂.Moves c₃) : c₁.Moves c₃ := by
  obtain ⟨text, rest, pos⟩ := first
  obtain ⟨text', rest', pos'⟩ := second
  refine ⟨text ++ text', ?_, ?_⟩
  · rw [rest, rest', List.append_assoc]
  · rw [pos', pos, Position.after_append]

theorem Moves.offset_le {c c' : Cursor} (moves : c.Moves c') : c.pos.offset ≤ c'.pos.offset := by
  obtain ⟨text, _, pos⟩ := moves
  rw [pos, Position.after_offset]
  exact Nat.le_add_right _ _

theorem Moves.offset_lt {c c' : Cursor} (moves : c.Moves c') (shorter : c'.rest.length < c.rest.length) :
    c.pos.offset < c'.pos.offset := by
  obtain ⟨text, whole, pos⟩ := moves
  cases text with
  | nil =>
    rw [whole] at shorter
    exact absurd shorter (Nat.lt_irrefl _)
  | cons x text =>
    rw [pos, Position.after_offset, byteSize_cons]
    have := Char.utf8Size_pos x
    omega

end Cursor

theorem past_moves {c : Cursor} {t : Token TagKind} (found : Tag.next c.rest = some t) : c.Moves (Parse.past c t) :=
  Cursor.moves_moved (by rw [Token.through_append_rest]; exact Tag.next_whole found)

theorem Angle.moves {c c' : Cursor} (angle : Angle c c') : c.Moves c' := by
  obtain ⟨t, found, _, rfl⟩ := angle
  exact past_moves found

theorem ClosingTag.moves {name : Option String} {c c' : Cursor} (tag : ClosingTag name c c') : c.Moves c' := by
  cases name with
  | none => exact Angle.moves tag
  | some name =>
    obtain ⟨t, found, _, _, angle⟩ := tag
    exact (past_moves found).trans angle.moves

theorem ValueTokens.moves {c : Cursor} (v : ValueTokens c) : c.Moves v.stop :=
  ((past_moves v.named).trans (past_moves v.equaled)).trans (past_moves v.valued)

theorem run_moves {e : CodeEnd} {d d' : Nat} {a : Bool} {c : Cursor} {text mark rest : List Char} {stop : RunStop}
    (ran : Code.run e d a c.rest = ⟨text, d', stop, mark, rest⟩) : c.Moves (c.moved (text ++ mark) rest) := by
  have whole := Code.run_append e d a c.rest
  rw [ran] at whole
  exact Cursor.moves_moved (by rw [List.append_assoc]; exact whole)

theorem plainText_moves {c : Cursor} {text rest after : List Char} (plain : Parse.plainText c.rest = (text, rest ++ after)) :
    c.Moves (c.moved (text ++ rest) after) := by
  have whole := Parse.plainText_append c.rest
  rw [plain] at whole
  exact Cursor.moves_moved (by rw [List.append_assoc]; exact whole)

theorem braceHead_append (cs : List Char) : (braceHead cs).2.1 ++ (braceHead cs).2.2 = cs := by
  unfold braceHead
  split
  · rename_i dots rest found
    exact Parse.spreadDots?_append found
  · rfl

theorem reads_moves {g : Goal} {c c' : Cursor} {v : g.Output} (read : Reads g c v c') : c.Moves c' := by
  induction read with
  | finished ran => exact run_moves ran
  | exhausted ran =>
    have moves := run_moves ran
    rw [(Code.run_exhausted ran).1, List.append_nil] at moves
    exact moves
  | embedded ran _ _ node more => exact (run_moves ran).trans (node.trans more)
  | fragment opened _ inside => exact (Cursor.moves_moved (by rw [opened]; rfl)).trans inside
  | selfClosed named _ _ tag => exact (past_moves named).trans tag
  | element named _ _ _ tag inside => exact (past_moves named).trans (tag.trans inside)
  | flag named _ _ _ more => exact (past_moves named).trans more
  | string v _ _ more => exact v.moves.trans more
  | expression v _ _ _ code more => exact v.moves.trans (code.trans more)
  | spread found _ dotted _ _ code more =>
    exact (past_moves found).trans ((Cursor.moves_moved (Parse.spreadDots?_append dotted)).trans (code.trans more))
  | slash found _ angle => exact (past_moves found).trans angle.moves
  | close found => exact past_moves found
  | closing plain tag => exact (plainText_moves plain).trans tag.moves
  | @wrapper name c text inside ps c₁ kids c₂ plain _ _ code more =>
    have moves : c.Moves (c.moved (text ++ '{' :: (braceHead inside).2.1) (braceHead inside).2.2) := by
      apply plainText_moves
      rw [plain, List.cons_append, braceHead_append]
    exact moves.trans (code.trans more)
  | child plain _ _ _ node more => exact (plainText_moves plain).trans (node.trans more)

def StartsFrom (offset : Nat) (ns : List Node) : Prop :=
  (∀ n ∈ ns, offset ≤ n.loc.start.offset) ∧ ns.Pairwise fun a b => a.loc.start.offset < b.loc.start.offset

theorem startsFrom_nil (offset : Nat) : StartsFrom offset [] := ⟨by simp, .nil⟩

theorem startsFrom_cons {offset next : Nat} {n : Node} {ns : List Node} (start : offset ≤ n.loc.start.offset)
    (past : n.loc.start.offset < next) (later : StartsFrom next ns) : StartsFrom offset (n :: ns) := by
  constructor
  · intro m member
    rcases List.mem_cons.mp member with rfl | member
    · exact start
    · exact Nat.le_trans start (Nat.le_trans (Nat.le_of_lt past) (later.1 m member))
  · exact .cons (fun m member => Nat.lt_of_lt_of_le past (later.1 m member)) later.2

theorem StartsFrom.distinct {offset : Nat} {ps : List Part} (starts : StartsFrom offset (ps.filterMap Part.node?)) :
    Part.Distinct ps := by
  refine starts.2.imp ?_
  intro a b before
  have different : a.loc ≠ b.loc := by
    intro same
    rw [same] at before
    exact Nat.lt_irrefl _ before
  simp [Node.sameSource, different]

def Goal.Placed : (g : Goal) → Cursor → g.Output → Prop
  | .parts .., c, ps => StartsFrom c.pos.offset (ps.filterMap Part.node?) ∧ ∀ n ∈ Walk.parts ps, n.Apart
  | .markup start, _, n => n.loc.start = start ∧ ∀ m ∈ Walk.node n, m.Apart
  | .attributes, _, (attrs, _) => ∀ n ∈ Walk.attributes attrs, n.Apart
  | .children _, _, kids => ∀ n ∈ Walk.nodes kids, n.Apart

theorem apart_textNode (start : Position) (text : List Char) : ∀ n ∈ Walk.nodes (Parse.textNode start text), n.Apart := by
  unfold Parse.textNode
  split <;> simp [Walk.nodes, Walk.node, Node.Apart]

theorem reads_placed {g : Goal} {c c' : Cursor} {v : g.Output} (read : Reads g c v c') : g.Placed c v := by
  induction read with
  | finished | exhausted =>
    refine ⟨?_, fun n member => ?_⟩
    · rw [filterMap_ofCode]
      exact startsFrom_nil _
    · rw [Walk.parts_ofCode] at member
      cases member
  | @embedded e d a c text d' mark rest n c₁ ps c₂ ran readNode readMore node more =>
    obtain ⟨starts, inNode⟩ := node
    obtain ⟨later, inCode⟩ := more
    constructor
    · rw [List.filterMap_append, filterMap_ofCode, List.nil_append]
      refine startsFrom_cons ?_ ?_ later
      · rw [starts, Position.after_offset]
        exact Nat.le_add_right _ _
      · have beyond := (reads_moves readNode).offset_le
        simp only [Cursor.moved, Position.after_offset, byteSize_append, (Code.run_markup ran).1] at beyond
        rw [starts, Position.after_offset]
        have : byteSize ['<'] = 1 := rfl
        omega
    · intro m member
      simp only [Walk.parts_append, Walk.parts_ofCode, Walk.parts, Walk.part, List.nil_append, List.mem_append] at member
      exact member.elim (inNode m) (inCode m)
  | fragment opened _ inside =>
    refine ⟨rfl, fun n member => ?_⟩
    rcases List.mem_cons.mp member with rfl | member
    · trivial
    · exact inside n member
  | selfClosed named isName _ tag =>
    refine ⟨rfl, fun n member => ?_⟩
    rcases List.mem_cons.mp member with rfl | member
    · trivial
    · simp only [Walk.nodes, List.append_nil] at member
      exact tag n member
  | element named isName _ _ tag inside =>
    refine ⟨rfl, fun n member => ?_⟩
    rcases List.mem_cons.mp member with rfl | member
    · trivial
    · exact (List.mem_append.mp member).elim (tag n) (inside n)
  | flag _ _ _ _ more => exact more
  | string _ _ _ more => exact more
  | expression _ _ _ _ code more => exact fun n member => (List.mem_append.mp member).elim (code.2 n) (more n)
  | spread _ _ _ _ _ code more => exact fun n member => (List.mem_append.mp member).elim (code.2 n) (more n)
  | slash | close =>
    intro n member
    cases member
  | closing plain tag => exact apart_textNode _ _
  | wrapper plain _ _ code more =>
    intro n member
    simp only [Walk.nodes_append, Walk.nodes, Walk.node, List.mem_append, List.mem_cons] at member
    rcases member with member | (rfl | member) | member
    · exact apart_textNode _ _ n member
    · exact code.1.distinct
    · exact code.2 n member
    · exact more n member
  | child plain starts _ _ node more =>
    intro n member
    simp only [Walk.nodes_append, Walk.nodes, List.mem_append] at member
    rcases member with member | member | member
    · exact apart_textNode _ _ n member
    · exact node.2 n member
    · exact more n member

theorem statement_advances {c c₁ : Cursor} {t : Token CodeKind} {ps : List Part} (found : Code.next c.rest = some t)
    (code : Reads (.parts .statement 0 true) (c.moved t.skipped t.ahead) ps c₁) :
    (c.moved t.skipped t.ahead).pos.offset < c₁.pos.offset := by
  apply (reads_moves code).offset_lt
  have accepted : (Parse.parts .statement 0 true (c.moved t.skipped t.ahead)).outcome = .ok (ps, c₁) := Parse.accepts_of_reads code
  cases result : Parse.parts .statement 0 true (c.moved t.skipped t.ahead) with
  | error e =>
    rw [result] at accepted
    cases accepted
  | ok r =>
    rw [result] at accepted
    obtain ⟨_, rfl⟩ := Parse.outcome_ok accepted
    exact Nat.lt_of_le_of_lt r.within (Code.run_shorter _ _ _ (Code.next_ahead found))

theorem readsBody_placed {c : Cursor} {ps : List Part} (read : ReadsBody c ps) :
    StartsFrom c.pos.offset (ps.filterMap Part.node?) ∧ ∀ n ∈ Walk.parts ps, n.Apart := by
  induction read with
  | done =>
    refine ⟨?_, fun n member => ?_⟩
    · rw [filterMap_ofCode]
      exact startsFrom_nil _
    · rw [Walk.parts_ofCode] at member
      cases member
  | @statement c t ps c₁ more found code _ ih =>
    obtain ⟨later, inMore⟩ := ih
    obtain ⟨starts, inside⟩ := reads_placed code
    constructor
    · rw [List.filterMap_append, filterMap_ofCode, List.nil_append]
      refine startsFrom_cons ?_ (statement_advances found code) later
      rw [show (Node.other ⟨c.pos.after t.skipped, c₁.pos⟩ ps).loc.start = c.pos.after t.skipped from rfl, Position.after_offset]
      exact Nat.le_add_right _ _
    · intro n member
      simp only [Walk.parts_append, Walk.parts_ofCode, Walk.parts, Walk.part, Walk.node, List.nil_append, List.mem_append,
        List.mem_cons] at member
      rcases member with (rfl | member) | member
      · exact starts.distinct
      · exact inside n member
      · exact inMore n member

theorem parse_apart {source : String} {t : SourceTree} (read : parse source = .ok t) :
    Part.Distinct t.body ∧ ∀ n ∈ t.nodes, n.Apart := by
  obtain ⟨starts, apart⟩ := readsBody_placed (parse_eq_ok_iff.mp read)
  exact ⟨starts.distinct, apart⟩

end MarkupEditor
