import MarkupEditor.Proofs.Markup.Spelling
import MarkupEditor.Proofs.Markup.Starts

namespace MarkupEditor

variable {source : List Char}

theorem Cursor.Moves.pos_eq {c c' : Cursor} (moves : c.Moves c') {text : List Char} (read : c.rest = text ++ c'.rest) :
    c'.pos = c.pos.after text := by
  obtain ⟨text', rest, pos⟩ := moves
  rw [pos, List.append_cancel_right (rest.symm.trans read)]

theorem Cursor.StandsIn.slice_moves {c c' : Cursor} (stands : c.StandsIn source) (moves : c.Moves c') {text : List Char}
    (read : c.rest = text ++ c'.rest) : Location.slice source ⟨c.pos, c'.pos⟩ = text := stands.slice read (moves.pos_eq read)

def Held (c c' : Cursor) (ns : List Node) : Prop :=
  ∀ n ∈ ns, c.pos.offset ≤ n.loc.start.offset ∧ n.loc.stop.offset ≤ c'.pos.offset

namespace Held

variable {c c₁ c₂ c' : Cursor} {ns ms : List Node}

theorem nil (c c' : Cursor) : Held c c' [] := nofun

theorem mono (held : Held c₁ c₂ ns) (before : c.pos.offset ≤ c₁.pos.offset) (after : c₂.pos.offset ≤ c'.pos.offset) : Held c c' ns :=
  fun n member => ⟨Nat.le_trans before (held n member).1, Nat.le_trans (held n member).2 after⟩

theorem append (first : Held c c' ns) (second : Held c c' ms) : Held c c' (ns ++ ms) :=
  fun n member => (List.mem_append.mp member).elim (first n) (second n)

theorem cons {n : Node} (start : c.pos.offset ≤ n.loc.start.offset) (stop : n.loc.stop.offset ≤ c'.pos.offset) (later : Held c c' ns) :
    Held c c' (n :: ns) := List.forall_mem_cons.mpr ⟨⟨start, stop⟩, later⟩

end Held

theorem Node.placed {c c' : Cursor} {n : Node} (stands : c.StandsIn source) (moves : c.Moves c') (loc : n.loc = ⟨c.pos, c'.pos⟩)
    {text : List Char} (read : c.rest = text ++ c'.rest) (nonempty : text ≠ []) (spelled : n.loc.slice source = text → n.Spelled source)
    (inside : Held c c' n.inner) : n.Placed source := by
  have slice : n.loc.slice source = text := by
    rw [loc]
    exact stands.slice_moves moves read
  refine ⟨spelled slice, by rwa [Node.slice, slice], ?_, ?_, fun m member => ?_⟩
  · rw [loc]
    exact stands.position
  · rw [loc]
    exact (stands.moves moves).position
  · rw [loc]
    exact inside m member

def Goal.Tiled (source : List Char) : (g : Goal) → Cursor → g.Output → Cursor → Prop
  | .parts e _ _, c, ps, c' =>
    c.rest = Part.slices source ps ++ (e.closer ++ c'.rest) ∧ Held c c' (ps.filterMap Part.node?) ∧ ∀ n ∈ Walk.parts ps, n.Placed source
  | .markup start, c, n, c' =>
    (Cursor.mk start ('<' :: c.rest)).StandsIn source → c.pos = start.after ['<'] → Code.startsMarkup c.rest →
      n.loc = ⟨start, c'.pos⟩ ∧ '<' :: c.rest = n.slice source ++ c'.rest ∧ ∀ m ∈ Walk.node n, m.Placed source
  | .attributes, c, (attrs, b), c' =>
    (∃ tag, TagRest source attrs b tag ∧ c.rest = tag ++ c'.rest) ∧ Held c c' ((attrs.flatMap Attribute.parts).filterMap Part.node?) ∧
      ∀ n ∈ Walk.attributes attrs, n.Placed source
  | .children name, c, kids, c' =>
    (∃ closing, ClosingText name closing ∧ c.rest = Node.slices source kids ++ (closing ++ c'.rest)) ∧
      Tiles c.pos kids (c.pos.after (Node.slices source kids)) ∧ Held c c' kids ∧ ∀ n ∈ Walk.nodes kids, n.Placed source

section

variable {c c₁ c₂ : Cursor} {text rest : List Char}

theorem tiled_code {e : CodeEnd} {d : Nat} {a : Bool} (whole : c.rest = text ++ (e.closer ++ c₁.rest)) :
    Goal.Tiled source (.parts e d a) c (Part.ofCode text) c₁ := by
  refine ⟨?_, ?_, ?_⟩
  · rw [Part.slices_ofCode]
    exact whole
  · rw [filterMap_ofCode]
    exact .nil _ _
  · rw [Walk.parts_ofCode]
    nofun

theorem opening_stands (stands : c.StandsIn source) (whole : text ++ '<' :: rest = c.rest) :
    (Cursor.mk (c.pos.after text) ('<' :: (c.moved (text ++ ['<']) rest).rest)).StandsIn source :=
  stands.moves (Cursor.moves_moved whole)

theorem tiled_embedded {e : CodeEnd} {d d' : Nat} {a : Bool} {n : Node} {ps : List Part} (whole : c.rest = text ++ (n.slice source ++ c₁.rest))
    (moves : c.Moves c₁) (onward : c₁.Moves c₂) (loc : n.loc = ⟨c.pos.after text, c₁.pos⟩) (placed : ∀ m ∈ Walk.node n, m.Placed source)
    (later : Goal.Tiled source (.parts e d' false) c₁ ps c₂) : Goal.Tiled source (.parts e d a) c (Part.ofCode text ++ .node n :: ps) c₂ := by
  obtain ⟨read, held, inside⟩ := later
  refine ⟨?_, ?_, fun m member => ?_⟩
  · rw [Part.slices_cons, whole, read]
    simp only [List.append_assoc]
  · rw [List.filterMap_append, filterMap_ofCode, List.nil_append,
      show (Part.node n :: ps).filterMap Part.node? = n :: ps.filterMap Part.node? from rfl]
    refine .cons ?_ ?_ (held.mono moves.offset_le (Nat.le_refl _))
    · rw [loc]
      exact c.pos.offset_le_after text
    · rw [loc]
      exact onward.offset_le
  · rw [Walk.parts_append, Walk.parts_ofCode, List.nil_append] at member
    exact (List.mem_append.mp member).elim (placed m) (inside m)

theorem tiled_text (stands : c.StandsIn source) (whole : c.rest = text ++ rest) :
    Node.slices source (Parse.textNode c.pos text) = text ∧ Held c (c.moved text rest) (Parse.textNode c.pos text) ∧
      ∀ n ∈ Walk.nodes (Parse.textNode c.pos text), n.Placed source := by
  have moves : c.Moves (c.moved text rest) := Cursor.moves_moved whole.symm
  have slice : Location.slice source ⟨c.pos, c.pos.after text⟩ = text := stands.slice_moves moves whole
  unfold Parse.textNode
  split
  · rename_i empty
    refine ⟨?_, .nil _ _, nofun⟩
    rw [List.isEmpty_iff.mp empty]
    rfl
  · rename_i nonempty
    refine ⟨?_, .cons (Nat.le_refl _) (Nat.le_refl _) (.nil _ _), fun n member => ?_⟩
    · exact (List.append_nil _).trans slice
    · rw [List.mem_singleton.mp member]
      refine Node.placed stands moves rfl whole (by simpa using nonempty) (fun slice => ?_) (.nil _ _)
      exact slice.trans String.toList_ofList.symm

theorem tiles_text {start stop : Position} {text : List Char} {ns : List Node} (tiles : Tiles (start.after text) ns stop) :
    Tiles start (Parse.textNode start text ++ ns) stop := by
  unfold Parse.textNode
  split
  · rename_i empty
    rw [List.isEmpty_iff.mp empty] at tiles
    exact tiles
  · exact ⟨rfl, tiles⟩

theorem tiled_children {name : Option String} {n : Node} {kids : List Node} (stands : c.StandsIn source) (whole : c.rest = text ++ rest)
    (read : rest = n.slice source ++ c₁.rest) (moves : (c.moved text rest).Moves c₁) (onward : c₁.Moves c₂)
    (loc : n.loc = ⟨c.pos.after text, c₁.pos⟩) (placed : ∀ m ∈ Walk.node n, m.Placed source)
    (later : Goal.Tiled source (.children name) c₁ kids c₂) :
    Goal.Tiled source (.children name) c (Parse.textNode c.pos text ++ n :: kids) c₂ := by
  obtain ⟨⟨closing, spelled, between⟩, tiles, held, inside⟩ := later
  obtain ⟨slices, heldText, placedText⟩ := tiled_text stands whole
  have before := (Cursor.moves_moved whole.symm).offset_le
  have covered : Node.slices source (Parse.textNode c.pos text ++ n :: kids) = text ++ (n.slice source ++ Node.slices source kids) := by
    rw [Node.slices_append, slices]
    rfl
  have reached : c₁.pos = (c.pos.after text).after (n.slice source) := moves.pos_eq read
  refine ⟨⟨closing, spelled, ?_⟩, ?_, ?_, fun m member => ?_⟩
  · rw [covered, whole, read, between]
    simp only [List.append_assoc]
  · refine tiles_text ⟨by rw [loc], ?_⟩
    rw [covered, Position.after_append, Position.after_append, ← reached, loc]
    exact tiles
  · refine (heldText.mono (Nat.le_refl _) (moves.trans onward).offset_le).append (.cons ?_ ?_ ?_)
    · rw [loc]
      exact c.pos.offset_le_after text
    · rw [loc]
      exact onward.offset_le
    · exact held.mono (Nat.le_trans before moves.offset_le) (Nat.le_refl _)
  · rw [Walk.nodes_append, Walk.nodes] at member
    rcases List.mem_append.mp member with member | member
    · exact placedText m member
    · exact (List.mem_append.mp member).elim (placed m) (inside m)

theorem Angle.spelled (angle : Angle c c₁) : ∃ w, IsLayout w ∧ c.rest = w ++ '>' :: c₁.rest := by
  obtain ⟨t, found, isAngle, rfl⟩ := angle
  refine ⟨t.skipped, Tag.next_skipped found, ?_⟩
  rw [Tag.next_split found, Tag.next_single found isAngle (m := '>') rfl]
  rfl

theorem ClosingTag.spelled {name : Option String} (tag : ClosingTag name c c₁) :
    ∃ closing, ClosingText name closing ∧ '<' :: '/' :: c.rest = closing ++ c₁.rest := by
  cases name with
  | none =>
    obtain ⟨w, layout, read⟩ := Angle.spelled tag
    refine ⟨_, ⟨[], w, nofun, layout, rfl⟩, ?_⟩
    simp [read]
  | some name =>
    obtain ⟨t, found, _, same, angle⟩ := tag
    obtain ⟨w, layout, read⟩ := angle.spelled
    refine ⟨_, ⟨t.skipped, w, Tag.next_skipped found, layout, rfl⟩, ?_⟩
    have spelled : t.text = name.toList := by rw [← same, String.toList_ofList]
    have rest : t.rest = w ++ '>' :: c₁.rest := read
    rw [Tag.next_split found, spelled, rest]
    simp

theorem tiled_markup {start : Position} {n : Node} (opening : (Cursor.mk start ('<' :: c.rest)).StandsIn source) (pos : c.pos = start.after ['<'])
    (moves : c.Moves c₁) (loc : n.loc = ⟨start, c₁.pos⟩) (whole : '<' :: c.rest = '<' :: text ++ c₁.rest)
    (spelled : n.loc.slice source = '<' :: text → n.Spelled source) (inside : Held c c₁ n.inner)
    (below : ∀ k ∈ n.inner, ∀ m ∈ Walk.node k, m.Placed source) :
    n.loc = ⟨start, c₁.pos⟩ ∧ '<' :: c.rest = n.slice source ++ c₁.rest ∧ ∀ m ∈ Walk.node n, m.Placed source := by
  have first : (Cursor.mk start ('<' :: c.rest)).Moves c := ⟨['<'], rfl, pos⟩
  refine ⟨loc, ?_, fun m member => ?_⟩
  · rw [Node.slice, loc, opening.slice_moves (first.trans moves) whole]
    exact whole
  · rcases Walk.mem_node_iff.mp member with rfl | ⟨k, held, member⟩
    · exact Node.placed opening (first.trans moves) loc whole (List.cons_ne_nil _ _) spelled (inside.mono first.offset_le (Nat.le_refl _))
    · exact below k held m member

theorem encloses {loc : Location} {opening closing : List Char} {kids : List Node}
    (slice : loc.slice source = opening ++ (Node.slices source kids ++ closing)) (pos : c.pos = loc.start.after opening)
    (tiles : Tiles c.pos kids (c.pos.after (Node.slices source kids))) : Encloses source loc opening kids closing := by
  refine ⟨slice, ?_⟩
  rw [Position.after_append, ← pos]
  exact tiles

theorem tiled_attribute {a : Attribute} {attrs : List Attribute} {b : Bool} {w : List Char} (layout : IsLayout w)
    (spelled : a.Spelled source text) (whole : c.rest = w ++ (text ++ c₁.rest)) (moves : c.Moves c₁) (onward : c₁.Moves c₂)
    (own : Held c c₁ (a.parts.filterMap Part.node?)) (placed : ∀ n ∈ Walk.attr a, n.Placed source)
    (later : Goal.Tiled source .attributes c₁ (attrs, b) c₂) : Goal.Tiled source .attributes c (a :: attrs, b) c₂ := by
  obtain ⟨⟨tag, rest, read⟩, held, inside⟩ := later
  refine ⟨⟨_, .attribute layout spelled rest, ?_⟩, ?_, fun n member => ?_⟩
  · rw [whole, read]
    simp only [List.append_assoc]
  · rw [List.flatMap_cons, List.filterMap_append]
    exact (own.mono (Nat.le_refl _) onward.offset_le).append (held.mono moves.offset_le (Nat.le_refl _))
  · exact (List.mem_append.mp member).elim (placed n) (inside n)

theorem ValueTokens.spelled (v : ValueTokens c) :
    ∃ left right, IsLayout left ∧ IsLayout right ∧
      c.rest = v.name.skipped ++ ((String.ofList v.name.text).toList ++ (left ++ '=' :: (right ++ (v.value.text ++ v.stop.rest)))) := by
  refine ⟨_, _, Tag.next_skipped v.equaled, Tag.next_skipped v.valued, ?_⟩
  rw [Tag.next_split v.named, Tag.next_split v.equaled, Tag.next_single v.equaled v.isEquals (m := '=') rfl, Tag.next_split v.valued,
    String.toList_ofList]
  rfl

theorem tiled_fragment {start : Position} {kids : List Node} (opened : c.rest = '>' :: rest) (moves : (c.moved ['>'] rest).Moves c₁)
    (stands : c.StandsIn source)
    (inside : (c.moved ['>'] rest).StandsIn source → Goal.Tiled source (.children none) (c.moved ['>'] rest) kids c₁) :
    Goal.Tiled source (.markup start) c (.fragment ⟨start, c₁.pos⟩ kids) c₁ := by
  intro opening pos starts
  have onward : c.Moves (c.moved ['>'] rest) := Cursor.moves_moved opened.symm
  obtain ⟨⟨closing, spelled, read⟩, tiles, held, placed⟩ := inside (stands.moves onward)
  have whole : c.rest = ('>' :: (Node.slices source kids ++ closing)) ++ c₁.rest := by
    rw [opened, show rest = _ from read]
    simp
  refine tiled_markup opening pos (onward.trans moves) rfl (congrArg ('<' :: ·) whole) (fun slice => ?_)
    (held.mono onward.offset_le (Nat.le_refl _)) fun k held m member => placed m (Walk.mem_nodes.mpr ⟨k, held, member⟩)
  refine ⟨closing, spelled, encloses (c := c.moved ['>'] rest) slice ?_ tiles⟩
  rw [Cursor.moved, pos]
  rfl

theorem tagName_spelled {t : Token TagKind} (starts : Code.startsMarkup c.rest) (named : Tag.next c.rest = some t) :
    c.rest = (String.ofList t.text).toList ++ t.rest := by
  rw [Tag.next_split named, Tag.next_unskipped starts named, String.toList_ofList]
  rfl

theorem tiled_selfClosed {start : Position} {t : Token TagKind} {attrs : List Attribute} (named : Tag.next c.rest = some t)
    (moves : (Parse.past c t).Moves c₁) (stands : c.StandsIn source)
    (tag : (Parse.past c t).StandsIn source → Goal.Tiled source .attributes (Parse.past c t) (attrs, true) c₁) :
    Goal.Tiled source (.markup start) c (.element ⟨start, c₁.pos⟩ (String.ofList t.text) attrs [] true) c₁ := by
  intro opening pos starts
  have onward := past_moves named
  obtain ⟨⟨text, rest, read⟩, held, placed⟩ := tag (stands.moves onward)
  have whole : c.rest = ((String.ofList t.text).toList ++ text) ++ c₁.rest := by
    rw [tagName_spelled starts named, show t.rest = _ from read, List.append_assoc]
  refine tiled_markup opening pos (onward.trans moves) rfl (congrArg ('<' :: ·) whole) (fun slice => ?_) ?_ ?_
  · exact ⟨text, rest, rfl, slice⟩
  · rw [Node.inner, List.append_nil]
    exact held.mono onward.offset_le (Nat.le_refl _)
  · rw [Node.inner, List.append_nil]
    exact fun k held m member => placed m (Walk.mem_attributes.mpr ⟨k, held, member⟩)

theorem tiled_element {start : Position} {t : Token TagKind} {attrs : List Attribute} {kids : List Node}
    (named : Tag.next c.rest = some t) (moves : (Parse.past c t).Moves c₁) (onward : c₁.Moves c₂) (stands : c.StandsIn source)
    (tag : (Parse.past c t).StandsIn source → Goal.Tiled source .attributes (Parse.past c t) (attrs, false) c₁)
    (inside : c₁.StandsIn source → Goal.Tiled source (.children (some (String.ofList t.text))) c₁ kids c₂) :
    Goal.Tiled source (.markup start) c (.element ⟨start, c₂.pos⟩ (String.ofList t.text) attrs kids false) c₂ := by
  intro opening pos starts
  have tagged := (past_moves named).trans moves
  obtain ⟨⟨text, rest, read⟩, heldTag, placedTag⟩ := tag (stands.moves (past_moves named))
  obtain ⟨⟨closing, spelled, between⟩, tiles, held, placed⟩ := inside (stands.moves tagged)
  have opened : c.rest = (String.ofList t.text).toList ++ (text ++ c₁.rest) := by
    rw [tagName_spelled starts named, show t.rest = _ from read]
  have whole : c.rest = ((String.ofList t.text).toList ++ (text ++ (Node.slices source kids ++ closing))) ++ c₂.rest := by
    rw [opened, between]
    simp only [List.append_assoc]
  refine tiled_markup opening pos (tagged.trans onward) rfl (congrArg ('<' :: ·) whole) (fun slice => ?_) ?_ ?_
  · refine ⟨text, rest, closing, spelled, encloses (c := c₁) (slice.trans ?_) ?_ tiles⟩
    · simp
    · have place := tagged.pos_eq (opened.trans (List.append_assoc ..).symm)
      rw [place, pos, ← Position.after_append]
      rfl
  · refine Held.append (heldTag.mono (past_moves named).offset_le onward.offset_le) ?_
    exact held.mono tagged.offset_le (Nat.le_refl _)
  · intro k member m below
    rcases List.mem_append.mp member with member | member
    · exact placedTag m (Walk.mem_attributes.mpr ⟨k, member, below⟩)
    · exact placed m (Walk.mem_nodes.mpr ⟨k, member, below⟩)

theorem tiled_closing {name : Option String} {after : List Char} (stands : c.StandsIn source) (whole : c.rest = text ++ '<' :: '/' :: after)
    (tag : ClosingTag name (c.moved (text ++ ['<', '/']) after) c₁) :
    Goal.Tiled source (.children name) c (Parse.textNode c.pos text) c₁ := by
  obtain ⟨slices, held, placed⟩ := tiled_text stands whole
  obtain ⟨closing, spelled, read⟩ := tag.spelled
  have onward : (c.moved text ('<' :: '/' :: after)).Moves c₁ := Cursor.Moves.trans ⟨['<', '/'], rfl, Position.after_append ..⟩ tag.moves
  refine ⟨⟨closing, spelled, ?_⟩, ?_, held.mono (Nat.le_refl _) onward.offset_le, placed⟩
  · rw [slices, whole]
    exact congrArg (text ++ ·) read
  · have tiles : Tiles c.pos (Parse.textNode c.pos text ++ []) (c.pos.after text) := tiles_text rfl
    rw [List.append_nil] at tiles
    rw [slices]
    exact tiles

theorem tiled_wrapper {name : Option String} {inside : List Char} {ps : List Part} {kids : List Node} (stands : c.StandsIn source)
    (whole : c.rest = text ++ '{' :: inside)
    (moves : (c.moved (text ++ '{' :: (braceHead inside).2.1) (braceHead inside).2.2).Moves c₁) (onward : c₁.Moves c₂)
    (code : (c.moved (text ++ '{' :: (braceHead inside).2.1) (braceHead inside).2.2).StandsIn source →
      Goal.Tiled source (.parts .brace 0 true) (c.moved (text ++ '{' :: (braceHead inside).2.1) (braceHead inside).2.2) ps c₁)
    (later : c₁.StandsIn source → Goal.Tiled source (.children name) c₁ kids c₂) :
    Goal.Tiled source (.children name) c
      (Parse.textNode c.pos text ++ .wrapper ⟨c.pos.after text, c₁.pos⟩ (braceHead inside).1 ps :: kids) c₂ := by
  have headed : (c.moved text ('{' :: inside)).Moves (c.moved (text ++ '{' :: (braceHead inside).2.1) (braceHead inside).2.2) :=
    ⟨'{' :: (braceHead inside).2.1, by simp [Cursor.moved, braceHead_append], Position.after_append ..⟩
  have reached := stands.moves (Cursor.moves_moved whole.symm)
  obtain ⟨read, held, placed⟩ := code (reached.moves headed)
  have spelled : '{' :: inside = ('{' :: ((braceHead inside).2.1 ++ (Part.slices source ps ++ ['}']))) ++ c₁.rest := by
    have read : (braceHead inside).2.2 = _ := read
    conv_lhs => rw [← braceHead_append inside, read]
    simp [CodeEnd.closer]
  have slice : (Node.wrapper ⟨c.pos.after text, c₁.pos⟩ (braceHead inside).1 ps).slice source = _ :=
    reached.slice_moves (headed.trans moves) spelled
  have itself : (Node.wrapper ⟨c.pos.after text, c₁.pos⟩ (braceHead inside).1 ps).Placed source :=
    Node.placed reached (headed.trans moves) rfl spelled (List.cons_ne_nil _ _) (fun slice => ⟨_, braceHead_spread inside, slice⟩)
      (held.mono headed.offset_le (Nat.le_refl _))
  refine tiled_children stands whole ?_ (headed.trans moves) onward rfl (fun m member => ?_) (later ((reached.moves headed).moves moves))
  · rw [slice]
    exact spelled
  · exact (List.mem_cons.mp member).elim (fun same => same ▸ itself) (placed m)

end

-- By induction on the rules. What stands between two cursors is the text that its value is spelled as; the cases differ
-- in what a rule reads besides its parts.
theorem reads_tiled {g : Goal} {c c' : Cursor} {v : g.Output} (read : Reads g c v c') (stands : c.StandsIn source) :
    g.Tiled source c v c' := by
  induction read with
  | @finished e d a c text d' mark rest ran =>
    have whole := Code.run_append e d a c.rest
    rw [ran] at whole
    refine tiled_code ?_
    cases e with
    | brace => exact (Code.run_brace ran).1 ▸ whole.symm
    | statement => exact (Code.run_statement ran).1 ▸ whole.symm
  | @exhausted d a c text mark rest ran =>
    have whole := Code.run_append .statement d a c.rest
    rw [ran, (Code.run_exhausted ran).1] at whole
    exact tiled_code whole.symm
  | @embedded e d a c text d' mark rest n c₁ ps c₂ ran readNode readMore node more =>
    have whole := Code.run_append e d a c.rest
    have moves := run_moves ran
    obtain ⟨rfl, starts, _⟩ := Code.run_markup ran
    rw [ran] at whole
    have reached := stands.moves moves
    obtain ⟨loc, slice, placed⟩ := node reached (opening_stands stands whole) (Position.after_append ..) starts
    refine tiled_embedded ?_ (moves.trans (reads_moves readNode)) (reads_moves readMore) loc placed (more (reached.moves (reads_moves readNode)))
    exact whole.symm.trans (congrArg (text ++ ·) slice)
  | fragment opened readInside inside => exact tiled_fragment opened (reads_moves readInside) stands inside
  | selfClosed named _ readTag tag => exact tiled_selfClosed named (reads_moves readTag) stands tag
  | element named _ readTag readInside tag inside =>
    exact tiled_element named (reads_moves readTag) (reads_moves readInside) stands tag inside
  | @flag c t attrs b c₁ named isName plain readMore more =>
    have onward := past_moves named
    refine tiled_attribute (Tag.next_skipped named) .flag ?_ onward (reads_moves readMore) (.nil _ _) nofun (more (stands.moves onward))
    rw [String.toList_ofList]
    exact Tag.next_split named
  | @string c attrs b c₁ v isString readMore more =>
    obtain ⟨left, right, before, after, read⟩ := v.spelled
    refine tiled_attribute (Tag.next_skipped v.named) (.string before after) ?_ v.moves (reads_moves readMore) (.nil _ _) nofun
      (more (stands.moves v.moves))
    rw [(Tag.next_quoted v.valued isString).1] at read
    simpa using read
  | @expression c ps c₁ attrs b c₂ v isBrace readCode readMore code more =>
    obtain ⟨left, right, before, after, read⟩ := v.spelled
    have reached := stands.moves v.moves
    obtain ⟨inside, held, placed⟩ := code reached
    have onward := reads_moves readCode
    refine tiled_attribute (Tag.next_skipped v.named) (.expression before after) ?_ (v.moves.trans onward) (reads_moves readMore)
      (held.mono v.moves.offset_le (Nat.le_refl _)) placed (more (reached.moves onward))
    rw [Tag.next_single v.valued isBrace (m := '{') rfl, inside] at read
    simpa [CodeEnd.closer] using read
  | @spread c t dots rest ps c₁ attrs b c₂ found isBrace dotted readCode readMore code more =>
    have opened := past_moves found
    have dots' : (Parse.past c t).Moves ((Parse.past c t).moved dots rest) := Cursor.moves_moved (Parse.spreadDots?_append dotted)
    have reached := stands.moves (opened.trans dots')
    obtain ⟨inside, held, placed⟩ := code reached
    have onward := reads_moves readCode
    refine tiled_attribute (Tag.next_skipped found) (.spread (Parse.spreadDots?_head dotted)) ?_ ((opened.trans dots').trans onward)
      (reads_moves readMore) (held.mono (opened.trans dots').offset_le (Nat.le_refl _)) placed (more (reached.moves onward))
    rw [Tag.next_split found, Tag.next_single found isBrace (m := '{') rfl, ← Parse.spreadDots?_append dotted, show rest = _ from inside]
    simp [CodeEnd.closer]
  | @slash c t c₁ found isSlash angle =>
    obtain ⟨w, layout, read⟩ := angle.spelled
    refine ⟨⟨_, .slash (Tag.next_skipped found) layout, ?_⟩, .nil _ _, nofun⟩
    rw [Tag.next_split found, Tag.next_single found isSlash (m := '/') rfl, show t.rest = _ from read]
    simp
  | @close c t found isAngle =>
    refine ⟨⟨_, .close (Tag.next_skipped found), ?_⟩, .nil _ _, nofun⟩
    rw [Tag.next_split found, Tag.next_single found isAngle (m := '>') rfl, List.append_assoc]
    rfl
  | closing plain tag => exact tiled_closing stands (Parse.plainText_whole plain) tag
  | wrapper plain readCode readMore code more =>
    exact tiled_wrapper stands (Parse.plainText_whole plain) (reads_moves readCode) (reads_moves readMore) code more
  | @child name c text after n c₁ kids c₂ plain starts readNode readMore node more =>
    have whole := Parse.plainText_whole plain
    have opened : (c.moved text ('<' :: after)).Moves (c.moved (text ++ ['<']) after) := ⟨['<'], rfl, Position.after_append ..⟩
    have reached := stands.moves ((Cursor.moves_moved whole.symm).trans opened)
    obtain ⟨loc, slice, placed⟩ := node reached (opening_stands stands whole.symm) (Position.after_append ..) starts
    exact tiled_children stands whole slice (opened.trans (reads_moves readNode)) (reads_moves readMore) loc placed
      (more (reached.moves (reads_moves readNode)))

theorem Cursor.StandsIn.offset_le {c : Cursor} (stands : c.StandsIn source) : c.pos.offset ≤ byteSize source := by
  rw [← stands.endOffset]
  exact Nat.le_add_right _ _

theorem readsBody_tiled {c : Cursor} {ps : List Part} (read : ReadsBody c ps) (stands : c.StandsIn source) :
    c.rest = Part.slices source ps ∧ (∀ n ∈ ps.filterMap Part.node?, n.loc.stop.offset ≤ byteSize source) ∧
      ∀ n ∈ Walk.parts ps, n.Placed source := by
  induction read with
  | done =>
    rw [Part.slices_ofCode, filterMap_ofCode, Walk.parts_ofCode]
    exact ⟨rfl, nofun, nofun⟩
  | @statement c t ps c₁ more found code _ ih =>
    have start : c.Moves (c.moved t.skipped t.ahead) := Cursor.moves_moved (Code.next_whole found)
    have onward := reads_moves code
    have began := stands.moves start
    obtain ⟨read, held, placed⟩ := reads_tiled code began
    obtain ⟨rest, within, placedMore⟩ := ih (began.moves onward)
    have nonempty : Part.slices source ps ≠ [] := by
      intro empty
      have advances := statement_advances found code
      rw [onward.pos_eq read, empty] at advances
      exact Nat.lt_irrefl _ advances
    have itself : (Node.other ⟨c.pos.after t.skipped, c₁.pos⟩ ps).Placed source :=
      Node.placed began onward rfl read nonempty id held
    have slice : (Node.other ⟨c.pos.after t.skipped, c₁.pos⟩ ps).slice source = Part.slices source ps := began.slice_moves onward read
    refine ⟨?_, ?_, ?_⟩
    · have ahead : t.ahead = _ := read
      rw [Part.slices_cons, slice, ← Code.next_whole found, Token.whole, ahead, ← rest]
      rfl
    · rw [List.filterMap_append, filterMap_ofCode, List.nil_append]
      exact List.forall_mem_cons.mpr ⟨(began.moves onward).offset_le, within⟩
    · rw [walk_statement]
      exact List.forall_mem_cons.mpr ⟨itself, List.forall_mem_append.mpr ⟨placed, placedMore⟩⟩

-- A parsed tree covers its source: the parts of its body concatenate to the source, each node stands in it as it is spelled, with
-- what it holds inside it, and no two nodes have the same location and the same kind.
theorem parse_covers_source {source : String} {t : SourceTree} (read : parse source = .ok t) :
    Part.slices source.toList t.body = source.toList ∧ (∀ n ∈ t.nodes, n.Placed source.toList) ∧
      (∀ n ∈ t.statements, n.loc.stop.offset ≤ byteSize source.toList) ∧ t.nodes.Pairwise fun a b => a.sameSource b = false := by
  obtain ⟨whole, within, placed⟩ := readsBody_tiled (parse_eq_ok_iff.mp read) (.start source.toList)
  exact ⟨whole.symm, placed, within, parse_nodes_apart read⟩

def spreadSource : String := "f(); // a\nlet é = <p k = 'ü' on=\x7b<i/>\x7d \x7b ...d\x7d>\n x\x7b ...e\x7d</ p>;"

theorem parse_covers_spread :
    ∃ t, parse spreadSource = .ok t ∧
      t.nodes.map (fun n => String.ofList (n.slice spreadSource.toList)) =
        ["f();", "let é = <p k = 'ü' on=\x7b<i/>\x7d \x7b ...d\x7d>\n x\x7b ...e\x7d</ p>;",
          "<p k = 'ü' on=\x7b<i/>\x7d \x7b ...d\x7d>\n x\x7b ...e\x7d</ p>", "<i/>", "\n x", "\x7b ...e\x7d"] ∧
      Part.slices spreadSource.toList t.body = spreadSource.toList ∧ (∀ n ∈ t.nodes, n.Placed spreadSource.toList) ∧
      (∀ n ∈ t.statements, n.loc.stop.offset ≤ byteSize spreadSource.toList) ∧ t.nodes.Pairwise fun a b => a.sameSource b = false := by
  have cut : (parse spreadSource).toOption.map (fun t => t.nodes.map fun n => String.ofList (n.slice spreadSource.toList)) =
      some ["f();", "let é = <p k = 'ü' on=\x7b<i/>\x7d \x7b ...d\x7d>\n x\x7b ...e\x7d</ p>;",
        "<p k = 'ü' on=\x7b<i/>\x7d \x7b ...d\x7d>\n x\x7b ...e\x7d</ p>", "<i/>", "\n x", "\x7b ...e\x7d"] := by
    decide +kernel
  cases read : parse spreadSource with
  | error e => rw [read] at cut; cases cut
  | ok t =>
    rw [read] at cut
    exact ⟨t, rfl, Option.some.inj cut, parse_covers_source read⟩

end MarkupEditor
