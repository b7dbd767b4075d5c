import MarkupEditor.Proofs.Markup.Lines
import MarkupEditor.Proofs.Markup.Reread

namespace MarkupEditor

def Node.slice (source : List Char) (n : Node) : List Char := n.loc.slice source

def Part.slice (source : List Char) : Part → List Char
  | .code text => text.toList
  | .node n => n.slice source

def Part.slices (source : List Char) (ps : List Part) : List Char := ps.flatMap (Part.slice source)

def Node.slices (source : List Char) (ns : List Node) : List Char := ns.flatMap (Node.slice source)

def IsLayout (cs : List Char) : Prop := ∀ c ∈ cs, isLayout c

-- What stands between a brace and its code: nothing, or the dots of a spread after blank characters.
def SpreadHead (spread : Bool) (head : List Char) : Prop :=
  if spread then ∃ blank, (∀ c ∈ blank, Text.isBlank c) ∧ head = blank ++ ['.', '.', '.'] else head = []

inductive Attribute.Spelled (source : List Char) : Attribute → List Char → Prop where
  | flag {name} : Spelled source (.flag name) name.toList
  | string {name value quote v w} (left : IsLayout v) (right : IsLayout w) :
      Spelled source (.string name value quote) (name.toList ++ (v ++ '=' :: (w ++ quote.char :: (value.toList ++ [quote.char]))))
  | expression {name ps v w} (left : IsLayout v) (right : IsLayout w) :
      Spelled source (.expression name ps) (name.toList ++ (v ++ '=' :: (w ++ '{' :: (Part.slices source ps ++ ['}']))))
  | spread {ps head} (dotted : SpreadHead true head) : Spelled source (.spread ps) ('{' :: (head ++ (Part.slices source ps ++ ['}'])))

inductive TagRest (source : List Char) : List Attribute → Bool → List Char → Prop where
  | close {w} (layout : IsLayout w) : TagRest source [] false (w ++ ['>'])
  | slash {v w} (left : IsLayout v) (right : IsLayout w) : TagRest source [] true (v ++ '/' :: (w ++ ['>']))
  | attribute {a attrs b w text rest} (layout : IsLayout w) (spelled : a.Spelled source text) (more : TagRest source attrs b rest) :
      TagRest source (a :: attrs) b (w ++ (text ++ rest))

-- A closing tag; that of a fragment has no name.
def ClosingText (name : Option String) (text : List Char) : Prop :=
  ∃ v w, IsLayout v ∧ IsLayout w ∧ text = '<' :: '/' :: (v ++ ((name.getD "").toList ++ (w ++ ['>'])))

-- Nodes that stand one after another from one place to another.
def Tiles (start : Position) : List Node → Position → Prop
  | [], stop => start = stop
  | n :: ns, stop => n.loc.start = start ∧ Tiles n.loc.stop ns stop

def Encloses (source : List Char) (loc : Location) (opening : List Char) (kids : List Node) (closing : List Char) : Prop :=
  loc.slice source = opening ++ (Node.slices source kids ++ closing) ∧
    Tiles (loc.start.after opening) kids (loc.start.after (opening ++ Node.slices source kids))

def Node.Spelled (source : List Char) : Node → Prop
  | element loc name attrs kids selfClosing =>
    ∃ tag, TagRest source attrs selfClosing tag ∧
      if selfClosing then kids = [] ∧ loc.slice source = '<' :: (name.toList ++ tag)
      else ∃ closing, ClosingText (some name) closing ∧ Encloses source loc ('<' :: (name.toList ++ tag)) kids closing
  | fragment loc kids => ∃ closing, ClosingText none closing ∧ Encloses source loc ['<', '>'] kids closing
  | text loc value => loc.slice source = value.toList
  | wrapper loc spread ps => ∃ head, SpreadHead spread head ∧ loc.slice source = '{' :: (head ++ (Part.slices source ps ++ ['}']))
  | other loc ps => loc.slice source = Part.slices source ps

def Location.Encloses (outer inner : Location) : Prop :=
  outer.start.offset ≤ inner.start.offset ∧ inner.stop.offset ≤ outer.stop.offset

-- A node stands in its source as it is spelled there, and what it holds stands inside it.
structure Node.Placed (source : List Char) (n : Node) : Prop where
  spelled : n.Spelled source
  nonempty : n.slice source ≠ []
  start : n.loc.start = .lookup source n.loc.start.offset
  stop : n.loc.stop = .lookup source n.loc.stop.offset
  inside : ∀ m ∈ n.inner, n.loc.Encloses m.loc

section

variable {source : List Char}

theorem Part.slices_append (ps qs : List Part) : slices source (ps ++ qs) = slices source ps ++ slices source qs := List.flatMap_append

theorem Part.slices_ofCode (text : List Char) : slices source (ofCode text) = text := by
  unfold ofCode
  cases text with
  | nil => rfl
  | cons c cs => simp [slices, slice]

theorem Part.slices_cons (text : List Char) (n : Node) (ps : List Part) :
    slices source (ofCode text ++ .node n :: ps) = text ++ (n.slice source ++ slices source ps) := by
  rw [slices_append, slices_ofCode]
  rfl

theorem Node.slices_append (ns ms : List Node) : slices source (ns ++ ms) = slices source ns ++ slices source ms := List.flatMap_append

end

namespace Tag

variable {cs : List Char} {t : Token TagKind}

theorem next_skipped (found : next cs = some t) : IsLayout t.skipped := lexes.skips found

theorem next_split (found : next cs = some t) : cs = t.skipped ++ (t.text ++ t.rest) := (next_whole found).symm

theorem next_unskipped (starts : Code.startsMarkup cs) (found : next cs = some t) : t.skipped = [] := by
  cases cs with
  | nil => cases found
  | cons c cs =>
    have layout : isLayout c = false := by
      simp only [Code.startsMarkup, Bool.or_eq_true, beq_iff_eq] at starts
      rcases starts with start | rfl
      · exact isLayout_of_nameStart start
      · rfl
    rw [next_direct _ layout] at found
    cases found
    rfl

theorem ofChar?_injective {c m : Char} {k : TagKind} (first : ofChar? c = some k) (second : ofChar? m = some k) : c = m := by
  unfold ofChar? at first second
  split at first <;> cases first <;> split at second <;> cases second <;> rfl

theorem next_single {m : Char} {k : TagKind} (found : next cs = some t) (kind : t.kind = some k) (mark : ofChar? m = some k) :
    t.text = [m] := by
  obtain ⟨c, text, single⟩ := Spells.of_single (lexes.spelled found kind) mark
  rw [text, ofChar?_injective single mark]

end Tag

theorem Parse.plainText_whole {cs text rest : List Char} (plain : plainText cs = (text, rest)) : cs = text ++ rest := by
  have whole := plainText_append cs
  rw [plain] at whole
  exact whole.symm

theorem Parse.spreadDots?_head {cs dots rest : List Char} (dotted : spreadDots? cs = some (dots, rest)) : SpreadHead true dots := by
  unfold spreadDots? at dotted
  split at dotted
  · rename_i blank more taken
    cases dotted
    exact ⟨_, takeRun_all taken, rfl⟩
  · cases dotted

theorem braceHead_spread (cs : List Char) : SpreadHead (braceHead cs).1 (braceHead cs).2.1 := by
  unfold braceHead
  split
  · rename_i dots rest dotted
    exact Parse.spreadDots?_head dotted
  · rfl

end MarkupEditor
