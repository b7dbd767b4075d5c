import MarkupEditor.Markup.Token.Span
import MarkupEditor.Proofs.Markup.Lines
import MarkupEditor.Proofs.Markup.TokenRules

namespace MarkupEditor

variable {κ : Type}

theorem byteSize_toList (s : String) : byteSize s.toList = s.utf8ByteSize := by
  have size : ∀ cs, byteSize cs = (String.ofList cs).utf8ByteSize := fun cs => by
    induction cs with
    | nil => rfl
    | cons c cs ih => rw [byteSize_cons, ih, String.ofList_cons, String.utf8ByteSize_append, String.utf8ByteSize_singleton]
  rw [size, String.ofList_toList]

-- A character of the source starts at the offset, or the source ends there.
def Boundary (source : String) (offset : Nat) : Prop := (⟨offset⟩ : String.Pos.Raw).IsValid source

theorem boundary_iff {source : String} {offset : Nat} :
    Boundary source offset ↔ ∃ before rest, source.toList = before ++ rest ∧ offset = byteSize before := by
  rw [Boundary, String.Pos.Raw.isValid_iff_exists_append]
  constructor
  · rintro ⟨s, r, rfl, place⟩
    exact ⟨s.toList, r.toList, String.toList_append, by rw [byteSize_toList]; exact congrArg String.Pos.Raw.byteIdx place⟩
  · rintro ⟨before, rest, whole, rfl⟩
    refine ⟨String.ofList before, String.ofList rest, ?_, ?_⟩
    · rw [← String.ofList_append, ← whole, String.ofList_toList]
    · rw [String.rawEndPos, ← byteSize_toList, String.toList_ofList]

theorem textFrom?_append (before rest : List Char) : textFrom? (byteSize before) (before ++ rest) = some rest := by
  rw [textFrom?, charsBefore?_append, Option.map_some, List.drop_left]

theorem scanAt?_append {source : String} {before rest : List Char} (split : source.toList = before ++ rest)
    (scan : List Char → Option (Token κ)) : scanAt? scan source (byteSize before) = (scan rest).map (·.span (byteSize before)) := by
  rw [scanAt?, split, textFrom?_append]
  rfl

-- A reader stands at a boundary, and what it scans there is the search from its offset.
theorem Cursor.StandsIn.scanAt? {source : String} {c : Cursor} (stands : c.StandsIn source.toList) (scan : List Char → Option (Token κ)) :
    Boundary source c.pos.offset ∧ scanAt? scan source c.pos.offset = (scan c.rest).map (·.span c.pos.offset) := by
  obtain ⟨before, split, pos⟩ := stands.split
  rw [pos, Position.origin_offset]
  exact ⟨boundary_iff.mpr ⟨before, c.rest, split, rfl⟩, scanAt?_append split scan⟩

-- A token that is found from an offset on stands there or behind, between boundaries of the source, and is not empty. All that may be
-- skipped is passed over and nothing else. The token is spelled as its kind, and no rule spells a longer text where it starts.
structure Span.Follows (rules : TokenRules κ) (source : String) (offset : Nat) (s : Span κ) : Prop where
  behind : offset ≤ s.start
  nonempty : s.start < s.stop
  inside : s.stop ≤ source.utf8ByteSize
  starts : Boundary source s.start
  stops : Boundary source s.stop
  passed : ∃ skipped ahead, textBetween? offset s.start source.toList = some skipped ∧ textFrom? s.start source.toList = some ahead ∧
    rules.Skips skipped ahead
  all : ∀ more after, textFrom? s.start source.toList = some (more ++ after) → rules.Skips more after → more = []
  spelled : ∀ k, s.kind = some k → ∃ text after, textBetween? s.start s.stop source.toList = some text ∧
    textFrom? s.stop source.toList = some after ∧ rules.Spells k text after
  longest : ∀ k text after, textFrom? s.start source.toList = some (text ++ after) → rules.Spells k text after →
    s.kind = some k ∧ s.start + byteSize text ≤ s.stop

-- What a search from an offset comes to: a token that follows, or none exactly where all the rest of the source may be skipped.
structure Advances (rules : TokenRules κ) (nextAt? : String → Nat → Option (Span κ)) (source : String) (offset : Nat) : Prop where
  found : ∀ s, nextAt? source offset = some s → s.Follows rules source offset
  ended : nextAt? source offset = none ↔ ∃ rest, textFrom? offset source.toList = some rest ∧ rules.Skips rest []

namespace Lexes

variable {rules : TokenRules κ} {scan : List Char → Option (Token κ)} {source : String}

theorem follows (lexes : Lexes rules scan) {before rest : List Char} {t : Token κ} (split : source.toList = before ++ rest)
    (found : scan rest = some t) : (t.span (byteSize before)).Follows rules source (byteSize before) := by
  have cut : source.toList = before ++ (t.skipped ++ t.ahead) := by
    rw [split, ← lexes.whole found]
    rfl
  have whole : source.toList = before ++ t.skipped ++ (t.text ++ t.rest) := by
    rw [cut, ← List.append_assoc]
    rfl
  have further : source.toList = before ++ t.skipped ++ t.text ++ t.rest := by
    rw [whole, ← List.append_assoc]
  have span : t.span (byteSize before) = ⟨t.kind, byteSize (before ++ t.skipped), byteSize (before ++ t.skipped ++ t.text)⟩ := by
    simp [Token.span, Token.through]
  have ahead : textFrom? (byteSize (before ++ t.skipped)) source.toList = some t.ahead := by
    rw [whole]
    exact textFrom?_append ..
  rw [span]
  constructor
  case behind =>
    rw [byteSize_append]
    exact Nat.le_add_right ..
  case nonempty =>
    rw [byteSize_append _ t.text]
    exact Nat.lt_add_of_pos_right (byteSize_pos (lexes.nonempty found))
  case inside =>
    rw [← byteSize_toList, further, byteSize_append _ t.rest]
    exact Nat.le_add_right ..
  case starts => exact boundary_iff.mpr ⟨_, _, whole, rfl⟩
  case stops => exact boundary_iff.mpr ⟨_, _, further, rfl⟩
  case passed =>
    refine ⟨t.skipped, t.ahead, ?_, ahead, lexes.skips found⟩
    rw [cut]
    exact textBetween?_append ..
  case all =>
    intro more after behind skips
    exact lexes.starts found (Option.some.inj (ahead.symm.trans behind)) skips
  case spelled =>
    intro k kind
    refine ⟨t.text, t.rest, ?_, ?_, lexes.spelled found kind⟩
    · rw [whole]
      exact textBetween?_append ..
    · rw [further]
      exact textFrom?_append ..
  case longest =>
    intro k text after behind spells
    obtain ⟨kind, more, parts⟩ := lexes.longest found (Option.some.inj (ahead.symm.trans behind)) spells
    refine ⟨kind, ?_⟩
    rw [← parts, ← List.append_assoc, byteSize_append _ more, byteSize_append _ text]
    exact Nat.le_add_right ..

theorem advances (lexes : Lexes rules scan) {offset : Nat} (boundary : Boundary source offset) :
    Advances rules (scanAt? scan) source offset := by
  obtain ⟨before, rest, split, rfl⟩ := boundary_iff.mp boundary
  have same := scanAt?_append split scan
  constructor
  · intro s searched
    obtain ⟨t, found, rfl⟩ := Option.map_eq_some_iff.mp (same.symm.trans searched)
    exact lexes.follows split found
  · rw [same, Option.map_eq_none_iff, lexes.ended, split, textFrom?_append]
    simp

end Lexes

-- From any boundary of a source on, the search for a token of code and the one for a token of a tag go forward.
theorem scans_advance {source : String} {offset : Nat} (boundary : Boundary source offset) :
    Advances Code.rules Code.nextAt? source offset ∧ Advances Tag.rules Tag.nextAt? source offset :=
  ⟨Code.lexes.advances boundary, Tag.lexes.advances boundary⟩

def unclosed : String := "é /* a **/ b */ // ü\n\"x\\\"é\n// z"

theorem scans_advance_unclosed :
    Boundary unclosed 2 ∧ Code.nextAt? unclosed 2 = some ⟨none, 23, 29⟩ ∧ Tag.nextAt? unclosed 2 = some ⟨some .slash, 3, 4⟩ ∧
      Advances Code.rules Code.nextAt? unclosed 2 ∧ Advances Tag.rules Tag.nextAt? unclosed 2 := by
  have boundary : Boundary unclosed 2 := boundary_iff.mpr ⟨['é'], unclosed.toList.tail, by decide +kernel, by decide⟩
  exact ⟨boundary, by decide +kernel, by decide +kernel, scans_advance boundary⟩

end MarkupEditor
