import MarkupEditor.Proofs.Markup.Reread

namespace MarkupEditor

namespace Script

-- The character that a backslash before another one stands for. What counts on for a number or ends the line is left out.
def unescapeChar? : Char → Option Char
  | 'b' => some '\x08'
  | 't' => some '\t'
  | 'n' => some '\n'
  | 'v' => some '\x0b'
  | 'f' => some '\x0c'
  | 'r' => some '\r'
  | c => if c = 'x' ∨ c = 'u' ∨ c.isDigit ∨ c = '\n' ∨ c = '\r' ∨ c = '\u2028' ∨ c = '\u2029' then none else some c

def unescape? : List Char → Option (List Char)
  | [] => some []
  | '\\' :: [] => none
  | '\\' :: c :: cs =>
    match unescapeChar? c, unescape? cs with
    | some d, some ds => some (d :: ds)
    | _, _ => none
  | c :: cs => if c = '"' ∨ c = '\n' ∨ c = '\r' then none else (unescape? cs).map (c :: ·)

def textOf? : List Char → Option (List Char)
  | '"' :: cs => if cs.getLast? = some '"' then unescape? cs.dropLast else none
  | _ => none

end Script

namespace Attribute

theorem unescape?_escapeChar (c : Char) (cs : List Char) :
    Script.unescape? (escapeChar c ++ cs) = (Script.unescape? cs).map (c :: ·) := by
  have escaped : ∀ {d e : Char}, Script.unescapeChar? d = some e →
      Script.unescape? ('\\' :: d :: cs) = (Script.unescape? cs).map (e :: ·) := by
    intro d e stands
    rw [Script.unescape?, stands]
    cases Script.unescape? cs <;> rfl
  unfold escapeChar
  split
  · exact escaped rfl
  · exact escaped rfl
  · exact escaped rfl
  · exact escaped rfl
  · rename_i quote slash feed ret
    have plain : ¬ (c = '"' ∨ c = '\n' ∨ c = '\r') := by
      rintro (same | same | same)
      · exact quote same
      · exact feed same
      · exact ret same
    rw [List.singleton_append, Script.unescape?, if_neg plain]
    · exact fun same _ => slash same
    · exact fun _ _ same => absurd same slash

theorem unescape?_escaped (cs : List Char) : Script.unescape? (cs.flatMap escapeChar) = some cs := by
  induction cs with
  | nil => rfl
  | cons c cs ih =>
    have first := unescape?_escapeChar c (cs.flatMap escapeChar)
    rw [List.flatMap_cons, first, ih]
    rfl

theorem textOf?_stringLiteral (value : String) : Script.textOf? (stringLiteral value).toList = some value.toList := by
  have ends : (value.toList.flatMap escapeChar ++ ['"']).getLast? = some '"' := List.getLast?_concat
  simp only [stringLiteral, String.toList_ofList, List.cons_append, Script.textOf?, ends, if_true, List.dropLast_concat]
  exact unescape?_escaped value.toList

theorem quotedBody_escapeChar (c : Char) (w : List Char) :
    Code.quotedBody '"' (escapeChar c ++ w) = (escapeChar c ++ (Code.quotedBody '"' w).1, (Code.quotedBody '"' w).2) := by
  unfold escapeChar
  split
  · simp [Code.quotedBody]
  · simp [Code.quotedBody]
  · simp [Code.quotedBody]
  · simp [Code.quotedBody]
  · rename_i quote slash feed _
    rw [List.singleton_append, Code.quotedBody, if_neg]
    · rfl
    · exact fun ends => ends.elim quote fun both => feed both.1
    · exact fun same _ => slash same
    · exact fun _ _ same _ => slash same

theorem quotedBody_escaped (cs z : List Char) :
    Code.quotedBody '"' (cs.flatMap escapeChar ++ '"' :: z) = (cs.flatMap escapeChar, '"' :: z) := by
  induction cs with
  | nil => rfl
  | cons c cs ih => rw [List.flatMap_cons, List.append_assoc, quotedBody_escapeChar, ih]

theorem next_stringLiteral (value : String) (z : List Char) :
    Code.next ((stringLiteral value).toList ++ z) = some ⟨⟨some .stringLit, (stringLiteral value).toList, z⟩, []⟩ := by
  have body := quotedBody_escaped value.toList z
  have quoted : ∀ cs, Code.lexeme '"' cs = Code.quoted .stringLit '"' cs := fun _ => rfl
  simp only [stringLiteral, String.toList_ofList, List.cons_append, List.append_assoc, List.nil_append]
  rw [Code.next_direct rfl, quoted]
  simp only [Code.quoted, body, if_true, List.cons_append]

-- The attribute gives its name a text: as a quoted value, or as code that is one string token.
inductive Carries (name : String) (value : String) : Attribute → Prop where
  | string (quote : Quote) : Carries name value (.string name value quote)
  | expression {literal : String} (token : Code.next literal.toList = some ⟨⟨some .stringLit, literal.toList, []⟩, []⟩)
      (stands : Script.textOf? literal.toList = some value.toList) : Carries name value (.expression name [.code literal])

theorem carries_ofText (name value : String) : Carries name value (ofText name value) := by
  unfold ofText
  split
  · split
    · have token := next_stringLiteral value []
      rw [List.append_nil] at token
      exact .expression token (textOf?_stringLiteral value)
    · exact .string .single
  · exact .string .double

theorem name?_ofText (name value : String) : (ofText name value).name? = some name := by
  unfold ofText
  split
  · split <;> rfl
  · rfl

theorem parts_ofText (name value : String) : ((ofText name value).parts).filterMap Part.node? = [] := by
  unfold ofText
  split
  · split <;> rfl
  · rfl

theorem sound_ofText {name : String} (isName : Tag.IsName name) (value : String) : (ofText name value).Sound := by
  unfold ofText
  split
  · split
    · refine ⟨isName, ?_⟩
      have closes := closes_string (quotedBody_escaped value.toList)
      have whole : Part.ofCode ('"' :: (value.toList.flatMap escapeChar ++ ['"'])) = [.code (stringLiteral value)] := rfl
      rw [← whole]
      exact .last closes
    · rename_i single
      exact ⟨isName, by simpa [Quote.char] using single⟩
  · rename_i double
    exact ⟨isName, by simpa [Quote.char] using double⟩

theorem sound_setText {name : String} (isName : Tag.IsName name) (value : String) {attributes : List Attribute}
    (sound : ∀ a ∈ attributes, a.Sound) : ∀ a ∈ setText name value attributes, a.Sound := by
  induction attributes with
  | nil => exact List.forall_mem_singleton.mpr (sound_ofText isName value)
  | cons b attributes ih =>
    obtain ⟨first, later⟩ := List.forall_mem_cons.mp sound
    rw [setText]
    split
    · exact List.forall_mem_cons.mpr ⟨sound_ofText isName value, later⟩
    · exact List.forall_mem_cons.mpr ⟨first, ih later⟩

end Attribute

end MarkupEditor
