import Mathlib.Data.String.Basic
import MarkupEditor.OrderKey
import MarkupEditor.Proofs.Text.Utf8

namespace MarkupEditor

namespace OrderKey

def IsDigit (b : UInt8) : Prop := ∃ n < base, digit n = b

def ofBytes (bytes : List UInt8) : String := String.ofList (bytes.map fun b => Char.ofNat b.toNat)

theorem digitValue_digit {n : Nat} (within : n < base) : digitValue (digit n) = n := by
  have all : ∀ n < base, digitValue (digit n) = n := by decide
  exact all n within

theorem digit_lt_digit {m n : Nat} (less : m < n) (within : n < base) : digit m < digit n := by
  have all : ∀ n < base, ∀ m < n, digit m < digit n := by decide +kernel
  exact all n within m less

theorem IsDigit.ascii {b : UInt8} (isDigit : IsDigit b) : b.toNat < 0x80 := by
  have all : ∀ n < base, (digit n).toNat < 0x80 := by decide
  obtain ⟨n, within, rfl⟩ := isDigit
  exact all n within

theorem toNat_ofNat {n : Nat} (within : n < 256) : (Char.ofNat n).toNat = n := by
  have valid : n.isValidChar := .inl (by omega)
  rw [Char.ofNat, dif_pos valid]
  rfl

theorem encodeChar_ascii {b : UInt8} (ascii : b.toNat < 0x80) : Text.encodeChar (Char.ofNat b.toNat) = [b] := by
  simp only [Text.encodeChar, toNat_ofNat b.toNat_lt, ascii, if_true]
  simp

theorem encode_ofBytes {bytes : List UInt8} (digits : ∀ b ∈ bytes, IsDigit b) : Text.encode (ofBytes bytes) = bytes := by
  rw [Text.encode, ofBytes, String.toList_ofList]
  induction bytes with
  | nil => rfl
  | cons b bytes ih =>
    obtain ⟨first, later⟩ := List.forall_mem_cons.mp digits
    rw [List.map_cons, List.flatMap_cons, encodeChar_ascii first.ascii, ih later]
    rfl

theorem decode?_ofBytes {bytes : List UInt8} (digits : ∀ b ∈ bytes, IsDigit b) : Text.decode? bytes = some (ofBytes bytes) := by
  have whole := Text.decode?_encode (ofBytes bytes)
  rwa [encode_ofBytes digits] at whole

theorem ofBytes_lt {bytes bytes' : List UInt8} (less : bytes < bytes') : ofBytes bytes < ofBytes bytes' := by
  rw [String.lt_iff_toList_lt, ofBytes, ofBytes, String.toList_ofList, String.toList_ofList]
  refine List.map_lt (fun a b less => ?_) less
  rw [Char.lt_def, UInt32.lt_iff_toNat_lt]
  show (Char.ofNat a.toNat).toNat < (Char.ofNat b.toNat).toNat
  rw [toNat_ofNat a.toNat_lt, toNat_ofNat b.toNat_lt]
  exact UInt8.lt_iff_toNat_lt.mp less

theorem above_digits {bytes : List UInt8} (digits : ∀ b ∈ bytes, IsDigit b) :
    (∀ b ∈ above bytes, IsDigit b) ∧ bytes < above bytes := by
  induction bytes with
  | nil => exact ⟨by simpa [above] using ⟨31, by decide, rfl⟩, List.nil_lt_cons ..⟩
  | cons b bytes ih =>
    obtain ⟨⟨n, within, rfl⟩, later⟩ := List.forall_mem_cons.mp digits
    obtain ⟨inside, after⟩ := ih later
    rw [above]
    simp only [digitValue_digit within]
    split
    · rename_i room
      have middle : n < (n + base + 1) / 2 ∧ (n + base + 1) / 2 < base := by
        simp only [base] at room ⊢
        omega
      refine ⟨?_, List.cons_lt_cons_iff.mpr (.inl (digit_lt_digit middle.1 middle.2))⟩
      intro b member
      rw [List.mem_singleton.mp member]
      exact ⟨_, middle.2, rfl⟩
    · exact ⟨List.forall_mem_cons.mpr ⟨⟨n, within, rfl⟩, inside⟩, List.cons_lt_cons_iff.mpr (.inr ⟨rfl, after⟩)⟩

theorem between_ofBytes {bytes : List UInt8} (digits : ∀ b ∈ bytes, IsDigit b) : between (some (ofBytes bytes)) none = ofBytes (above bytes) := by
  simp only [between, Option.getD_some, encode_ofBytes digits, decode?_ofBytes (above_digits digits).1]

theorem ascending_ofBytes {bytes : List UInt8} (digits : ∀ b ∈ bytes, IsDigit b) (n : Nat) :
    (ofBytes bytes :: ascending (some (ofBytes bytes)) n).Pairwise (· < ·) := by
  induction n generalizing bytes with
  | zero => exact List.pairwise_singleton ..
  | succ n ih =>
    obtain ⟨inside, after⟩ := above_digits digits
    rw [ascending, between_ofBytes digits]
    have later := ih inside
    refine List.pairwise_cons.mpr ⟨List.forall_mem_cons.mpr ⟨ofBytes_lt after, fun k member => ?_⟩, later⟩
    exact (ofBytes_lt after).trans ((List.pairwise_cons.mp later).1 k member)

theorem ascending_none (n : Nat) : ascending none n = ascending (some (ofBytes [])) n := by
  cases n <;> rfl

theorem length_ascending (lower : Option String) (n : Nat) : (ascending lower n).length = n := by
  induction n generalizing lower with
  | zero => rfl
  | succ n ih => rw [ascending, List.length_cons, ih]

theorem batch_none (n : Nat) : (batch none none n).Pairwise (· < ·) ∧ (batch none none n).length = n := by
  have same : batch none none n = ascending none n := by
    rw [batch]
    split
    · rename_i zero
      rw [zero]
      rfl
    · split
      · rename_i one
        rw [one]
        rfl
      · rfl
  rw [same]
  refine ⟨?_, length_ascending none n⟩
  rw [ascending_none]
  exact (List.pairwise_cons.mp (ascending_ofBytes (by simp) n)).2

end OrderKey

end MarkupEditor
