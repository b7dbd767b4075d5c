import MarkupEditor.Text.Utf8

namespace MarkupEditor.Text

variable {n value count : Nat} {low high : UInt8} {rest : List UInt8}

theorem toNat_toUInt8 (small : n < 256) : n.toUInt8.toNat = n := by
  simp [Nat.mod_eq_of_lt small]

theorem continued_zero : continued value low high 0 rest = (some (Char.ofNat value), rest) := by
  simp [continued]

theorem continued_tail (above : low.toNat ≤ 0x80 + n % 0x40) (below : 0x80 + n % 0x40 ≤ high.toNat) :
    continued value low high (count + 1) ((0x80 + n % 0x40).toUInt8 :: rest) = continued (value * 64 + n % 0x40) 0x80 0xbf count rest := by
  have byte : (0x80 + n % 0x40).toUInt8.toNat = 0x80 + n % 0x40 := toNat_toUInt8 (by omega)
  have within : low ≤ (0x80 + n % 0x40).toUInt8 ∧ (0x80 + n % 0x40).toUInt8 ≤ high := by
    rw [UInt8.le_iff_toNat_le, UInt8.le_iff_toNat_le, byte]
    exact ⟨above, below⟩
  rw [continued, if_pos within, byte, Nat.add_sub_cancel_left]

theorem continued_tail_any : continued value 0x80 0xbf (count + 1) ((0x80 + n % 0x40).toUInt8 :: rest) =
    continued (value * 64 + n % 0x40) 0x80 0xbf count rest :=
  continued_tail (by simp) (by simp; omega)

theorem decodeNext_two (least : 0x80 ≤ n) (most : n < 0x800) :
    decodeNext (0xc0 + n / 0x40).toUInt8 ((0x80 + n % 0x40).toUInt8 :: rest) = (some (Char.ofNat n), rest) := by
  have lead : (0xc0 + n / 0x40).toUInt8.toNat = 0xc0 + n / 0x40 := toNat_toUInt8 (by omega)
  have whole : (0xc0 + n / 0x40 - 0xc0) * 64 + n % 0x40 = n := by omega
  simp only [decodeNext, lead]
  rw [if_neg (by omega), if_pos (by omega), continued_tail_any, whole, continued_zero]

-- The first byte after the lead is bounded more tightly at either end of the range, and there are no surrogates.
theorem decodeNext_three (least : 0x800 ≤ n) (most : n < 0x10000) (noSurrogate : n < 0xd800 ∨ 0xdfff < n) :
    decodeNext (0xe0 + n / 0x1000).toUInt8 ((0x80 + n / 0x40 % 0x40).toUInt8 :: (0x80 + n % 0x40).toUInt8 :: rest) =
      (some (Char.ofNat n), rest) := by
  have lead : (0xe0 + n / 0x1000).toUInt8.toNat = 0xe0 + n / 0x1000 := toNat_toUInt8 (by omega)
  simp only [decodeNext, lead]
  rw [if_neg (by omega), if_neg (by omega)]
  split
  · have whole : (0 * 64 + n / 0x40 % 0x40) * 64 + n % 0x40 = n := by omega
    rw [continued_tail (by simp; omega) (by simp; omega), continued_tail_any, whole, continued_zero]
  split
  · have whole : (0xd * 64 + n / 0x40 % 0x40) * 64 + n % 0x40 = n := by omega
    rw [continued_tail (by simp) (by simp; omega), continued_tail_any, whole, continued_zero]
  · have whole : ((0xe0 + n / 0x1000 - 0xe0) * 64 + n / 0x40 % 0x40) * 64 + n % 0x40 = n := by omega
    rw [if_pos (by omega), continued_tail_any, continued_tail_any, whole, continued_zero]

theorem decodeNext_four (least : 0x10000 ≤ n) (most : n < 0x110000) :
    decodeNext (0xf0 + n / 0x40000).toUInt8
        ((0x80 + n / 0x1000 % 0x40).toUInt8 :: (0x80 + n / 0x40 % 0x40).toUInt8 :: (0x80 + n % 0x40).toUInt8 :: rest) =
      (some (Char.ofNat n), rest) := by
  have lead : (0xf0 + n / 0x40000).toUInt8.toNat = 0xf0 + n / 0x40000 := toNat_toUInt8 (by omega)
  simp only [decodeNext, lead]
  rw [if_neg (by omega), if_neg (by omega), if_neg (by omega), if_neg (by omega), if_neg (by omega)]
  split
  · have whole : ((0 * 64 + n / 0x1000 % 0x40) * 64 + n / 0x40 % 0x40) * 64 + n % 0x40 = n := by omega
    rw [continued_tail (by simp; omega) (by simp; omega), continued_tail_any, continued_tail_any, whole, continued_zero]
  split
  · have whole : (((0xf0 + n / 0x40000 - 0xf0) * 64 + n / 0x1000 % 0x40) * 64 + n / 0x40 % 0x40) * 64 + n % 0x40 = n := by omega
    rw [continued_tail_any, continued_tail_any, continued_tail_any, whole, continued_zero]
  · have whole : ((4 * 64 + n / 0x1000 % 0x40) * 64 + n / 0x40 % 0x40) * 64 + n % 0x40 = n := by omega
    rw [if_pos (by omega), continued_tail (by simp) (by simp; omega), continued_tail_any, continued_tail_any, whole,
      continued_zero]

theorem pieces_encodeChar (c : Char) (rest : List UInt8) : pieces (encodeChar c ++ rest) = some c :: pieces rest := by
  have valid : c.toNat < 0xd800 ∨ 0xdfff < c.toNat ∧ c.toNat < 0x110000 := c.valid
  have same : Char.ofNat c.toNat = c := c.ofNat_toNat
  simp only [encodeChar, Nat.div_one]
  split
  · have lead : c.toNat.toUInt8.toNat = c.toNat := toNat_toUInt8 (by omega)
    have next : decodeNext c.toNat.toUInt8 rest = (some c, rest) := by
      simp only [decodeNext, lead]
      rw [if_pos (by omega), same]
    rw [List.singleton_append, pieces, next]
  split
  · rw [List.cons_append, List.singleton_append, pieces, decodeNext_two (n := c.toNat) (by omega) (by omega), same]
  split
  · rw [List.cons_append, List.cons_append, List.singleton_append, pieces,
      decodeNext_three (n := c.toNat) (by omega) (by omega) (by omega), same]
  · rw [List.cons_append, List.cons_append, List.cons_append, List.singleton_append, pieces,
      decodeNext_four (n := c.toNat) (by omega) (by omega), same]

theorem decode?_encode (s : String) : decode? (encode s) = some s := by
  have read : ∀ cs : List Char, pieces (cs.flatMap encodeChar) = cs.map some := fun cs => by
    induction cs with
    | nil => rw [List.flatMap_nil, pieces, List.map_nil]
    | cons c cs ih => rw [List.flatMap_cons, pieces_encodeChar, ih, List.map_cons]
  have whole : (s.toList.map some).mapM id = some s.toList := by
    rw [List.mapM_map]
    exact (List.mapM_pure (m := Option) (f := id)).trans (by rw [List.map_id]; rfl)
  rw [decode?, encode, read, whole, Option.map_some, String.ofList_toList]

end MarkupEditor.Text
