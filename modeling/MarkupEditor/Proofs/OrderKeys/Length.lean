import Mathlib.Data.Nat.Log
import MarkupEditor.Proofs.OrderKeys.Room

namespace MarkupEditor

namespace OrderKey

theorem length_ofBytes (bytes : List UInt8) : (ofBytes bytes).length = bytes.length := by
  rw [ofBytes, String.length_ofList, List.length_map]

theorem WellFormed.length_encode {key : String} (formed : WellFormed key) : (Text.encode key).length = key.length := by
  obtain ⟨bytes, ⟨digits, _⟩, rfl⟩ := wellFormed_iff.mp formed
  rw [encode_ofBytes digits, length_ofBytes]

theorem length_above_le (bytes : List UInt8) : (above bytes).length ≤ bytes.length + 1 := by
  induction bytes with
  | nil => simp [above]
  | cons b bytes ih =>
    rw [above]
    split
    · simp
    · simpa using ih

-- The digits that the bounds share are counted once; after them there is one digit, or the rest of the lower bound made longer.
theorem length_inside_le (lower upper : List UInt8) : (inside lower upper).length ≤ max lower.length upper.length + 1 := by
  induction upper generalizing lower with
  | nil =>
    rw [inside]
    exact (length_above_le lower).trans (Nat.succ_le_succ (Nat.le_max_left ..))
  | cons u us ih =>
    have tail : lower.tail.length + 1 ≤ max lower.length (us.length + 1) := by
      rw [List.length_tail]
      omega
    rw [inside]
    split
    · have shared := ih lower.tail
      simp only [List.length_cons]
      omega
    · dsimp only
      split
      · simp
      · split
        · have longer := length_above_le lower.tail
          simp only [List.length_cons]
          omega
        · simp

theorem length_between_le {lower upper : String} (lowerFormed : WellFormed lower) (upperFormed : WellFormed upper) :
    (between (some lower) (some upper)).length ≤ max lower.length upper.length + 1 := by
  obtain ⟨low, ⟨lowDigits, _⟩, rfl⟩ := wellFormed_iff.mp lowerFormed
  obtain ⟨high, highFormed, rfl⟩ := wellFormed_iff.mp upperFormed
  rw [between, Option.getD_some]
  simp only [encode_ofBytes lowDigits, encode_ofBytes highFormed.1, ofBytes_lt_iff, length_ofBytes]
  split
  · rename_i less
    rw [decode_formed (inside_formed lowDigits highFormed less).1, length_ofBytes]
    exact length_inside_le low high
  · rw [decode_formed (above_formed lowDigits), length_ofBytes]
    exact (length_above_le low).trans (Nat.succ_le_succ (Nat.le_max_left ..))

-- Each side of the middle key has at most half as many keys as the whole, which makes up for its longer bound.
theorem length_batch_le {lower upper : Option String} (lowerFormed : ∀ key ∈ lower, WellFormed key)
    (upperFormed : ∀ key ∈ upper, WellFormed key) (n : Nat) {low high : String} (isLow : low ∈ lower) (isHigh : high ∈ upper) :
    ∀ key ∈ batch lower upper n, key.length ≤ max low.length high.length + Nat.log 2 n + 1 := by
  fun_induction batch lower upper n generalizing low high with
  | case1 => simp
  | case2 =>
    obtain ⟨rfl, rfl⟩ : _ = some low ∧ _ = some high := ⟨isLow, isHigh⟩
    intro key member
    rw [List.mem_singleton.mp member, Nat.log_one_right]
    exact length_between_le (lowerFormed low rfl) (upperFormed high rfl)
  | case3 => cases isHigh
  | case4 => cases isLow
  | case5 n _ several lower upper middle ih ih' =>
    obtain ⟨rfl, rfl⟩ : lower = low ∧ upper = high := ⟨Option.some.inj isLow, Option.some.inj isHigh⟩
    -- The middle key may be one digit longer than the bounds, and each side has at most half of the keys: one halving
    -- pays for one digit.
    have split : middle.length ≤ max lower.length upper.length + 1 := length_between_le (lowerFormed lower rfl) (upperFormed upper rfl)
    have formed : ∀ key ∈ some middle, WellFormed key := by simpa using (between_fits lowerFormed upperFormed).formed
    have halved : Nat.log 2 n = Nat.log 2 (n / 2) + 1 := Nat.log_of_one_lt_of_le (by decide) (by omega)
    have fewer : Nat.log 2 (n - n / 2 - 1) ≤ Nat.log 2 (n / 2) := Nat.log_mono_right (by omega)
    intro key member
    rcases List.mem_append.mp member with before | rest
    · have bound := ih lowerFormed formed rfl rfl key before
      omega
    · rcases List.mem_cons.mp rest with rfl | after
      · omega
      · have bound := ih' formed upperFormed rfl rfl key after
        omega

-- Keys stay short: however many keys are asked for between two bounds, each is at most as long as the longer bound, one
-- digit more, and one digit for each time that the count can be halved.
theorem batch_keys_stay_short {lower upper : String} (lowerFormed : WellFormed lower) (upperFormed : WellFormed upper) (n : Nat) :
    (batch (some lower) (some upper) n).length = n ∧
      ∀ key ∈ batch (some lower) (some upper) n, (Text.encode key).length = key.length ∧
        key.length ≤ max lower.length upper.length + Nat.log 2 n + 1 := by
  have low : ∀ key ∈ some lower, WellFormed key := fun key held => Option.some.inj held ▸ lowerFormed
  have high : ∀ key ∈ some upper, WellFormed key := fun key held => Option.some.inj held ▸ upperFormed
  obtain ⟨count, fits⟩ := batch_fits low high n
  exact ⟨count, fun key member => ⟨(fits.formed key member).length_encode, length_batch_le low high n rfl rfl key member⟩⟩

theorem batch_keys_stay_short_neighbours :
    WellFormed "V" ∧ WellFormed "W" ∧ (batch (some "V") (some "W") 9).length = 9 ∧ ∀ key ∈ batch (some "V") (some "W") 9, key.length ≤ 5 := by
  have lower : WellFormed "V" := by decide +kernel
  have upper : WellFormed "W" := by decide +kernel
  obtain ⟨count, short⟩ := batch_keys_stay_short lower upper 9
  exact ⟨lower, upper, count, fun key member => (short key member).2⟩

end OrderKey

end MarkupEditor
