import MarkupEditor.Proofs.OrderKeys

namespace MarkupEditor

namespace OrderKey

def WellFormed (key : String) : Prop := key ≠ "" ∧ (∀ c ∈ key.toList, c.isAlphanum = true) ∧ key.toList.getLast? ≠ some '0'

instance (key : String) : Decidable (WellFormed key) :=
  decidable_of_iff ((key != "" && key.toList.all Char.isAlphanum && key.toList.getLast? != some '0') = true) (by simp [WellFormed, and_assoc])

theorem IsDigit.isAlphanum {b : UInt8} (isDigit : IsDigit b) : (Char.ofNat b.toNat).isAlphanum = true := by
  have all : ∀ n < base, (Char.ofNat (digit n).toNat).isAlphanum = true := by decide
  obtain ⟨n, within, rfl⟩ := isDigit
  exact all n within

theorem toNat_lt_of_isAlphanum {c : Char} (alphanum : c.isAlphanum = true) : c.toNat < 256 := by
  change ((decide (c.val ≥ 'A'.val ∧ c.val ≤ 'Z'.val) || decide (c.val ≥ 'a'.val) && decide (c.val ≤ 'z'.val)) ||
    decide (c.val ≥ '0'.val) && decide (c.val ≤ '9'.val)) = true at alphanum
  simp only [Bool.or_eq_true, Bool.and_eq_true, decide_eq_true_eq, UInt32.le_iff_toNat_le, ge_iff_le] at alphanum
  change ((65 ≤ c.toNat ∧ c.toNat ≤ 90) ∨ (97 ≤ c.toNat ∧ c.toNat ≤ 122)) ∨ (48 ≤ c.toNat ∧ c.toNat ≤ 57) at alphanum
  omega

theorem isDigit_of_isAlphanum {c : Char} (alphanum : c.isAlphanum = true) : IsDigit c.toNat.toUInt8 := by
  have all : ∀ n < 256, (Char.ofNat n).isAlphanum = true → digitValue n.toUInt8 < base ∧ digit (digitValue n.toUInt8) = n.toUInt8 := by
    decide +kernel
  exact ⟨_, all c.toNat (toNat_lt_of_isAlphanum alphanum) (by rwa [Char.ofNat_toNat])⟩

def Formed (bytes : List UInt8) : Prop := (∀ b ∈ bytes, IsDigit b) ∧ ∃ last, bytes.getLast? = some last ∧ last ≠ 48

theorem Formed.cons {b : UInt8} {bytes : List UInt8} (isDigit : IsDigit b) (formed : Formed bytes) : Formed (b :: bytes) := by
  obtain ⟨digits, last, same, nonzero⟩ := formed
  refine ⟨List.forall_mem_cons.mpr ⟨isDigit, digits⟩, last, ?_, nonzero⟩
  rw [List.getLast?_cons, same]
  rfl

theorem Formed.tail {b : UInt8} {bytes : List UInt8} (formed : Formed (b :: bytes)) (more : bytes ≠ []) : Formed bytes := by
  obtain ⟨digits, last, same, nonzero⟩ := formed
  refine ⟨(List.forall_mem_cons.mp digits).2, last, ?_, nonzero⟩
  obtain ⟨first, rest, rfl⟩ := List.exists_cons_of_ne_nil more
  rwa [List.getLast?_cons_cons] at same

theorem formed_digit {n : Nat} (positive : 0 < n) (within : n < base) : Formed [digit n] := by
  have zero : digit 0 < digit n := digit_lt_digit positive within
  refine ⟨?_, digit n, rfl, ?_⟩
  · intro b member
    rw [List.mem_singleton.mp member]
    exact ⟨n, within, rfl⟩
  · intro same
    rw [same] at zero
    exact absurd zero (by decide)

theorem wellFormed_iff {key : String} : WellFormed key ↔ ∃ bytes, Formed bytes ∧ ofBytes bytes = key := by
  constructor
  · rintro ⟨nonempty, alphanum, last⟩
    have same : ofBytes (key.toList.map fun c => c.toNat.toUInt8) = key := by
      rw [ofBytes, List.map_map, ← String.toList_inj, String.toList_ofList]
      refine (List.map_congr_left fun c member => ?_).trans (List.map_id _)
      simp only [Function.comp_apply, Text.toNat_toUInt8 (toNat_lt_of_isAlphanum (alphanum c member)), Char.ofNat_toNat, id_eq]
    refine ⟨_, ⟨?_, ?_⟩, same⟩
    · intro b member
      obtain ⟨c, listed, rfl⟩ := List.mem_map.mp member
      exact isDigit_of_isAlphanum (alphanum c listed)
    · have listed : key.toList ≠ [] := fun nothing => nonempty (String.toList_eq_nil_iff.mp nothing)
      have ends := List.getLast?_eq_getLast_of_ne_nil listed
      refine ⟨(key.toList.getLast listed).toNat.toUInt8, by rw [List.getLast?_map, ends]; rfl, fun zero => last ?_⟩
      have back := Text.toNat_toUInt8 (toNat_lt_of_isAlphanum (alphanum _ (List.getLast_mem listed)))
      rw [zero] at back
      rw [ends, ← Char.ofNat_toNat (key.toList.getLast listed), ← back]
      rfl
  · rintro ⟨bytes, ⟨digits, last, same, nonzero⟩, rfl⟩
    have chars : (ofBytes bytes).toList = bytes.map fun b => Char.ofNat b.toNat := String.toList_ofList
    refine ⟨?_, ?_, ?_⟩
    · intro nothing
      have empty := congrArg String.toList nothing
      rw [chars, String.toList_empty, List.map_eq_nil_iff] at empty
      rw [empty] at same
      cases same
    · intro c member
      rw [chars] at member
      obtain ⟨b, listed, rfl⟩ := List.mem_map.mp member
      exact (digits b listed).isAlphanum
    · rw [chars, List.getLast?_map, same]
      intro zero
      have code := congrArg Char.toNat (Option.some.inj zero)
      rw [toNat_ofNat last.toNat_lt] at code
      exact nonzero (UInt8.toNat_inj.mp code)

theorem ofBytes_lt_iff {bytes bytes' : List UInt8} : ofBytes bytes < ofBytes bytes' ↔ bytes < bytes' := by
  constructor
  · intro less
    by_contra before
    rcases List.le_iff_lt_or_eq.mp (List.not_lt.mp before) with after | same
    · exact lt_asymm less (ofBytes_lt after)
    · exact lt_irrefl _ (same ▸ less)
  · exact ofBytes_lt

theorem above_formed {bytes : List UInt8} (digits : ∀ b ∈ bytes, IsDigit b) : Formed (above bytes) := by
  induction bytes with
  | nil => exact formed_digit (by decide) (by decide)
  | cons b bytes ih =>
    obtain ⟨⟨n, within, rfl⟩, later⟩ := List.forall_mem_cons.mp digits
    rw [above]
    simp only [digitValue_digit within]
    split
    · rename_i room
      simp only [base] at room
      exact formed_digit (by omega) (by simp only [base]; omega)
    · exact Formed.cons ⟨n, within, rfl⟩ (ih later)

theorem lt_of_digit_lt {m n : Nat} (within : m < base) (less : digit m < digit n) : m < n := by
  by_contra after
  rcases Nat.lt_or_eq_of_le (Nat.not_lt.mp after) with before | same
  · exact absurd less (UInt8.lt_asymm (digit_lt_digit before within))
  · exact UInt8.lt_irrefl _ (same ▸ less)

theorem head_below {lower us : List UInt8} {high : Nat} (digits : ∀ b ∈ lower, IsDigit b) (within : high < base)
    (less : lower < digit high :: us) (apart : lower.headD 48 ≠ digit high) :
    ∃ low < high, (lower.head?.map digitValue).getD 0 = low ∧ (∀ n rest, low < n → n < base → lower < digit n :: rest) ∧
      lower < digit low :: above lower.tail := by
  cases lower with
  | nil =>
    have positive : high ≠ 0 := by
      rintro rfl
      exact apart rfl
    exact ⟨0, Nat.pos_of_ne_zero positive, rfl, fun n rest _ _ => List.nil_lt_cons .., List.nil_lt_cons ..⟩
  | cons l ls =>
    obtain ⟨⟨low, lowWithin, rfl⟩, later⟩ := List.forall_mem_cons.mp digits
    have before : digit low < digit high := (List.cons_lt_cons_iff.mp less).resolve_right fun same => apart same.1
    refine ⟨low, lt_of_digit_lt lowWithin before, digitValue_digit lowWithin, fun n rest between inside => ?_, ?_⟩
    · exact List.cons_lt_cons_iff.mpr (.inl (digit_lt_digit between inside))
    · exact List.cons_lt_cons_iff.mpr (.inr ⟨rfl, (above_digits later).2⟩)

-- After the digits that the bounds share there is a digit in between, or the first digit of a longer upper bound is,
-- or the lower bound is made longer.
theorem inside_formed {lower upper : List UInt8} (digits : ∀ b ∈ lower, IsDigit b) (formed : Formed upper) (less : lower < upper) :
    Formed (inside lower upper) ∧ lower < inside lower upper ∧ inside lower upper < upper := by
  induction upper generalizing lower with
  | nil => exact absurd less (List.not_lt_nil lower)
  | cons u us ih =>
    obtain ⟨high, within, rfl⟩ := (List.forall_mem_cons.mp formed.1).1
    rw [inside]
    split
    -- The first digits agree and are copied. A missing digit of the lower bound counts as zero, which the last digit of
    -- the upper one is not.
    · rename_i shared
      have more : us ≠ [] ∧ lower.tail < us := by
        cases lower with
        | nil =>
          have longer : us ≠ [] := by
            rintro rfl
            obtain ⟨_, last, same, nonzero⟩ := formed
            exact nonzero ((Option.some.inj same).symm.trans shared.symm)
          obtain ⟨first, rest, rfl⟩ := List.exists_cons_of_ne_nil longer
          exact ⟨longer, List.nil_lt_cons ..⟩
        | cons l ls =>
          have before : ls < us := by
            rcases List.cons_lt_cons_iff.mp less with first | ⟨_, later⟩
            · exact absurd first (shared ▸ UInt8.lt_irrefl _)
            · exact later
          refine ⟨?_, before⟩
          rintro rfl
          exact List.not_lt_nil ls before
      obtain ⟨whole, after, before⟩ := ih (fun b member => digits b (List.mem_of_mem_tail member)) (formed.tail more.1) more.2
      refine ⟨whole.cons ⟨high, within, rfl⟩, ?_, List.cons_lt_cons_iff.mpr (.inr ⟨rfl, before⟩)⟩
      cases lower with
      | nil => exact List.nil_lt_cons ..
      | cons l ls => exact List.cons_lt_cons_iff.mpr (.inr ⟨shared, after⟩)
    · rename_i apart
      obtain ⟨low, below, value, after, longer⟩ := head_below digits within less apart
      simp only [value, digitValue_digit within]
      split
      · rename_i room
        have middle : low < (low + high + 1) / 2 ∧ (low + high + 1) / 2 < high := by omega
        refine ⟨formed_digit (by omega) (by omega), after _ _ middle.1 (by omega), ?_⟩
        exact List.cons_lt_cons_iff.mpr (.inl (digit_lt_digit middle.2 within))
      · split
        · have tail : ∀ b ∈ lower.tail, IsDigit b := fun b member => digits b (List.mem_of_mem_tail member)
          refine ⟨(above_formed tail).cons ⟨low, by omega, rfl⟩, longer, ?_⟩
          exact List.cons_lt_cons_iff.mpr (.inl (digit_lt_digit below within))
        · rename_i more
          obtain ⟨first, rest, rfl⟩ := List.exists_cons_of_ne_nil (mt List.isEmpty_iff.mpr more)
          refine ⟨formed_digit (by omega) within, after _ _ below within, ?_⟩
          exact List.cons_lt_cons_iff.mpr (.inr ⟨rfl, List.nil_lt_cons ..⟩)

-- Well-formed keys in order, above the lower bound, and below the upper one unless the bounds are out of order.
structure Fits (lower upper : Option String) (keys : List String) : Prop where
  formed : ∀ key ∈ keys, WellFormed key
  ascending : keys.Pairwise (· < ·)
  above : ∀ low ∈ lower, ∀ key ∈ keys, low < key
  below : (∀ low ∈ lower, ∀ high ∈ upper, low < high) → ∀ high ∈ upper, ∀ key ∈ keys, key < high

theorem Fits.nil {lower upper : Option String} : Fits lower upper [] := ⟨by simp, .nil, by simp, by simp⟩

theorem Fits.around {lower upper : Option String} {key : String} {before after : List String} (middle : Fits lower upper [key])
    (first : Fits lower (some key) before) (later : Fits (some key) upper after) : Fits lower upper (before ++ key :: after) := by
  have own : ∀ low ∈ lower, low < key := fun low held => middle.above low held key List.mem_cons_self
  have less : ∀ k ∈ before, k < key := fun k member => first.below (by simpa using own) key rfl k member
  have more : ∀ k ∈ after, key < k := later.above key rfl
  refine ⟨?_, ?_, ?_, ?_⟩
  · simp only [List.mem_append, List.mem_cons]
    rintro k (member | rfl | member)
    · exact first.formed k member
    · exact middle.formed k List.mem_cons_self
    · exact later.formed k member
  · refine List.pairwise_append.mpr ⟨first.ascending, List.pairwise_cons.mpr ⟨more, later.ascending⟩, fun a left b right => ?_⟩
    rcases List.mem_cons.mp right with rfl | right
    · exact less a left
    · exact (less a left).trans (more b right)
  · simp only [List.mem_append, List.mem_cons]
    rintro low held k (member | rfl | member)
    · exact first.above low held k member
    · exact own low held
    · exact (own low held).trans (more k member)
  · intro inOrder high held
    have under : key < high := middle.below inOrder high held key List.mem_cons_self
    simp only [List.mem_append, List.mem_cons]
    rintro k (member | rfl | member)
    · exact (less k member).trans under
    · exact under
    · exact later.below (by simpa using fun high held => middle.below inOrder high held key List.mem_cons_self) high held k member

theorem lower_bytes {lower : Option String} (formed : ∀ key ∈ lower, WellFormed key) :
    ∃ low : List UInt8, (∀ b ∈ low, IsDigit b) ∧ lower.getD "" = ofBytes low := by
  cases lower with
  | none => exact ⟨[], by simp, rfl⟩
  | some key =>
    obtain ⟨bytes, ⟨digits, _⟩, same⟩ := wellFormed_iff.mp (formed key rfl)
    exact ⟨bytes, digits, same.symm⟩

theorem decode_formed {bytes : List UInt8} (formed : Formed bytes) : (Text.decode? bytes).getD default = ofBytes bytes := by
  rw [decode?_ofBytes formed.1]
  rfl

theorem between_bytes {lower upper : Option String} {low : List UInt8} (digits : ∀ b ∈ low, IsDigit b) (same : lower.getD "" = ofBytes low)
    (upperFormed : ∀ key ∈ upper, WellFormed key) :
    ∃ bytes, Formed bytes ∧ between lower upper = ofBytes bytes ∧ low < bytes ∧ ∀ high ∈ upper, ofBytes low < high → ofBytes bytes < high := by
  have ahead := above_formed digits
  have after := (above_digits digits).2
  cases upper with
  | none =>
    refine ⟨above low, ahead, ?_, after, by simp⟩
    rw [between, same, encode_ofBytes digits]
    exact decode_formed ahead
  | some high =>
    obtain ⟨bytes, formed, rfl⟩ := wellFormed_iff.mp (upperFormed high rfl)
    rw [between, same]
    simp only [encode_ofBytes digits, encode_ofBytes formed.1, ofBytes_lt_iff]
    split
    · rename_i less
      obtain ⟨whole, greater, smaller⟩ := inside_formed digits formed less
      refine ⟨inside low bytes, whole, decode_formed whole, greater, fun high held _ => ?_⟩
      rw [← Option.some.inj held]
      exact ofBytes_lt smaller
    · rename_i unordered
      refine ⟨above low, ahead, decode_formed ahead, after, fun high held less => absurd ?_ unordered⟩
      rwa [← Option.some.inj held, ofBytes_lt_iff] at less

theorem between_fits {lower upper : Option String} (lowerFormed : ∀ key ∈ lower, WellFormed key) (upperFormed : ∀ key ∈ upper, WellFormed key) :
    Fits lower upper [between lower upper] := by
  obtain ⟨low, digits, same⟩ := lower_bytes lowerFormed
  obtain ⟨bytes, formed, key, after, before⟩ := between_bytes digits same upperFormed
  have one : ∀ k ∈ [between lower upper], k = ofBytes bytes := fun k member => (List.mem_singleton.mp member).trans key
  refine ⟨?_, List.pairwise_singleton .., ?_, ?_⟩
  · intro k member
    rw [one k member]
    exact wellFormed_iff.mpr ⟨bytes, formed, rfl⟩
  · intro l held k member
    obtain rfl : lower = some l := held
    rw [one k member, show l = ofBytes low from same]
    exact ofBytes_lt after
  · intro inOrder high held k member
    rw [one k member]
    apply before high held
    rw [← same]
    cases lower with
    | some l => exact inOrder l rfl high held
    | none =>
      obtain ⟨first, ⟨_, last, ends, _⟩, rfl⟩ := wellFormed_iff.mp (upperFormed high held)
      have empty : (none : Option String).getD "" = ofBytes [] := rfl
      rw [empty]
      cases first with
      | nil => cases ends
      | cons b rest => exact ofBytes_lt (List.nil_lt_cons b rest)

theorem ascending_fits {lower : Option String} (formed : ∀ key ∈ lower, WellFormed key) (n : Nat) : Fits lower none (ascending lower n) := by
  induction n generalizing lower with
  | zero => exact .nil
  | succ n ih =>
    have middle := @between_fits lower none formed (by simp)
    exact middle.around .nil (ih (by simpa using middle.formed))

theorem descending_fits {upper : Option String} (formed : ∀ key ∈ upper, WellFormed key) (n : Nat) :
    Fits none upper (descending upper n).reverse := by
  induction n generalizing upper with
  | zero => exact .nil
  | succ n ih =>
    have middle := @between_fits none upper (by simp) formed
    rw [descending, List.reverse_cons]
    exact middle.around (ih (by simpa using middle.formed)) .nil

theorem length_descending (upper : Option String) (n : Nat) : (descending upper n).length = n := by
  induction n generalizing upper with
  | zero => rfl
  | succ n ih => rw [descending, List.length_cons, ih]

theorem batch_fits {lower upper : Option String} (lowerFormed : ∀ key ∈ lower, WellFormed key) (upperFormed : ∀ key ∈ upper, WellFormed key)
    (n : Nat) : (batch lower upper n).length = n ∧ Fits lower upper (batch lower upper n) := by
  fun_induction batch lower upper n with
  | case1 => exact ⟨rfl, .nil⟩
  | case2 => exact ⟨rfl, between_fits lowerFormed upperFormed⟩
  | case3 n _ _ lower => exact ⟨length_ascending lower n, ascending_fits lowerFormed n⟩
  | case4 n _ _ upper =>
    rw [List.length_reverse]
    exact ⟨length_descending upper n, descending_fits upperFormed n⟩
  | case5 n _ several lower upper middle ih ih' =>
    have split := between_fits lowerFormed upperFormed
    have formed : ∀ key ∈ some middle, WellFormed key := by simpa using split.formed
    obtain ⟨size, first⟩ := ih lowerFormed formed
    obtain ⟨size', later⟩ := ih' formed upperFormed
    refine ⟨?_, split.around first later⟩
    rw [List.length_append, List.length_cons, size, size']
    omega

theorem Fits.amid {before after keys : List String} (ascending : (before ++ after).Pairwise (· < ·))
    (fits : Fits before.getLast? after.head? keys) : (∀ a ∈ before, ∀ k ∈ keys, a < k) ∧ ∀ k ∈ keys, ∀ b ∈ after, k < b := by
  obtain ⟨left, right, apart⟩ := List.pairwise_append.mp ascending
  have inOrder : ∀ low ∈ before.getLast?, ∀ high ∈ after.head?, low < high := fun low held high held' =>
    apart low (List.mem_of_getLast? held) high (List.mem_of_mem_head? held')
  constructor
  · intro a member k listed
    obtain ⟨init, last, rfl⟩ := (List.eq_nil_or_concat' before).resolve_left (List.ne_nil_of_mem member)
    have above : last < k := fits.above last (by simp) k listed
    rcases List.mem_append.mp member with member | member
    · exact ((List.pairwise_append.mp left).2.2 a member last List.mem_cons_self).trans above
    · rwa [List.mem_singleton.mp member]
  · intro k listed b member
    obtain ⟨first, rest, rfl⟩ := List.exists_cons_of_ne_nil (List.ne_nil_of_mem member)
    have under : k < first := fits.below inOrder first rfl k listed
    rcases List.mem_cons.mp member with rfl | member
    · exact under
    · exact under.trans ((List.pairwise_cons.mp right).1 b member)

-- The keys with so many more at a place, taken between the neighbours there.
def grow (keys : List String) (place count : Nat) : List String :=
  keys.take place ++ batch (keys.take place).getLast? (keys.drop place).head? count ++ keys.drop place

theorem grow_ascending {keys : List String} (formed : ∀ key ∈ keys, WellFormed key) (ascending : keys.Pairwise (· < ·)) (place count : Nat) :
    (∀ key ∈ grow keys place count, WellFormed key) ∧ (grow keys place count).Pairwise (· < ·) := by
  have left : ∀ key ∈ keys.take place, WellFormed key := fun key member => formed key (List.mem_of_mem_take member)
  have right : ∀ key ∈ keys.drop place, WellFormed key := fun key member => formed key (List.mem_of_mem_drop member)
  obtain ⟨_, fits⟩ := batch_fits (fun low held => left low (List.mem_of_getLast? held))
    (fun high held => right high (List.mem_of_mem_head? held)) count
  rw [← List.take_append_drop place keys] at ascending
  obtain ⟨above, below⟩ := fits.amid ascending
  obtain ⟨before, after, apart⟩ := List.pairwise_append.mp ascending
  constructor
  · simp only [grow, List.mem_append]
    rintro key ((member | member) | member)
    · exact left key member
    · exact fits.formed key member
    · exact right key member
  · refine List.pairwise_append.mpr ⟨List.pairwise_append.mpr ⟨before, fits.ascending, above⟩, after, ?_⟩
    intro a member b later
    rcases List.mem_append.mp member with member | member
    · exact apart a member b later
    · exact below a member b later

theorem grown_ascending {keys : List String} (formed : ∀ key ∈ keys, WellFormed key) (ascending : keys.Pairwise (· < ·))
    (insertions : List (Nat × Nat)) : (insertions.foldl (fun keys i => grow keys i.1 i.2) keys).Pairwise (· < ·) := by
  induction insertions generalizing keys with
  | nil => exact ascending
  | cons i insertions ih =>
    obtain ⟨whole, inOrder⟩ := grow_ascending formed ascending i.1 i.2
    exact ih whole inOrder

theorem lt_iff_encode_lt {key key' : String} (formed : WellFormed key) (formed' : WellFormed key') :
    key < key' ↔ Text.encode key < Text.encode key' := by
  obtain ⟨bytes, ⟨digits, _⟩, rfl⟩ := wellFormed_iff.mp formed
  obtain ⟨bytes', ⟨digits', _⟩, rfl⟩ := wellFormed_iff.mp formed'
  rw [encode_ofBytes digits, encode_ofBytes digits', ofBytes_lt_iff]

-- Keys never run out: any number of well-formed keys fits between two bounds, in the order of their bytes, and a list
-- that grows by such keys between its neighbours stays in order. Single keys are batches of one.
theorem batch_never_runs_out {lower upper : Option String} (lowerFormed : ∀ key ∈ lower, WellFormed key)
    (upperFormed : ∀ key ∈ upper, WellFormed key) (n : Nat) :
    (batch lower upper n).length = n ∧ Fits lower upper (batch lower upper n) ∧ batch lower upper 1 = [between lower upper] ∧
      (∀ key key', WellFormed key → WellFormed key' → (key < key' ↔ Text.encode key < Text.encode key')) ∧
      ∀ keys : List String, (∀ key ∈ keys, WellFormed key) → keys.Pairwise (· < ·) → ∀ insertions : List (Nat × Nat),
        (insertions.foldl (fun keys i => grow keys i.1 i.2) keys).Pairwise (· < ·) := by
  obtain ⟨length, fits⟩ := batch_fits lowerFormed upperFormed n
  refine ⟨length, fits, ?_, fun key key' => lt_iff_encode_lt, fun keys => grown_ascending⟩
  rw [batch.eq_def]
  rfl

theorem batch_never_runs_out_neighbours :
    (∀ key ∈ some "Az9", WellFormed key) ∧ (∀ key ∈ some "B", WellFormed key) ∧ (batch (some "Az9") (some "B") 5).length = 5 ∧
      Fits (some "Az9") (some "B") (batch (some "Az9") (some "B") 5) ∧
      ([(0, 3), (1, 2), (4, 1)].foldl (fun keys i => grow keys i.1 i.2) ["V"]).Pairwise (· < ·) := by
  have bound : ∀ {key : String}, WellFormed key → ∀ k ∈ some key, WellFormed k := by
    intro key formed k held
    exact Option.some.inj held ▸ formed
  have lower := @bound "Az9" (by decide +kernel)
  have upper := @bound "B" (by decide +kernel)
  have first : ∀ key ∈ ["V"], WellFormed key := by
    intro key member
    rw [List.mem_singleton.mp member]
    decide +kernel
  obtain ⟨length, fits, _, _, grown⟩ := batch_never_runs_out lower upper 5
  refine ⟨lower, upper, length, fits, ?_⟩
  exact grown ["V"] first (List.pairwise_singleton _ _) [(0, 3), (1, 2), (4, 1)]

end OrderKey

end MarkupEditor
