import MarkupEditor.Json.Write
import Mathlib.Data.Nat.Basic
import MarkupEditor.Json.Scan

namespace MarkupEditor.Json

namespace Write

theorem hexDigit?_hexDigit : ∀ d, d < 16 → Scan.hexDigit? (hexDigit d) = some d := by decide

end Write

namespace Scan

open Json.Write (escapeChar hexDigit)

theorem space_cons {c : Char} (cs : List Char) (plain : isSpace c = false) : space (c :: cs) = c :: cs := by
  simp [space, plain]

theorem space_append {blank cs : List Char} (all : ∀ c ∈ blank, isSpace c) : space (blank ++ cs) = space cs :=
  List.dropWhile_append_of_pos all

theorem escape_control {c : Char} (control : c.toNat < 0x20) (cs : List Char) :
    escape ('u' :: '0' :: '0' :: hexDigit (c.toNat / 16) :: hexDigit (c.toNat % 16) :: cs) = .ok (c, cs) := by
  have zero : hexDigit? '0' = some 0 := by decide
  have high := Write.hexDigit?_hexDigit (c.toNat / 16) (by omega)
  have low := Write.hexDigit?_hexDigit (c.toNat % 16) (by omega)
  have unit : hexUnit ('0' :: '0' :: hexDigit (c.toNat / 16) :: hexDigit (c.toNat % 16) :: cs) = .ok (c.toNat, cs) := by
    simp only [hexUnit, zero, high, low, Except.ok.injEq, Prod.mk.injEq, and_true]
    omega
  have small : ¬ (0xdc00 ≤ c.toNat ∧ c.toNat ≤ 0xdfff) := by omega
  have high : ¬ (0xd800 ≤ c.toNat ∧ c.toNat ≤ 0xdbff) := by omega
  simp only [escape, unit, bind, Except.bind, if_neg small, if_neg high, Char.ofNat_toNat]
  rfl

theorem string_escape {cs rest : List Char} {c : Char} (read : escape cs = .ok (c, rest)) :
    string ('\\' :: cs) = (string rest).map fun found => (c :: found.1, found.2) := by
  rw [string, if_neg (by decide), if_pos rfl]
  split
  · rename_i failed
    rw [read] at failed
    cases failed
  · rename_i found
    rw [read] at found
    cases found
    cases string rest <;> rfl

theorem string_plain {c : Char} (quote : c ≠ '"') (slash : c ≠ '\\') (visible : ¬ c.toNat < 0x20) (cs : List Char) :
    string (c :: cs) = (string cs).map fun found => (c :: found.1, found.2) := by
  rw [string, if_neg quote, if_neg slash, if_neg visible]
  cases string cs <;> rfl

theorem string_escapeChar (c : Char) (cs : List Char) :
    string (escapeChar c ++ cs) = (string cs).map fun found => (c :: found.1, found.2) := by
  unfold escapeChar
  split
  · exact string_escape rfl
  · exact string_escape rfl
  · exact string_escape rfl
  · exact string_escape rfl
  · exact string_escape rfl
  · exact string_escape rfl
  · exact string_escape rfl
  · rename_i quote slash _ _ _ _ _
    split
    · rename_i control
      exact string_escape (escape_control control cs)
    · rename_i visible
      exact string_plain quote slash visible cs

theorem string_written (text rest : List Char) : string (text.flatMap escapeChar ++ '"' :: rest) = .ok (text, rest) := by
  induction text with
  | nil =>
    rw [List.flatMap_nil, List.nil_append, string]
    rfl
  | cons c text ih =>
    rw [List.flatMap_cons, List.append_assoc, string_escapeChar, ih]
    rfl

def EndsNumber (rest : List Char) : Prop := ∀ c ∈ rest.head?, c.isDigit = false ∧ c ≠ '.' ∧ c ≠ 'e' ∧ c ≠ 'E'

theorem inert_of_isSpace {c : Char} (blank : isSpace c) : c.isDigit = false ∧ c ≠ '.' ∧ c ≠ 'e' ∧ c ≠ 'E' := by
  simp only [isSpace, Bool.or_eq_true, beq_iff_eq] at blank
  obtain ((rfl | rfl) | rfl) | rfl := blank <;> decide

theorem natOf_toDigits (n : Nat) : natOf (Nat.toDigits 10 n) = n := by
  induction n using Nat.strongRecOn with
  | ind n ih =>
    have digit : ∀ d, d < 10 → d.digitChar.toNat - '0'.toNat = d := by decide
    by_cases small : n < 10
    · rw [Nat.toDigits_of_lt_base small]
      exact (Nat.zero_add _).trans (digit n small)
    · have step := ih (n / 10) (by omega)
      rw [natOf] at step ⊢
      rw [Nat.toDigits_of_base_le (by omega) (by omega), List.foldl_append, step, List.foldl_cons, List.foldl_nil,
        digit (n % 10) (by omega)]
      omega

theorem toDigits_ne_nil (n : Nat) : Nat.toDigits 10 n ≠ [] := by
  by_cases small : n < 10
  · rw [Nat.toDigits_of_lt_base small]
    simp
  · rw [Nat.toDigits_of_base_le (by omega) (by omega)]
    simp

theorem toDigits_zero {n : Nat} {ds : List Char} (spelled : Nat.toDigits 10 n = '0' :: ds) : ds = [] := by
  induction n using Nat.strongRecOn generalizing ds with
  | ind n ih =>
    by_cases small : n < 10
    · rw [Nat.toDigits_of_lt_base small] at spelled
      exact (List.cons.inj spelled).2.symm
    · exfalso
      rw [Nat.toDigits_of_base_le (by omega) (by omega)] at spelled
      cases high : Nat.toDigits 10 (n / 10) with
      | nil => exact toDigits_ne_nil _ high
      | cons d more =>
        rw [high] at spelled
        obtain ⟨rfl, _⟩ := List.cons.inj spelled
        obtain rfl := ih (n / 10) (by omega) high
        have value := natOf_toDigits (n / 10)
        rw [high] at value
        have zero : natOf ['0'] = 0 := by decide
        omega

theorem digits_append {ds rest : List Char} (all : ∀ c ∈ ds, c.isDigit) (ends : ∀ c ∈ rest.head?, c.isDigit = false) :
    digits (ds ++ rest) = (ds, rest) := by
  have stops : rest.takeWhile Char.isDigit = [] ∧ rest.dropWhile Char.isDigit = rest := by
    cases rest with
    | nil => simp
    | cons c rest => simp [ends c rfl]
  simp only [digits, List.takeWhile_append_of_pos all, List.dropWhile_append_of_pos all, stops, List.append_nil]

theorem isDigit_of_written {n : Nat} : ∀ c ∈ Nat.toDigits 10 n, c.isDigit :=
  fun _ member => Nat.isDigit_of_mem_toDigits (by omega) (by omega) member

theorem wholeDigits_written (n : Nat) {rest : List Char} (ends : EndsNumber rest) :
    wholeDigits (Nat.toDigits 10 n ++ rest) = .ok (Nat.toDigits 10 n, rest) := by
  have read : someDigits (Nat.toDigits 10 n ++ rest) = .ok (Nat.toDigits 10 n, rest) := by
    have nonempty := toDigits_ne_nil n
    rw [someDigits, digits_append isDigit_of_written fun c first => (ends c first).1]
    split <;> simp_all
  unfold wholeDigits
  split
  · rename_i c cs spelled
    cases written : Nat.toDigits 10 n with
    | nil => exact absurd written (toDigits_ne_nil n)
    | cons d ds =>
      rw [written] at spelled
      obtain ⟨rfl, later⟩ := List.cons.inj spelled
      obtain rfl := toDigits_zero written
      have later : rest = c :: cs := later
      rw [(ends c (by rw [later]; rfl)).1, later]
      rfl
  · exact read

theorem le_foldl_digits (ds : List Char) (n : Nat) : n ≤ ds.foldl (fun n c => n * 10 + (c.toNat - '0'.toNat)) n := by
  induction ds generalizing n with
  | nil => exact Nat.le_refl n
  | cons c ds ih => exact Nat.le_trans (by omega) (ih (n * 10 + (c.toNat - '0'.toNat)))

theorem fitting_small {ds : List Char} (small : natOf ds ≤ Text.largest64) : fitting ds = (natOf ds, 0) := by
  have go : ∀ (ds : List Char) (n : Nat), ds.foldl (fun n c => n * 10 + (c.toNat - '0'.toNat)) n ≤ Text.largest64 →
      fitting.go n ds = (ds.foldl (fun n c => n * 10 + (c.toNat - '0'.toNat)) n, 0) := by
    intro ds
    induction ds with
    | nil => exact fun _ _ => rfl
    | cons c ds ih =>
      intro n small
      have fits := Nat.le_trans (le_foldl_digits ds (n * 10 + (c.toNat - '0'.toNat))) small
      rw [fitting.go, if_pos fits]
      exact ih _ small
  exact go ds 0 small

theorem literal_written (n : Nat) {rest : List Char} (ends : EndsNumber rest) :
    literal (Nat.toDigits 10 n ++ rest) = .ok (⟨false, Nat.toDigits 10 n, none, none⟩, rest) := by
  have whole := wholeDigits_written n ends
  have point : fraction rest = .ok (none, rest) := by
    unfold fraction
    split
    · exact absurd rfl (ends '.' rfl).2.1
    · rfl
  have power : exponent rest = .ok (none, rest) := by
    unfold exponent
    split
    · rename_i c cs
      obtain ⟨_, _, lower, upper⟩ := ends c rfl
      rw [if_neg (not_or.mpr ⟨lower, upper⟩)]
    · rfl
  cases written : Nat.toDigits 10 n with
  | nil => exact absurd written (toDigits_ne_nil n)
  | cons d ds =>
    have digit : d.isDigit := isDigit_of_written d (by rw [written]; exact List.mem_cons_self)
    rw [written, List.cons_append] at whole
    rw [List.cons_append]
    unfold literal
    split
    rename_i negative cs signed
    split at signed
    · rename_i same
      obtain ⟨rfl, _⟩ := List.cons.inj same
      cases digit
    · obtain ⟨rfl, rfl⟩ := Prod.mk.inj signed
      simp only [whole, point, power, bind, Except.bind]
      rfl

theorem number_written {n : Nat} (small : n ≤ Text.largest64) {rest : List Char} (ends : EndsNumber rest) :
    number ((Write.number (.whole n)).toList ++ rest) = .ok (.whole n, rest) := by
  have spelled : (Write.number (.whole n)).toList = Nat.toDigits 10 n := Nat.toList_repr
  have value := natOf_toDigits n
  have fits : fitting (Nat.toDigits 10 n ++ []) = (n, 0) := by
    rw [List.append_nil, fitting_small (by rwa [value]), value]
  have bounded : Literal.overflows ⟨false, Nat.toDigits 10 n, none, none⟩ = false := by
    simp only [Literal.overflows, Option.getD_none, fits]
    simp
  have same : Literal.number ⟨false, Nat.toDigits 10 n, none, none⟩ = .whole n := by
    simp only [Literal.number, value]
    simp [small]
  rw [spelled, number, literal_written n ends]
  simp only [bind, Except.bind, bounded, same]
  rfl

end Scan

end MarkupEditor.Json
