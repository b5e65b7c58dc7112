/-
Decimal numerals: a number printed in digits parses as itself. And hexadecimal
ones, with zeros in front of them: two numbers are not printed alike.
-/
import Mathlib.Data.List.Basic

namespace Decimal

/-- One digit or more. -/
def parse (s : List Char) : Option Nat :=
  if s ≠ [] ∧ s.all Char.isDigit = true then some (Nat.ofDigitChars 10 s 0) else none

/-- Digits after a sign, if any, of a number within the bounds. -/
def parseInt (lo hi : Int) (s : List Char) : Option Int :=
  let number : Option Int :=
    match s with
    | '-' :: digits => (parse digits).map fun n => -(n : Int)
    | '+' :: digits => (parse digits).map fun n => (n : Int)
    | digits => (parse digits).map fun n => (n : Int)
  number.filter fun n => lo ≤ n ∧ n < hi

theorem isDigit_of_mem {n : Nat} {c : Char} (h : c ∈ Nat.toDigits 10 n) : c.isDigit = true :=
  Nat.isDigit_of_mem_toDigits (by omega) (by omega) h

theorem not_mem_digits {n : Nat} {c : Char} (h : c.isDigit = false) : c ∉ Nat.toDigits 10 n := by
  intro hm
  rw [isDigit_of_mem hm] at h
  cases h

theorem parse_digits {n : Nat} : parse (Nat.toDigits 10 n) = some n := by
  have hall : (Nat.toDigits 10 n).all Char.isDigit = true := List.all_eq_true.mpr fun c hc => isDigit_of_mem hc
  rw [parse, if_pos ⟨Nat.toDigits_ne_nil, hall⟩, Nat.ofDigitChars_toDigits (by omega) (by omega)]

/-- A number is read where it is within the bounds. -/
theorem parseInt_toDigits {lo hi : Int} {n : Nat} :
    parseInt lo hi (Nat.toDigits 10 n) = (some (n : Int)).filter fun n => lo ≤ n ∧ n < hi := by
  unfold parseInt
  dsimp only
  split
  · next heq =>
    exact absurd (heq ▸ List.mem_cons_self ..) (@not_mem_digits n '-' (by decide))
  · next heq =>
    exact absurd (heq ▸ List.mem_cons_self ..) (@not_mem_digits n '+' (by decide))
  · rw [parse_digits]
    rfl

theorem parseInt_minus {lo hi : Int} {n : Nat} :
    parseInt lo hi ('-' :: Nat.toDigits 10 n) = (some (-(n : Int))).filter fun n => lo ≤ n ∧ n < hi := by
  simp [parseInt, parse_digits]

theorem parseInt_digits {lo hi : Int} {n : Nat} (hlo : lo ≤ n) (hhi : (n : Int) < hi) :
    parseInt lo hi (Nat.toDigits 10 n) = some (n : Int) := by
  rw [parseInt_toDigits]
  simp [hlo, hhi]

/-! ## Numbers without a sign, and why one does not parse -/

inductive ParseError where
  | empty
  | invalidDigit
  | overflow
  deriving DecidableEq, Repr

/-- The digits after those that make `n`; what is wrong first is reported. -/
def parseDigits (hi : Nat) : Nat → List Char → Except ParseError Nat
  | n, [] => .ok n
  | n, c :: s =>
    if c.isDigit = true then
      if 10 * n + (c.toNat - '0'.toNat) < hi then parseDigits hi (10 * n + (c.toNat - '0'.toNat)) s
      else .error .overflow
    else .error .invalidDigit

/-- Digits, after a plus if there is one, of a number below the bound. -/
def parseNat (hi : Nat) : List Char → Except ParseError Nat
  | [] => .error .empty
  | ['+'] => .error .invalidDigit
  | '+' :: s => parseDigits hi 0 s
  | s => parseDigits hi 0 s

theorem le_ofDigitChars : ∀ {s : List Char} {n : Nat}, n ≤ Nat.ofDigitChars 10 s n
  | [], _ => by simp
  | c :: s, n => by
    rw [Nat.ofDigitChars_cons]
    have := @le_ofDigitChars s (10 * n + (c.toNat - '0'.toNat))
    omega

theorem parseDigits_ok {hi m : Nat} : ∀ {s : List Char} {n : Nat}, n < hi → (parseDigits hi n s = .ok m ↔
    s.all Char.isDigit = true ∧ Nat.ofDigitChars 10 s n = m ∧ m < hi)
  | [], n, h => by
    simp only [parseDigits, Except.ok.injEq, List.all_nil, Nat.ofDigitChars_nil, true_and]
    constructor
    · rintro rfl
      exact ⟨rfl, h⟩
    · exact And.left
  | c :: s, n, h => by
    have hle := @le_ofDigitChars s (10 * n + (c.toNat - '0'.toNat))
    rw [parseDigits, Nat.ofDigitChars_cons, List.all_cons, Bool.and_eq_true]
    by_cases hc : c.isDigit = true
    · rw [if_pos hc]
      by_cases hlt : 10 * n + (c.toNat - '0'.toNat) < hi
      · rw [if_pos hlt, parseDigits_ok hlt]
        simp [hc]
      · rw [if_neg hlt]
        refine iff_of_false nofun ?_
        rintro ⟨-, rfl, hm⟩
        omega
    · rw [if_neg hc]
      exact iff_of_false nofun fun h => hc h.1.1

/-- A printed number is read again. -/
theorem parseNat_digits {hi n : Nat} (h : n < hi) : parseNat hi (Nat.toDigits 10 n) = .ok n := by
  have hall : (Nat.toDigits 10 n).all Char.isDigit = true := List.all_eq_true.mpr fun c hc => isDigit_of_mem hc
  have hplus := @not_mem_digits n '+' (by decide)
  have hdigits : parseDigits hi 0 (Nat.toDigits 10 n) = .ok n :=
    (parseDigits_ok (by omega)).mpr ⟨hall, Nat.ofDigitChars_toDigits (by omega) (by omega), h⟩
  unfold parseNat
  split
  · next heq => exact absurd heq Nat.toDigits_ne_nil
  · next heq => simp [heq] at hplus
  · next heq => simp [heq] at hplus
  · exact hdigits

end Decimal

namespace Hex

/-- What a digit counts. -/
def digitValue (c : Char) : Nat := if c.isDigit then c.toNat - '0'.toNat else c.toNat - 'a'.toNat + 10

def value (s : List Char) : Nat := s.foldl (fun n c => 16 * n + digitValue c) 0

/-- A number with zeros in front of it, up to a width. -/
def padded (width n : Nat) : List Char := (Nat.toDigits 16 n).leftpad width '0'

theorem digitValue_digitChar : ∀ d < 16, digitValue d.digitChar = d := by
  decide

theorem value_toDigits {n : Nat} : value (Nat.toDigits 16 n) = n := by
  induction n using Nat.strongRecOn with
  | ind n ih =>
    by_cases hn : n < 16
    · rw [Nat.toDigits_of_lt_base hn]
      simp [value, digitValue_digitChar n hn]
    · have hfront := ih (n / 16) (by omega)
      have hlast := digitValue_digitChar (n % 16) (by omega)
      unfold value at hfront ⊢
      rw [Nat.toDigits_of_base_le (by omega) (by omega), List.foldl_append, hfront]
      simp only [List.foldl_cons, List.foldl_nil, hlast]
      omega

theorem value_zeros {s : List Char} : ∀ k, value (List.replicate k '0' ++ s) = value s
  | 0 => rfl
  | k + 1 => by
    have hzero : 16 * 0 + digitValue '0' = 0 := by decide
    rw [List.replicate_succ, List.cons_append, value, List.foldl_cons, hzero]
    exact value_zeros k

theorem value_padded {width n : Nat} : value (padded width n) = n := by
  rw [padded, List.leftpad, value_zeros, value_toDigits]

theorem padded_inj {width n n' : Nat} (h : padded width n = padded width n') : n = n' := by
  rw [← @value_padded width n, h, value_padded]

end Hex
