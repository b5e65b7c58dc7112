/-
Base64 with padding: three octets in four digits, an incomplete group filled up
with `=`. Only what is written by `encode` is read, so the unused bits of a last
digit are zero and the padding is complete (`decode_eq_some`).
-/
import Mathlib.Data.List.GetD

namespace Base64

def alphabet : List Char := "ABCDEFGHIJKLMNOPQRSTUVWXYZabcdefghijklmnopqrstuvwxyz0123456789+/".toList

def pad : Char := '='

/-- The digit of a value below 64. -/
def digit (n : Nat) : Char := alphabet.getD n pad

/-- The value of a digit. -/
def value (c : Char) : Option Nat := alphabet.idxOf? c

def byte (n : Nat) : UInt8 := UInt8.ofNat n

def encode : List UInt8 → List Char
  | [] => []
  | [a] => [digit (a.toNat / 4), digit (a.toNat % 4 * 16), pad, pad]
  | [a, b] => [digit (a.toNat / 4), digit (a.toNat % 4 * 16 + b.toNat / 16), digit (b.toNat % 16 * 4), pad]
  | a :: b :: c :: rest =>
    digit (a.toNat / 4) :: digit (a.toNat % 4 * 16 + b.toNat / 16) :: digit (b.toNat % 16 * 4 + c.toNat / 64) ::
      digit (c.toNat % 64) :: encode rest

def decode : List Char → Option (List UInt8)
  | [] => some []
  | c₁ :: c₂ :: c₃ :: c₄ :: rest =>
    match value c₁, value c₂, value c₃, value c₄ with
    | some w, some x, some y, some z => (decode rest).map fun bytes =>
      byte (w * 4 + x / 16) :: byte (x % 16 * 16 + y / 4) :: byte (y % 4 * 64 + z) :: bytes
    | some w, some x, some y, none =>
      if c₄ = pad ∧ rest = [] ∧ y % 4 = 0 then some [byte (w * 4 + x / 16), byte (x % 16 * 16 + y / 4)] else none
    | some w, some x, none, none =>
      if c₃ = pad ∧ c₄ = pad ∧ rest = [] ∧ x % 16 = 0 then some [byte (w * 4 + x / 16)] else none
    | _, _, _, _ => none
  | _ => none

/-! ## Digits -/

theorem value_digit {n : Nat} (h : n < 64) : value (digit n) = some n := by
  have hall : ∀ n < 64, value (digit n) = some n := by decide
  exact hall n h

@[simp] theorem value_pad : value pad = none := by decide

theorem digit_value {c : Char} {n : Nat} (h : value c = some n) : n < 64 ∧ digit n = c := by
  obtain ⟨hn, hc, -⟩ := List.idxOf?_eq_some_iff.mp h
  exact ⟨hn, by rw [digit, List.getD_eq_getElem _ _ hn, hc]⟩

theorem digit_mem {n : Nat} (h : n < 64) : digit n ∈ alphabet := by
  have hn : n < alphabet.length := h
  rw [digit, List.getD_eq_getElem _ _ hn]
  exact List.getElem_mem hn

theorem byte_toNat {a : UInt8} {n : Nat} (h : n = a.toNat) : byte n = a := by
  rw [byte, h, UInt8.ofNat_toNat]

theorem toNat_byte {n : Nat} (h : n < 256) : (byte n).toNat = n := by
  rw [byte, UInt8.toNat_ofNat']
  omega

/-! ## The round trip -/

theorem decode_encode {bytes : List UInt8} : decode (encode bytes) = some bytes := by
  induction bytes using encode.induct with
  | case1 => rfl
  | case2 a =>
    have ha := a.toNat_lt
    simp only [encode, decode]
    rw [value_digit (by omega), value_digit (by omega), value_pad]
    simp only
    rw [if_pos (by simp), @byte_toNat a _ (by omega)]
  | case3 a b =>
    have ha := a.toNat_lt
    have hb := b.toNat_lt
    simp only [encode, decode]
    rw [value_digit (by omega), value_digit (by omega), value_digit (by omega), value_pad]
    simp only
    rw [if_pos (by simp), @byte_toNat a _ (by omega), @byte_toNat b _ (by omega)]
  | case4 a b c rest ih =>
    have ha := a.toNat_lt
    have hb := b.toNat_lt
    have hc := c.toNat_lt
    simp only [encode, decode]
    rw [value_digit (by omega), value_digit (by omega), value_digit (by omega), value_digit (by omega)]
    simp only
    rw [ih, Option.map_some, @byte_toNat a _ (by omega), @byte_toNat b _ (by omega), @byte_toNat c _ (by omega)]

theorem encode_decode {s : List Char} {bytes : List UInt8} (h : decode s = some bytes) : encode bytes = s := by
  induction s using decode.induct generalizing bytes with
  | case1 =>
    cases h
    rfl
  | case2 c₁ c₂ c₃ c₄ rest w x y z h₄ h₃ h₂ h₁ ih =>
    simp only [decode, h₁, h₂, h₃, h₄] at h
    obtain ⟨more, hmore, rfl⟩ := Option.map_eq_some_iff.mp h
    obtain ⟨hw, rfl⟩ := digit_value h₁
    obtain ⟨hx, rfl⟩ := digit_value h₂
    obtain ⟨hy, rfl⟩ := digit_value h₃
    obtain ⟨hz, rfl⟩ := digit_value h₄
    rw [encode, ih hmore, toNat_byte (by omega), toNat_byte (by omega), toNat_byte (by omega)]
    have e₁ : (w * 4 + x / 16) / 4 = w := by omega
    have e₂ : (w * 4 + x / 16) % 4 * 16 + (x % 16 * 16 + y / 4) / 16 = x := by omega
    have e₃ : (x % 16 * 16 + y / 4) % 16 * 4 + (y % 4 * 64 + z) / 64 = y := by omega
    have e₄ : (y % 4 * 64 + z) % 64 = z := by omega
    rw [e₁, e₂, e₃, e₄]
  | case3 c₁ c₂ c₃ c₄ rest w x y h₄ h₃ h₂ h₁ hend =>
    simp only [decode, h₁, h₂, h₃, h₄, if_pos hend, Option.some.injEq] at h
    obtain ⟨rfl, rfl, hzero⟩ := hend
    subst h
    obtain ⟨hw, rfl⟩ := digit_value h₁
    obtain ⟨hx, rfl⟩ := digit_value h₂
    obtain ⟨hy, rfl⟩ := digit_value h₃
    rw [encode, toNat_byte (by omega), toNat_byte (by omega)]
    have e₁ : (w * 4 + x / 16) / 4 = w := by omega
    have e₂ : (w * 4 + x / 16) % 4 * 16 + (x % 16 * 16 + y / 4) / 16 = x := by omega
    have e₃ : (x % 16 * 16 + y / 4) % 16 * 4 = y := by omega
    rw [e₁, e₂, e₃]
  | case5 c₁ c₂ c₃ c₄ rest w x h₄ h₃ h₂ h₁ hend =>
    simp only [decode, h₁, h₂, h₃, h₄, if_pos hend, Option.some.injEq] at h
    obtain ⟨rfl, rfl, rfl, hzero⟩ := hend
    subst h
    obtain ⟨hw, rfl⟩ := digit_value h₁
    obtain ⟨hx, rfl⟩ := digit_value h₂
    rw [encode, toNat_byte (by omega)]
    have e₁ : (w * 4 + x / 16) / 4 = w := by omega
    have e₂ : (w * 4 + x / 16) % 4 * 16 = x := by omega
    rw [e₁, e₂]
  | case4 | case6 | case7 | case8 => simp_all [decode]

/-- **Exactly the encodings are read.** -/
theorem decode_eq_some {s : List Char} {bytes : List UInt8} : decode s = some bytes ↔ s = encode bytes := by
  constructor
  · intro h
    exact (encode_decode h).symm
  · intro h
    rw [h, decode_encode]

theorem encode_eq_nil {bytes : List UInt8} : encode bytes = [] ↔ bytes = [] := by
  cases bytes using encode.fun_cases <;> simp [encode]

theorem mem_encode {bytes : List UInt8} {c : Char} (h : c ∈ encode bytes) : c ∈ alphabet ∨ c = pad := by
  have digit {n : Nat} (hn : n < 64) : digit n ∈ alphabet ∨ digit n = pad := .inl (digit_mem hn)
  induction bytes using encode.induct with
  | case1 => cases h
  | case2 a =>
    have ha := a.toNat_lt
    simp only [encode, List.mem_cons, List.not_mem_nil, or_false] at h
    rcases h with rfl | rfl | rfl | rfl
    · exact digit (by omega)
    · exact digit (by omega)
    · exact .inr rfl
    · exact .inr rfl
  | case3 a b =>
    have ha := a.toNat_lt
    have hb := b.toNat_lt
    simp only [encode, List.mem_cons, List.not_mem_nil, or_false] at h
    rcases h with rfl | rfl | rfl | rfl
    · exact digit (by omega)
    · exact digit (by omega)
    · exact digit (by omega)
    · exact .inr rfl
  | case4 a b c' rest ih =>
    have ha := a.toNat_lt
    have hb := b.toNat_lt
    have hc := c'.toNat_lt
    simp only [encode, List.mem_cons] at h
    rcases h with rfl | rfl | rfl | rfl | h
    · exact digit (by omega)
    · exact digit (by omega)
    · exact digit (by omega)
    · exact digit (by omega)
    · exact ih h

end Base64
