/-
UTF-8 over lists: a text is a list of characters, a byte string a list of
octets. `encode` is the encoding, `decode?` the strict decoder (the one that
refuses), `lossy` the decoder that writes U+FFFD for every maximal invalid
sequence. What the paths need of it: strict decoding inverts encoding in both
directions, lossy decoding inverts encoding, and an ASCII character is found
in a text exactly where its byte is found in the encoding, so that splitting
at an ASCII separator commutes with encoding.
-/
import Mathlib.Data.List.Basic

namespace Utf8

/-- The octets of a text. -/
def encode (s : List Char) : List UInt8 := s.flatMap String.utf8EncodeChar

/-- The first character of a byte string, where it starts with a valid one. -/
def head? (bs : List UInt8) : Option Char := (ByteArray.mk bs.toArray).utf8DecodeChar? 0

/-- Strict decoding with at most `n` characters. -/
def decodeN : Nat → List UInt8 → Option (List Char)
  | _, [] => some []
  | 0, _ :: _ => none
  | n + 1, b :: bs =>
    match head? (b :: bs) with
    | some c => (decodeN n ((b :: bs).drop c.utf8Size)).map (c :: ·)
    | none => none

/-- Strict decoding: the text whose encoding this is, if there is one. -/
def decode? (bs : List UInt8) : Option (List Char) := decodeN bs.length bs

/-- May `b` follow the octets `pre` inside a valid character? The ranges of
the second octet depend on the first; the later ones are continuation octets. -/
def follows (pre : List UInt8) (b : UInt8) : Bool :=
  match pre with
  | [a] =>
    if a == 0xE0 then 0xA0 ≤ b && b ≤ 0xBF
    else if a == 0xED then 0x80 ≤ b && b ≤ 0x9F
    else if a == 0xF0 then 0x90 ≤ b && b ≤ 0xBF
    else if a == 0xF4 then 0x80 ≤ b && b ≤ 0x8F
    else 0xC2 ≤ a && a ≤ 0xF4 && 0x80 ≤ b && b ≤ 0xBF
  | [a, _] => 0xE0 ≤ a && 0x80 ≤ b && b ≤ 0xBF
  | [a, _, _] => 0xF0 ≤ a && 0x80 ≤ b && b ≤ 0xBF
  | _ => false

/-- How many octets of `bs` continue the invalid sequence `pre`. -/
def continued : List UInt8 → List UInt8 → Nat
  | _, [] => 0
  | pre, b :: bs => if follows pre b then continued (pre ++ [b]) bs + 1 else 0

/-- Lossy decoding with at most `n` characters. -/
def lossyN : Nat → List UInt8 → List Char
  | _, [] => []
  | 0, _ :: _ => []
  | n + 1, b :: bs =>
    match head? (b :: bs) with
    | some c => c :: lossyN n ((b :: bs).drop c.utf8Size)
    | none => '\uFFFD' :: lossyN n (bs.drop (continued [b] bs))

/-- Lossy decoding: every maximal invalid sequence becomes U+FFFD. -/
def lossy (bs : List UInt8) : List Char := lossyN bs.length bs

@[simp] theorem encode_nil : encode [] = [] := rfl

@[simp] theorem encode_cons {c : Char} {s : List Char} :
    encode (c :: s) = String.utf8EncodeChar c ++ encode s := rfl

@[simp] theorem encode_append {s t : List Char} : encode (s ++ t) = encode s ++ encode t := by
  simp [encode]

/-! ## The first character -/

theorem mk_append {xs ys : List UInt8} :
    ByteArray.mk (xs ++ ys).toArray = xs.toByteArray ++ ByteArray.mk ys.toArray := by
  apply ByteArray.ext
  simp [List.data_toByteArray]

theorem head?_encode {c : Char} {bs : List UInt8} : head? (String.utf8EncodeChar c ++ bs) = some c := by
  rw [head?, mk_append]
  exact ByteArray.utf8DecodeChar?_utf8EncodeChar_append

theorem eq_of_head? {bs : List UInt8} {c : Char} (h : head? bs = some c) :
    bs = String.utf8EncodeChar c ++ bs.drop c.utf8Size := by
  obtain ⟨l, hl⟩ := ByteArray.exists_of_utf8DecodeChar?_eq_some h
  have hbs : bs = String.utf8EncodeChar c ++ l.data.toList := by
    have := congrArg (fun b => b.data.toList) hl
    simpa [List.data_toByteArray] using this
  have hdrop : bs.drop c.utf8Size = l.data.toList := by
    rw [hbs, ← String.length_utf8EncodeChar, List.drop_left]
  rw [hdrop]
  exact hbs

theorem encodeChar_length_pos (c : Char) : 0 < (String.utf8EncodeChar c).length := by
  rw [String.length_utf8EncodeChar]
  exact c.utf8Size_pos

theorem encodeChar_ne_nil {c : Char} : String.utf8EncodeChar c ≠ [] :=
  List.ne_nil_of_length_pos (encodeChar_length_pos c)

/-! ## Round trips -/

theorem decodeN_encode {s : List Char} : ∀ {n : Nat}, (encode s).length ≤ n → decodeN n (encode s) = some s := by
  induction s with
  | nil => intro n _; cases n <;> rfl
  | cons c s ih =>
    intro n hn
    obtain ⟨b, bs, hb⟩ := List.exists_cons_of_ne_nil (l := encode (c :: s)) (by simp)
    have hlen : (encode s).length + 1 ≤ n := by
      have := encodeChar_length_pos c
      simp only [encode_cons, List.length_append] at hn
      omega
    obtain ⟨n, rfl⟩ : ∃ m, n = m + 1 := ⟨n - 1, by omega⟩
    have hhead : head? (b :: bs) = some c := by rw [← hb, encode_cons, head?_encode]
    have hdrop : (b :: bs).drop c.utf8Size = encode s := by
      rw [← hb, encode_cons, ← String.length_utf8EncodeChar, List.drop_left]
    rw [hb, decodeN, hhead]
    simp only [hdrop, ih (n := n) (by omega), Option.map_some]

theorem encode_of_decodeN {s : List Char} : ∀ {n : Nat} {bs : List UInt8}, decodeN n bs = some s → encode s = bs
  | _, [], h => by
    have : s = [] := by
      unfold decodeN at h
      simpa using h.symm
    subst this
    rfl
  | 0, _ :: _, h => by simp [decodeN] at h
  | n + 1, b :: bs, h => by
    simp only [decodeN] at h
    split at h
    · next c hc =>
      obtain ⟨t, ht, rfl⟩ := Option.map_eq_some_iff.mp h
      rw [encode_cons, encode_of_decodeN ht]
      exact (eq_of_head? hc).symm
    · cases h

@[simp] theorem decode?_encode {s : List Char} : decode? (encode s) = some s := decodeN_encode (Nat.le_refl _)

theorem decode?_eq_some {bs : List UInt8} {s : List Char} : decode? bs = some s ↔ encode s = bs :=
  ⟨encode_of_decodeN, fun h => h ▸ decode?_encode⟩

theorem encode_injective : Function.Injective encode := fun s t h => by
  have : decode? (encode s) = decode? (encode t) := by rw [h]
  simpa using this

@[simp] theorem encode_inj {s t : List Char} : encode s = encode t ↔ s = t := encode_injective.eq_iff

@[simp] theorem encode_eq_nil {s : List Char} : encode s = [] ↔ s = [] := by
  rw [← encode_nil, encode_inj]

theorem lossyN_encode {s : List Char} : ∀ {n : Nat}, (encode s).length ≤ n → lossyN n (encode s) = s := by
  induction s with
  | nil => intro n _; cases n <;> rfl
  | cons c s ih =>
    intro n hn
    obtain ⟨b, bs, hb⟩ := List.exists_cons_of_ne_nil (l := encode (c :: s)) (by simp)
    have hlen : (encode s).length + 1 ≤ n := by
      have := encodeChar_length_pos c
      simp only [encode_cons, List.length_append] at hn
      omega
    obtain ⟨n, rfl⟩ : ∃ m, n = m + 1 := ⟨n - 1, by omega⟩
    have hhead : head? (b :: bs) = some c := by rw [← hb, encode_cons, head?_encode]
    have hdrop : (b :: bs).drop c.utf8Size = encode s := by
      rw [← hb, encode_cons, ← String.length_utf8EncodeChar, List.drop_left]
    rw [hb, lossyN, hhead]
    simp only [hdrop, ih (n := n) (by omega)]

@[simp] theorem lossy_encode {s : List Char} : lossy (encode s) = s := lossyN_encode (Nat.le_refl _)

/-! ## ASCII characters -/

theorem encodeChar_ascii {c : Char} (h : c.toNat < 128) : String.utf8EncodeChar c = [c.val.toUInt8] := by
  refine String.utf8EncodeChar_eq_singleton (Char.utf8Size_eq_one_iff.mpr ?_)
  have : c.val.toNat < 128 := h
  rw [UInt32.le_iff_toNat_le]
  show c.val.toNat ≤ 127
  omega

theorem toNat_or_ge {x y : UInt8} : y.toNat ≤ (x ||| y).toNat := by
  rw [UInt8.toNat_or]
  exact Nat.right_le_or

/-- Every octet of a character outside ASCII has its top bit set. -/
theorem le_of_mem_encodeChar {c : Char} {b : UInt8} (h : 128 ≤ c.toNat)
    (hb : b ∈ String.utf8EncodeChar c) : 128 ≤ b.toNat := by
  have hsize : c.utf8Size ≠ 1 := by
    rw [ne_eq, Char.utf8Size_eq_one_iff, UInt32.le_iff_toNat_le]
    have : c.toNat = c.val.toNat := rfl
    have : (127 : UInt32).toNat = 127 := rfl
    omega
  have cont {x : UInt8} : 128 ≤ (x ||| 0x80).toNat := toNat_or_ge (y := 0x80)
  have two {x : UInt8} : 128 ≤ (x ||| 0xc0).toNat := Nat.le_trans (by decide) (toNat_or_ge (y := 0xc0))
  have three {x : UInt8} : 128 ≤ (x ||| 0xe0).toNat := Nat.le_trans (by decide) (toNat_or_ge (y := 0xe0))
  have four {x : UInt8} : 128 ≤ (x ||| 0xf0).toNat := Nat.le_trans (by decide) (toNat_or_ge (y := 0xf0))
  match hc : c.utf8Size, c.utf8Size_pos, c.utf8Size_le_four with
  | 1, _, _ => exact absurd hc hsize
  | 2, _, _ =>
    simp only [String.utf8EncodeChar_eq_cons_cons hc, List.mem_cons, List.not_mem_nil, or_false] at hb
    rcases hb with rfl | rfl
    exacts [two, cont]
  | 3, _, _ =>
    simp only [String.utf8EncodeChar_eq_cons_cons_cons hc, List.mem_cons, List.not_mem_nil, or_false] at hb
    rcases hb with rfl | rfl | rfl
    exacts [three, cont, cont]
  | 4, _, _ =>
    simp only [String.utf8EncodeChar_eq_cons_cons_cons_cons hc, List.mem_cons, List.not_mem_nil, or_false] at hb
    rcases hb with rfl | rfl | rfl | rfl
    exacts [four, cont, cont, cont]

theorem mem_encodeChar_ascii {c d : Char} (hd : d.toNat < 128) :
    d.val.toUInt8 ∈ String.utf8EncodeChar c ↔ c = d := by
  constructor
  · intro h
    have hdn : d.val.toUInt8.toNat = d.toNat := Nat.mod_eq_of_lt (by omega : d.toNat < 256)
    by_cases hc : c.toNat < 128
    · rw [encodeChar_ascii hc, List.mem_singleton] at h
      have hcn : c.val.toUInt8.toNat = c.toNat := Nat.mod_eq_of_lt (by omega : c.toNat < 256)
      have : c.toNat = d.toNat := by rw [← hcn, ← hdn, h]
      exact Char.toNat_inj.mp this
    · have := le_of_mem_encodeChar (by omega) h
      omega
  · rintro rfl
    simp [encodeChar_ascii hd]

theorem lossy_ascii {d : Char} (hd : d.toNat < 128) {bs : List UInt8} :
    lossy (d.val.toUInt8 :: bs) = d :: lossy bs := by
  have hhead : head? (d.val.toUInt8 :: bs) = some d := by
    rw [← List.singleton_append, ← encodeChar_ascii hd, head?_encode]
  have hsize : d.utf8Size = 1 := by
    rw [← String.length_utf8EncodeChar, encodeChar_ascii hd, List.length_singleton]
  rw [lossy, List.length_cons, lossyN, hhead]
  simp only [hsize, List.drop_one, List.tail_cons, lossy]

/-- Lossy decoding makes up no ASCII character. -/
theorem mem_of_mem_lossyN {d : Char} (hd : d.toNat < 128) : ∀ {n : Nat} {bs : List UInt8},
    d ∈ lossyN n bs → d.val.toUInt8 ∈ bs
  | _, [], h => by simp [lossyN] at h
  | 0, _ :: _, h => by simp [lossyN] at h
  | n + 1, b :: bs, h => by
    unfold lossyN at h
    split at h
    · next c hc =>
      rcases List.mem_cons.mp h with rfl | h
      · rw [eq_of_head? hc, encodeChar_ascii hd]
        exact List.mem_append_left _ (List.mem_singleton_self _)
      · exact List.mem_of_mem_drop (mem_of_mem_lossyN hd h)
    · rcases List.mem_cons.mp h with rfl | h
      · exact absurd hd (by decide)
      · exact List.mem_cons_of_mem b (List.mem_of_mem_drop (mem_of_mem_lossyN hd h))

/-- An ASCII character occurs in a text exactly where its octet occurs in the encoding. -/
theorem mem_encode_ascii {s : List Char} {d : Char} (hd : d.toNat < 128) :
    d.val.toUInt8 ∈ encode s ↔ d ∈ s := by
  induction s with
  | nil => simp
  | cons c s ih =>
    simp only [encode_cons, List.mem_append, mem_encodeChar_ascii hd, ih, List.mem_cons, eq_comm]

/-! ## Octets inside a text -/

theorem encode_eq_append {s : List Char} {bs : List UInt8} : ∀ {a : List Char}, encode s = encode a ++ bs →
    ∃ t, s = a ++ t ∧ encode t = bs := by
  induction s with
  | nil =>
    intro a h
    have ha : encode a = [] := by simpa using congrArg (·.take (encode a).length) h.symm
    rw [encode_eq_nil] at ha
    subst ha
    exact ⟨[], rfl, h⟩
  | cons c s ih =>
    intro a h
    cases a with
    | nil => exact ⟨c :: s, rfl, h⟩
    | cons d a =>
      rw [encode_cons, encode_cons, List.append_assoc] at h
      have hhead : head? (String.utf8EncodeChar c ++ encode s) = some d := by rw [h, head?_encode]
      rw [head?_encode, Option.some.injEq] at hhead
      subst hhead
      obtain ⟨t, rfl, ht⟩ := ih (List.append_cancel_left h)
      exact ⟨t, rfl, ht⟩

/-- What comes before an ASCII character in a text is a text. -/
theorem encode_eq_append_ascii {b : List Char} {d : Char} (hd : d.toNat < 128) {s : List Char} :
    ∀ {bs : List UInt8}, encode s = bs ++ encode (d :: b) → ∃ t, s = t ++ d :: b ∧ encode t = bs := by
  induction s with
  | nil =>
    intro bs h
    simp at h
  | cons c s ih =>
    intro bs h
    rw [encode_cons] at h
    obtain ⟨rest, hbs, hs⟩ | ⟨rest, hc, hrest⟩ := List.append_eq_append_iff.mp h
    · obtain ⟨t, rfl, ht⟩ := ih hs
      exact ⟨c :: t, rfl, by rw [encode_cons, ht, hbs]⟩
    · rw [encode_cons, encodeChar_ascii hd, List.singleton_append] at hrest
      cases rest with
      | nil =>
        rw [List.nil_append] at hrest
        rw [List.append_nil] at hc
        refine ⟨[c], ?_, by simp [hc]⟩
        have hs : encode s = encode (d :: b) := by
          rw [encode_cons, encodeChar_ascii hd, List.singleton_append, hrest]
        rw [encode_inj] at hs
        simp [hs]
      | cons x rest =>
        rw [List.cons_append, List.cons.injEq] at hrest
        obtain ⟨rfl, -⟩ := hrest
        have hmem : d.val.toUInt8 ∈ String.utf8EncodeChar c := by simp [hc]
        rw [mem_encodeChar_ascii hd] at hmem
        subst hmem
        rw [encodeChar_ascii hd] at hc
        have hlen := congrArg List.length hc
        simp only [List.length_append, List.length_cons, List.length_nil] at hlen
        have hbs : bs = [] := List.eq_nil_of_length_eq_zero (by omega)
        subst hbs
        refine ⟨[], ?_, rfl⟩
        rw [← encode_inj, encode_cons, h]
        rfl

/-- **Octets between a text and an ASCII character are text where the whole is.** -/
theorem decode?_framed {a b : List Char} {d : Char} (hd : d.toNat < 128) {bs : List UInt8} :
    decode? (encode a ++ (bs ++ encode (d :: b))) = (decode? bs).map fun s => a ++ (s ++ d :: b) := by
  cases hbs : decode? bs with
  | some s =>
    rw [decode?_eq_some] at hbs
    rw [Option.map_some, decode?_eq_some, encode_append, encode_append, hbs]
  | none =>
    rw [Option.map_none, Option.eq_none_iff_forall_ne_some]
    intro s hs
    rw [decode?_eq_some] at hs
    obtain ⟨t, -, ht⟩ := encode_eq_append hs
    obtain ⟨u, -, hu⟩ := encode_eq_append_ascii hd ht
    rw [← decode?_eq_some, hbs] at hu
    cases hu

/-! ## Splitting -/

theorem not_mem_of_mem_splitOn {α} [BEq α] [LawfulBEq α] {a : α} : ∀ {s t : List α}, t ∈ s.splitOn a → a ∉ t
  | [], t, h => by
    rw [List.splitOn_nil, List.mem_singleton] at h
    simp [h]
  | x :: s, t, h => by
    rw [List.splitOn_cons_eq_if_modifyHead] at h
    have ih {t : List α} : t ∈ s.splitOn a → a ∉ t := not_mem_of_mem_splitOn
    obtain ⟨u, us, hu⟩ := List.exists_cons_of_ne_nil (List.splitOn_ne_nil a s)
    rw [hu] at h ih
    split at h
    · rcases List.mem_cons.mp h with rfl | h
      · simp
      · exact ih h
    · next hx =>
      simp only [List.modifyHead_cons, List.mem_cons] at h
      rcases h with rfl | h
      · simp only [List.mem_cons, not_or]
        exact ⟨fun he => hx (by simp [he]), ih (by simp)⟩
      · exact ih (by simp [h])

theorem subset_of_mem_splitOn {α} [BEq α] {a : α} : ∀ {s t : List α}, t ∈ s.splitOn a → t ⊆ s
  | [], t, h => by
    rw [List.splitOn_nil, List.mem_singleton] at h
    simp [h]
  | x :: s, t, h => by
    rw [List.splitOn_cons_eq_if_modifyHead] at h
    have ih {t : List α} : t ∈ s.splitOn a → t ⊆ s := subset_of_mem_splitOn
    obtain ⟨u, us, hu⟩ := List.exists_cons_of_ne_nil (List.splitOn_ne_nil a s)
    rw [hu] at h ih
    split at h
    · rcases List.mem_cons.mp h with rfl | h
      · simp
      · exact List.subset_cons_of_subset x (ih h)
    · simp only [List.modifyHead_cons, List.mem_cons] at h
      rcases h with rfl | h
      · exact List.cons_subset_cons x (ih List.mem_cons_self)
      · exact List.subset_cons_of_subset x (ih (List.mem_cons_of_mem u h))

theorem encode_intercalate {sep : List Char} : ∀ {ss : List (List Char)},
    encode (sep.intercalate ss) = (encode sep).intercalate (ss.map encode)
  | [] => rfl
  | [s] => by simp
  | s :: t :: ss => by
    have ih := @encode_intercalate sep (t :: ss)
    simp only [List.intercalate_cons_cons, List.map_cons, encode_append] at ih ⊢
    rw [ih]

/-- **Splitting at an ASCII separator commutes with encoding.** -/
theorem splitOn_encode {s : List Char} {d : Char} (hd : d.toNat < 128) :
    (encode s).splitOn d.val.toUInt8 = (s.splitOn d).map encode := by
  have hne : ∀ l ∈ (s.splitOn d).map encode, d.val.toUInt8 ∉ l := by
    intro l hl
    obtain ⟨t, ht, rfl⟩ := List.mem_map.mp hl
    rw [mem_encode_ascii hd]
    exact not_mem_of_mem_splitOn ht
  have hs : [d.val.toUInt8].intercalate ((s.splitOn d).map encode) = encode s := by
    rw [← encodeChar_ascii hd, show String.utf8EncodeChar d = encode [d] by simp, ← encode_intercalate,
      List.intercalate_splitOn]
  rw [← hs, List.splitOn_intercalate _ hne (by simp)]

end Utf8
