/-
The standard library's strings. A text is its characters; `len`, `find` and the
slices count octets, and a slice that would cut a character in two panics
(`none` here). `find` gives a position that can be sliced at, so that the code
that slices where it found an ASCII character never panics: `sliceTo_find`.
-/
import SecureSudoers.Lib.Utf8

namespace SecureSudoers

/-- A Rust string: its characters. -/
abbrev Str := List Char

instance : Coe String Str := ⟨String.toList⟩

instance : LawfulBEq Str := inferInstance

namespace Str

/-- `str::len`: octets, not characters. -/
def len (s : Str) : Nat := (Utf8.encode s).length

/-- `str::starts_with`. -/
def startsWith (s pre : Str) : Bool := pre.isPrefixOf s

/-- `str::find` of a character: the octet it starts at. -/
def find (d : Char) : Str → Option Nat
  | [] => none
  | c :: s => if c = d then some 0 else (find d s).map (c.utf8Size + ·)

/-- `&s[..n]`. -/
def sliceTo : Str → Nat → Option Str
  | _, 0 => some []
  | [], _ + 1 => none
  | c :: s, n + 1 => if c.utf8Size ≤ n + 1 then (sliceTo s (n + 1 - c.utf8Size)).map (c :: ·) else none

/-- `&s[n..]`. -/
def sliceFrom : Str → Nat → Option Str
  | s, 0 => some s
  | [], _ + 1 => none
  | c :: s, n + 1 => if c.utf8Size ≤ n + 1 then sliceFrom s (n + 1 - c.utf8Size) else none

/-- `str::split_once` at a character. -/
def splitOnce (d : Char) : Str → Option (Str × Str)
  | [] => none
  | c :: s => if c = d then some ([], s) else (splitOnce d s).map fun (a, b) => (c :: a, b)

end Str

def intDigits (n : Int) : Str := if n < 0 then '-' :: Nat.toDigits 10 n.natAbs else Nat.toDigits 10 n.natAbs

theorem len_cons {c : Char} {s : Str} : Str.len (c :: s) = c.utf8Size + Str.len s := by
  rw [Str.len, Utf8.encode_cons, List.length_append, String.length_utf8EncodeChar]
  rfl

theorem len_append {s t : Str} : Str.len (s ++ t) = Str.len s + Str.len t := by
  rw [Str.len, Utf8.encode_append, List.length_append]
  rfl

theorem len_eq_zero {s : Str} : Str.len s = 0 ↔ s = [] := by
  rw [Str.len, List.length_eq_zero_iff, Utf8.encode_eq_nil]

theorem startsWith_dash {s : Str} : Str.startsWith s "-" = true ↔ ∃ cs, s = '-' :: cs := by
  cases s with
  | nil => exact ⟨nofun, nofun⟩
  | cons c cs =>
    show ('-' == c && true) = true ↔ _
    rw [Bool.and_true, beq_iff_eq]
    exact ⟨fun h => ⟨cs, h ▸ rfl⟩, fun ⟨_, h⟩ => (List.cons.inj h).1.symm⟩

/-- A token that starts with `-` is longer than one octet unless it is `-`. -/
theorem one_lt_len_dash {s : Str} (h : Str.startsWith s "-" = true) : 1 < Str.len s ↔ s ≠ ['-'] := by
  obtain ⟨cs, rfl⟩ := startsWith_dash.mp h
  have hdash : String.utf8EncodeChar '-' = [45] := by decide
  rw [Str.len, Utf8.encode_cons, hdash, List.length_append, List.length_singleton, ne_eq, List.cons.injEq,
    and_iff_right rfl, ← @Utf8.encode_eq_nil cs, ← List.length_eq_zero_iff]
  omega

theorem dash_longer {s : Str} :
    (Str.startsWith s "-" && 1 < Str.len s) = true ↔ Str.startsWith s "-" = true ∧ s ≠ ['-'] := by
  rw [Bool.and_eq_true_iff, decide_eq_true_iff, and_congr_right one_lt_len_dash]

theorem not_dash_longer {s : Str} :
    ¬(Str.startsWith s "-" && 1 < Str.len s) = true ↔ (Str.startsWith s "-" = true → s = ['-']) := by
  rw [dash_longer, not_and, not_not]

theorem splitOnce_some {d : Char} : ∀ {s a b : Str}, Str.splitOnce d s = some (a, b) → s = a ++ d :: b ∧ d ∉ a
  | [], _, _, h => by simp [Str.splitOnce] at h
  | c :: s, a, b, h => by
    unfold Str.splitOnce at h
    split at h
    · next hc =>
      simp only [Option.some.injEq, Prod.mk.injEq] at h
      obtain ⟨rfl, rfl⟩ := h
      exact ⟨by rw [hc, List.nil_append], by simp⟩
    · next hc =>
      obtain ⟨⟨a', b'⟩, hs, he⟩ := Option.map_eq_some_iff.mp h
      simp only [Prod.mk.injEq] at he
      obtain ⟨rfl, rfl⟩ := he
      obtain ⟨rfl, hd⟩ := splitOnce_some hs
      exact ⟨rfl, by simp [Ne.symm hc, hd]⟩

theorem splitOnce_none {d : Char} : ∀ {s : Str}, Str.splitOnce d s = none ↔ d ∉ s
  | [] => by simp [Str.splitOnce]
  | c :: s => by
    unfold Str.splitOnce
    by_cases hc : c = d
    · simp [hc]
    · simp [hc, Ne.symm hc, @splitOnce_none d s]

theorem splitOnce_append {d : Char} : ∀ {p v : Str}, Str.splitOnce d (p ++ v) =
    match Str.splitOnce d p with
    | some (a, b) => some (a, b ++ v)
    | none => (Str.splitOnce d v).map fun (a, b) => (p ++ a, b)
  | [], v => by simp [Str.splitOnce]
  | c :: p, v => by
    rw [List.cons_append, Str.splitOnce, Str.splitOnce, splitOnce_append]
    by_cases hc : c = d
    · rw [if_pos hc, if_pos hc]
    · rw [if_neg hc, if_neg hc]
      cases Str.splitOnce d p with
      | some ab => rfl
      | none => cases Str.splitOnce d v <;> rfl

/-- The first `d` of a text that has one. -/
theorem splitOnce_mid {d : Char} {a b : Str} (h : d ∉ a) : Str.splitOnce d (a ++ d :: b) = some (a, b) := by
  rw [splitOnce_append, splitOnce_none.mpr h]
  simp [Str.splitOnce]

theorem exists_splitOnce {d : Char} {s : Str} (h : d ∈ s) : ∃ a b, s = a ++ d :: b ∧ d ∉ a := by
  cases hsp : Str.splitOnce d s with
  | none => exact absurd h (splitOnce_none.mp hsp)
  | some ab => exact ⟨ab.1, ab.2, splitOnce_some hsp⟩

/-! ## Positions and slices -/

theorem sliceTo_len {t : Str} : ∀ {s : Str}, Str.sliceTo (s ++ t) (Str.len s) = some s
  | [] => by cases t <;> rfl
  | c :: s => by
    obtain ⟨n, hn⟩ : ∃ n, Str.len (c :: s) = n + 1 := ⟨Str.len (c :: s) - 1, by
      have := c.utf8Size_pos
      rw [len_cons]
      omega⟩
    have hsub : n + 1 - c.utf8Size = Str.len s := by
      rw [len_cons] at hn
      omega
    rw [hn, List.cons_append, Str.sliceTo, if_pos (by rw [len_cons] at hn; omega), hsub, sliceTo_len]
    rfl

theorem sliceFrom_len {t : Str} : ∀ {s : Str}, Str.sliceFrom (s ++ t) (Str.len s) = some t
  | [] => by cases t <;> rfl
  | c :: s => by
    obtain ⟨n, hn⟩ : ∃ n, Str.len (c :: s) = n + 1 := ⟨Str.len (c :: s) - 1, by
      have := c.utf8Size_pos
      rw [len_cons]
      omega⟩
    have hsub : n + 1 - c.utf8Size = Str.len s := by
      rw [len_cons] at hn
      omega
    rw [hn, List.cons_append, Str.sliceFrom, if_pos (by rw [len_cons] at hn; omega), hsub, sliceFrom_len]

/-- `find` is where `split_once` splits. -/
theorem find_eq {d : Char} : ∀ {s : Str}, Str.find d s = (Str.splitOnce d s).map fun (a, _) => Str.len a
  | [] => rfl
  | c :: s => by
    unfold Str.find Str.splitOnce
    by_cases hc : c = d
    · rw [if_pos hc, if_pos hc]
      rfl
    · rw [if_neg hc, if_neg hc, find_eq, Option.map_map, Option.map_map]
      congr 1
      funext ab
      exact len_cons.symm

/-- **Slicing where an ASCII character was found never panics**: before it,
after it, and up to and including it. -/
theorem sliceTo_find {d : Char} {s a b : Str} (hd : d.utf8Size = 1) (h : Str.splitOnce d s = some (a, b)) :
    Str.find d s = some (Str.len a) ∧ Str.sliceTo s (Str.len a) = some a ∧
      Str.sliceFrom s (Str.len a + 1) = some b ∧ Str.sliceTo s (Str.len a + 1) = some (a ++ [d]) := by
  obtain ⟨rfl, -⟩ := splitOnce_some h
  have hlen : Str.len (a ++ [d]) = Str.len a + 1 := by
    rw [len_append, len_cons, hd]
    rfl
  have hcut : a ++ d :: b = (a ++ [d]) ++ b := by rw [List.append_assoc, List.singleton_append]
  refine ⟨by rw [find_eq, h]; rfl, sliceTo_len, ?_, ?_⟩
  · rw [hcut, ← hlen, sliceFrom_len]
  · rw [hcut, ← hlen, sliceTo_len]

end SecureSudoers
