/-
The kernel that the programs ask for (`kernel.rs`).

A release is read leniently: of each of its first two components the digits in
front count and the rest is not looked at. `ensureMinimumKernelVersion_release`
says which texts pass; a kernel that prints its version in front of what does
not start with a digit passes exactly from 4.19 on.
-/
import Mathlib.Data.Prod.Lex
import SecureSudoers.Capabilities
import SecureSudoers.Descendants
import SecureSudoers.Pem

namespace SecureSudoers

def MIN_SUPPORTED_KERNEL_MAJOR : Nat := 4
def MIN_SUPPORTED_KERNEL_MINOR : Nat := 19

/-! ## The code -/

/-- `parse_component`. -/
def parseComponent (component : Option Str) (label release : Str) : Except Error Nat :=
  match component with
  | none => .error (.parse ("Invalid Linux kernel release '" ++ release ++ "': missing " ++ label ++ " component"))
  | some component =>
    let digits := component.takeWhile Char.isDigit
    if digits = [] then
      .error (.parse ("Invalid Linux kernel release '" ++ release ++ "': malformed " ++ label ++ " component '" ++
        component ++ "'"))
    else (u32FromStr digits).mapError fun e =>
      .parse ("Invalid Linux kernel release '" ++ release ++ "': cannot parse " ++ label ++ " component '" ++
        component ++ "': " ++ displayParseError e)

/-- `parse_kernel_release`. -/
def parseKernelRelease (release : Str) : Except Error (Nat × Nat) :=
  let trimmed := trim release
  if trimmed = [] then .error (.parse "Kernel release is empty")
  else do
    let parts := trimmed.splitOn '.'
    let major ← parseComponent parts[0]? "major" trimmed
    let minor ← parseComponent parts[1]? "minor" trimmed
    .ok (major, minor)

/-- `ensure_minimum_kernel_version_for_release`. -/
def ensureMinimumKernelVersionForRelease (release : Str) : Except Error Unit := do
  let (major, minor) ← parseKernelRelease release
  if MIN_SUPPORTED_KERNEL_MAJOR < major ∨
      (major = MIN_SUPPORTED_KERNEL_MAJOR ∧ MIN_SUPPORTED_KERNEL_MINOR ≤ minor) then .ok ()
  else .error (.system ("Unsupported Linux kernel release '" ++ release ++ "': secure-sudoers requires Linux kernel " ++
    Nat.toDigits 10 MIN_SUPPORTED_KERNEL_MAJOR ++ "." ++ Nat.toDigits 10 MIN_SUPPORTED_KERNEL_MINOR ++ " or newer."))

/-- What the release is read from. -/
structure KernelHost where
  /-- `SECURE_SUDOERS_TEST_KERNEL_RELEASE`, which a debug build looks at. -/
  releaseOverride : Option Str
  /-- The field `release` that `uname` fills. -/
  uname : Except Errno Bytes
  /-- How `std::str::Utf8Error` displays. -/
  utf8Error : Bytes → Str

namespace KernelHost

variable (host : KernelHost)

/-- `current_kernel_release`. -/
def currentKernelRelease : Except Error Str :=
  match host.releaseOverride with
  | some release => .ok release
  | none =>
    match host.uname with
    | .error e => .error (.ioContext "Failed to query Linux kernel release with uname(2)" e)
    | .ok field =>
      let releaseBytes := field.takeWhile (· ≠ 0)
      match Utf8.decode? releaseBytes with
      | some release => .ok release
      | none => .error (.parse ("Kernel release from uname(2) is not valid UTF-8: " ++ host.utf8Error releaseBytes))

/-- `ensure_minimum_kernel_version`. -/
def ensureMinimumKernelVersion : Except Error Unit := do
  let release ← host.currentKernelRelease
  ensureMinimumKernelVersionForRelease release

end KernelHost

/-! ## Components -/

/-- The text starts with the digits of `n`, and no digit follows. -/
def Leads (s : Str) (n : Nat) : Prop :=
  ∃ digits rest, s = digits ++ rest ∧ digits ≠ [] ∧ digits.all Char.isDigit = true ∧
    (∀ c ∈ rest.head?, c.isDigit = false) ∧ Nat.ofDigitChars 10 digits 0 = n

theorem takeWhile_digits {digits rest : Str} (hdigits : digits.all Char.isDigit = true)
    (hrest : ∀ c ∈ rest.head?, c.isDigit = false) : (digits ++ rest).takeWhile Char.isDigit = digits := by
  rw [List.takeWhile_append_of_pos (List.all_eq_true.mp hdigits)]
  cases rest with
  | nil => simp
  | cons c rest => simp [hrest c rfl]

theorem u32FromStr_digits {digits : Str} {n : Nat} (hne : digits ≠ []) (hdigits : digits.all Char.isDigit = true) :
    u32FromStr digits = .ok n ↔ Nat.ofDigitChars 10 digits 0 = n ∧ n < 2 ^ 32 := by
  have hparse : u32FromStr digits = Decimal.parseDigits (2 ^ 32) 0 digits := by
    unfold u32FromStr Decimal.parseNat
    split
    · exact absurd rfl hne
    · simp at hdigits
    · simp at hdigits
    · rfl
  rw [hparse, Decimal.parseDigits_ok (by decide), and_iff_right hdigits]

theorem parseComponent_ok {component : Option Str} {label release : Str} {n : Nat} :
    parseComponent component label release = .ok n ↔ ∃ s, component = some s ∧ Leads s n ∧ n < 2 ^ 32 := by
  cases component with
  | none => simp [parseComponent]
  | some s =>
    have hsplit : s = s.takeWhile Char.isDigit ++ s.dropWhile Char.isDigit := List.takeWhile_append_dropWhile.symm
    have hall : (s.takeWhile Char.isDigit).all Char.isDigit = true :=
      List.all_eq_true.mpr fun c hc => List.mem_takeWhile_imp hc
    simp only [parseComponent, Option.some.injEq, exists_eq_left']
    by_cases hne : s.takeWhile Char.isDigit = []
    · rw [if_pos hne]
      refine iff_of_false nofun ?_
      intro ⟨⟨digits, rest, hs, hdigits, hd, hr, _⟩, _⟩
      rw [hs, takeWhile_digits hd hr] at hne
      exact hdigits hne
    · rw [if_neg hne, mapError_ok, u32FromStr_digits hne hall]
      refine and_congr_left fun _ => ⟨fun hn => ?_, fun ⟨digits, rest, hs, _, hd, hr, hn⟩ => ?_⟩
      · exact ⟨_, _, hsplit, hne, hall, head?_dropWhile, hn⟩
      · rw [hs, takeWhile_digits hd hr]
        exact hn

theorem parseKernelRelease_ok {release : Str} {major minor : Nat} :
    parseKernelRelease release = .ok (major, minor) ↔ ∃ first second more,
      (trim release).splitOn '.' = first :: second :: more ∧ Leads first major ∧ Leads second minor ∧
        major < 2 ^ 32 ∧ minor < 2 ^ 32 := by
  unfold parseKernelRelease
  dsimp only
  by_cases hempty : trim release = []
  · rw [if_pos hempty, hempty]
    simp
  · rw [if_neg hempty]
    simp only [bind_ok, parseComponent_ok]
    cases (trim release).splitOn '.' with
    | nil => simp
    | cons first more =>
      cases more with
      | nil => simp
      | cons second more =>
        simp only [List.getElem?_cons_zero, List.getElem?_cons_succ, Option.some.injEq, exists_eq_left', Except.ok.injEq,
          Prod.mk.injEq, List.cons.injEq]
        constructor
        · intro ⟨_, ⟨hfirst, hmajor⟩, _, ⟨hsecond, hminor⟩, rfl, rfl⟩
          exact ⟨first, second, more, ⟨rfl, rfl, rfl⟩, hfirst, hsecond, hmajor, hminor⟩
        · intro ⟨_, _, _, ⟨rfl, rfl, rfl⟩, hfirst, hsecond, hmajor, hminor⟩
          exact ⟨major, ⟨hfirst, hmajor⟩, minor, ⟨hsecond, hminor⟩, rfl, rfl⟩

theorem leads_digits {n : Nat} {rest : Str} (hrest : ∀ c ∈ rest.head?, c.isDigit = false) :
    Leads (Nat.toDigits 10 n ++ rest) n :=
  ⟨_, rest, rfl, Nat.toDigits_ne_nil, List.all_eq_true.mpr fun _ hc => Decimal.isDigit_of_mem hc, hrest,
    Nat.ofDigitChars_toDigits (by omega) (by omega)⟩

/-- The first part is what comes before the separator, or all. -/
theorem splitOn_front {c : Char} {p s : Str} (hp : c ∉ p) :
    ∃ front back more, s = front ++ back ∧ (p ++ s).splitOn c = (p ++ front) :: more := by
  by_cases hc : c ∈ s
  · obtain ⟨front, rest, rfl, hfront⟩ := List.eq_append_cons_of_mem hc
    refine ⟨front, c :: rest, rest.splitOn c, rfl, ?_⟩
    rw [← List.append_assoc, List.splitOn_append_cons_self, List.splitOn_eq_singleton (by simp [hp, hfront])]
    rfl
  · exact ⟨s, [], [], (List.append_nil s).symm, List.splitOn_eq_singleton (by simp [hp, hc])⟩

theorem trimmed_printed {major minor : Nat} {suffix : Str} (hlast : ∀ c ∈ suffix.getLast?, isWhitespace c = false) :
    Trimmed (Nat.toDigits 10 major ++ '.' :: (Nat.toDigits 10 minor ++ suffix)) := by
  have hdigit : ∀ {n : Nat} {c : Char}, c ∈ Nat.toDigits 10 n → isWhitespace c = false := by
    intro n c hc
    have := isDigit_bounds (Decimal.isDigit_of_mem hc)
    exact graphic_not_whitespace (by omega) (by omega)
  constructor
  · intro c hc
    rw [List.head?_append_of_ne_nil _ Nat.toDigits_ne_nil] at hc
    exact hdigit (List.mem_of_head? hc)
  · intro c hc
    rw [← List.cons_append, ← List.append_assoc, List.getLast?_append, Option.mem_def, Option.or_eq_some_iff] at hc
    obtain hc | ⟨-, hc⟩ := hc
    · exact hlast c hc
    · have hmem := List.mem_of_getLast? hc
      simp only [List.mem_append, List.mem_cons] at hmem
      obtain h | rfl | h := hmem
      · exact hdigit h
      · decide
      · exact hdigit h

/-- The components of a release that is printed. -/
theorem parseKernelRelease_printed {major minor : Nat} {suffix : Str} (hmajor : major < 2 ^ 32) (hminor : minor < 2 ^ 32)
    (hsuffix : ∀ c ∈ suffix.head?, c.isDigit = false) (hlast : ∀ c ∈ suffix.getLast?, isWhitespace c = false) :
    parseKernelRelease (Nat.toDigits 10 major ++ '.' :: (Nat.toDigits 10 minor ++ suffix)) = .ok (major, minor) := by
  have hdot : ∀ {n : Nat}, '.' ∉ Nat.toDigits 10 n := Decimal.not_mem_digits (by decide)
  obtain ⟨front, back, more, hsplit, hparts⟩ := @splitOn_front '.' (Nat.toDigits 10 minor) suffix hdot
  have hfront : ∀ c ∈ front.head?, c.isDigit = false := by
    intro c hc
    refine hsuffix c ?_
    rw [hsplit, List.head?_append, hc]
    rfl
  refine parseKernelRelease_ok.mpr ⟨Nat.toDigits 10 major, Nat.toDigits 10 minor ++ front, more, ?_, ?_,
    leads_digits hfront, hmajor, hminor⟩
  · rw [(trimmed_printed hlast).trim_eq, List.splitOn_append_cons_self, List.splitOn_eq_singleton hdot, hparts]
    rfl
  · simpa using @leads_digits major [] (by simp)

/-! ## The gate -/

/-- **Which releases pass.** Numbers are compared as numbers, the first component
first; and the release of a kernel that prints its version passes exactly if the
version is 4.19 or a later one, whatever is printed behind it. -/
theorem ensureMinimumKernelVersion_release :
    (∀ release, ensureMinimumKernelVersionForRelease release = .ok () ↔ ∃ first second more major minor,
      (trim release).splitOn '.' = first :: second :: more ∧ Leads first major ∧ Leads second minor ∧
        major < 2 ^ 32 ∧ minor < 2 ^ 32 ∧
          toLex (MIN_SUPPORTED_KERNEL_MAJOR, MIN_SUPPORTED_KERNEL_MINOR) ≤ toLex (major, minor)) ∧
    ∀ major minor : Nat, ∀ suffix : Str, major < 2 ^ 32 → minor < 2 ^ 32 →
      (∀ c ∈ suffix.head?, c.isDigit = false) → (∀ c ∈ suffix.getLast?, isWhitespace c = false) →
      (ensureMinimumKernelVersionForRelease
          (Nat.toDigits 10 major ++ '.' :: (Nat.toDigits 10 minor ++ suffix)) = .ok () ↔
        toLex (MIN_SUPPORTED_KERNEL_MAJOR, MIN_SUPPORTED_KERNEL_MINOR) ≤ toLex (major, minor)) := by
  have hgate : ∀ release, ensureMinimumKernelVersionForRelease release = .ok () ↔ ∃ major minor,
      parseKernelRelease release = .ok (major, minor) ∧
        toLex (MIN_SUPPORTED_KERNEL_MAJOR, MIN_SUPPORTED_KERNEL_MINOR) ≤ toLex (major, minor) := by
    intro release
    rw [ensureMinimumKernelVersionForRelease, bind_ok, Prod.exists]
    refine exists_congr fun major => exists_congr fun minor => and_congr_right fun _ => ?_
    rw [Prod.Lex.toLex_le_toLex]
    dsimp only
    split
    · next h =>
      refine iff_of_true rfl (h.imp_right fun h => ⟨h.1.symm, h.2⟩)
    · next h =>
      refine iff_of_false nofun fun h' => h (h'.imp_right fun h => ⟨h.1.symm, h.2⟩)
  constructor
  · intro release
    rw [hgate]
    constructor
    · intro ⟨major, minor, hparse, hle⟩
      obtain ⟨first, second, more, hparts, hfirst, hsecond, hmajor, hminor⟩ := parseKernelRelease_ok.mp hparse
      exact ⟨first, second, more, major, minor, hparts, hfirst, hsecond, hmajor, hminor, hle⟩
    · intro ⟨first, second, more, major, minor, hparts, hfirst, hsecond, hmajor, hminor, hle⟩
      exact ⟨major, minor, parseKernelRelease_ok.mpr ⟨first, second, more, hparts, hfirst, hsecond, hmajor, hminor⟩, hle⟩
  · intro major minor suffix hmajor hminor hsuffix hlast
    have hparse := parseKernelRelease_printed hmajor hminor hsuffix hlast
    rw [hgate]
    constructor
    · intro ⟨major', minor', hparse', hle⟩
      cases hparse.symm.trans hparse'
      exact hle
    · intro hle
      exact ⟨major, minor, hparse, hle⟩

end SecureSudoers
