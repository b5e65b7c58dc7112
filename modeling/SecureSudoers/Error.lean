/-
The crate's error type, with the texts it displays.
-/
import SecureSudoers.StdPath

namespace SecureSudoers

/-- The system call failures the model tells apart, and the one without a call:
a path with a NUL in it. -/
inductive Errno where
  | ENOENT
  | EACCES
  | EEXIST
  | ENOTDIR
  | EINVAL
  | ELOOP
  | other (code : Nat)
  | nulInPath
  deriving DecidableEq, Repr

def EPERM : Errno := .other 1

/-- How `std::io::Error` displays it. -/
def Errno.display (e : Errno) : Str :=
  let os (text : String) (code : Nat) : Str := text ++ " (os error " ++ Nat.toDigits 10 code ++ ")"
  match e with
  | .ENOENT => os "No such file or directory" 2
  | .EACCES => os "Permission denied" 13
  | .EEXIST => os "File exists" 17
  | .ENOTDIR => os "Not a directory" 20
  | .EINVAL => os "Invalid argument" 22
  | .ELOOP => os "Too many levels of symbolic links" 40
  | .other code => os "Unknown error" code
  | .nulInPath => "file name contained an unexpected NUL byte"

/-- `error.rs`. -/
inductive Error where
  | io (source : Errno)
  | ioContext (context : Str) (source : Errno)
  | validation (message : Str)
  | security (message : Str)
  | config (message : Str)
  | parse (message : Str)
  | system (message : Str)
  | spoofing (message : Str)
  | network (message : Str)
  | execution (message : Str)
  deriving DecidableEq, Repr

/-- `Display` for `Error`. -/
def Error.display : Error → Str
  | .io source => "IO error: " ++ source.display
  | .ioContext context source => context ++ ": " ++ source.display
  | .validation m | .security m | .config m | .parse m | .system m | .spoofing m | .network m
  | .execution m => m

/-- A computation that may fail and then another one succeed when both do. -/
theorem bind_ok {ε α β : Type} {x : Except ε α} {f : α → Except ε β} {b : β} :
    (x >>= f) = .ok b ↔ ∃ a, x = .ok a ∧ f a = .ok b := by
  cases x <;> simp [bind, Except.bind]

theorem mapError_ok {ε ε' α : Type} {f : ε → ε'} {x : Except ε α} {a : α} :
    x.mapError f = .ok a ↔ x = .ok a := by
  cases x <;> simp [Except.mapError]

theorem map_ok {ε α β : Type} {x : Except ε α} {f : α → β} {b : β} :
    x.map f = .ok b ↔ ∃ a, x = .ok a ∧ f a = b := by
  cases x <;> simp [Except.map]

theorem eq_ok_get {ε α : Type} {x : Except ε α} (h : x.toOption.isSome = true) : x = .ok (x.toOption.get h) := by
  cases x with
  | error e => cases h
  | ok a => rfl

/-! ## Failing no more often -/

/-- What `x` returns, `y` returns. -/
def Refines {ε ε' α : Type} (x : Except ε α) (y : Except ε' α) : Prop := ∀ a, x = .ok a → y = .ok a

namespace Refines

variable {ε ε' α β : Type} {x : Except ε α} {y : Except ε' α}

theorem refl (x : Except ε α) : Refines x x := fun _ h => h

theorem error {e : ε} : Refines (.error e) y := by
  intro a h
  cases h

theorem bind {f : α → Except ε β} {g : α → Except ε' β} (h : Refines x y) (hf : ∀ a, Refines (f a) (g a)) :
    Refines (x >>= f) (y >>= g) := by
  intro b hb
  obtain ⟨a, hx, ha⟩ := bind_ok.mp hb
  exact bind_ok.mpr ⟨a, h a hx, hf a b ha⟩

theorem map {f : α → β} (h : Refines x y) : Refines (x.map f) (y.map f) := by
  intro b hb
  obtain ⟨a, hx, ha⟩ := map_ok.mp hb
  exact map_ok.mpr ⟨a, h a hx, ha⟩

theorem mapError {δ δ' : Type} {f : ε → δ} {g : ε' → δ'} (h : Refines x y) :
    Refines (x.mapError f) (y.mapError g) := by
  intro a ha
  exact mapError_ok.mpr (h a (mapError_ok.mp ha))

theorem ite {c : Prop} [Decidable c] {x₁ x₂ : Except ε α} {y₁ y₂ : Except ε' α} (h₁ : c → Refines x₁ y₁)
    (h₂ : ¬c → Refines x₂ y₂) : Refines (if c then x₁ else x₂) (if c then y₁ else y₂) := by
  split
  · next hc => exact h₁ hc
  · next hc => exact h₂ hc

end Refines

end SecureSudoers
