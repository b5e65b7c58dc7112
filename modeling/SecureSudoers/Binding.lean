/-
The check of what sudo ran against what the policy runs (`helpers/binding.rs`):
the command in `SUDO_COMMAND` must have the tool's name and, when it is a path,
lead to the very file the policy names.

`Descriptors` are the system calls that identify a file, with any outcome;
`FileSystem.descriptors` are these on a file system that does not change.
-/
import SecureSudoers.Invocation
import SecureSudoers.Models

namespace SecureSudoers

variable {D : Type}

structure ExecutableIdentity where
  dev : Nat
  ino : Nat
  deriving DecidableEq, Repr

def Stat.identity (st : Stat) : ExecutableIdentity := { dev := st.dev, ino := st.ino }

/-- `open(path, O_PATH | O_CLOEXEC)`, which follows symlinks, and `fstat`. -/
structure Descriptors (D : Type) where
  openPath : Str → Except Errno D
  fstat : D → Except Errno Stat

structure SudoBindingError where
  message : Str
  observedSudoPath : Option Str
  deriving DecidableEq, Repr

def unverifiableMsg : Str := "Spoofing attempt detected: unable to verify executable identity"

def identityMismatchMsg (expectedTool : Str) : Str :=
  "Spoofing attempt detected: executable identity mismatch for command '" ++ expectedTool ++ "'"

def executableIdentityFromFd (os : Descriptors D) (fd : D) : Except Error ExecutableIdentity :=
  match os.fstat fd with
  | .error e => .error (.ioContext "fstat failed" e)
  | .ok st => .ok st.identity

def executableIdentityFromPath (os : Descriptors D) (path : Str) : Except Error ExecutableIdentity :=
  if '\x00' ∈ path then
    .error (.validation ("cannot open executable path '" ++ path ++ "': invalid NUL byte"))
  else match os.openPath path with
    | .error e => .error (.ioContext ("cannot open executable path '" ++ path ++ "'") e)
    | .ok fd => (executableIdentityFromFd os fd).mapError fun e =>
      .system ("cannot stat executable path '" ++ path ++ "': " ++ e.display)

/-- `verify_sudo_command_binding_internal`. -/
def verifySudoCommandBindingInternal (os : Descriptors D) (toolName : Str) (expectedBinary : SecurePath D)
    (getEnv : Str → Option Str) : Except SudoBindingError Unit :=
  match getEnv "SUDO_COMMAND" with
  | none => .ok ()
  | some sudoCmd =>
    match delegatedCommandTokenFromSudoCommand sudoCmd with
    | .error .invalidPrefix => .error ⟨invalidPrefixMsg, none⟩
    | .error .missingDelegatedCommand => .error ⟨missingDelegatedCommandMsg, none⟩
    | .ok sudoToolToken =>
      if sudoToolToken = [] then .error ⟨missingDelegatedCommandMsg, none⟩
      else if basename sudoToolToken ≠ basename toolName then
        .error ⟨commandMismatchMsg (basename toolName) (basename sudoToolToken),
          if '/' ∈ sudoToolToken then some sudoToolToken else none⟩
      else if '/' ∉ sudoToolToken then .ok ()
      else do
        let sudoIdentity ← (executableIdentityFromPath os sudoToolToken).mapError fun _ =>
          ⟨unverifiableMsg, some sudoToolToken⟩
        let expectedIdentity ← (executableIdentityFromFd os expectedBinary.fd).mapError fun _ =>
          ⟨unverifiableMsg, some expectedBinary.path⟩
        if sudoIdentity ≠ expectedIdentity then
          .error ⟨identityMismatchMsg (basename toolName), some sudoToolToken⟩
        else .ok ()

/-- When the check passes: the command has the tool's name, and a path leads to the tool's file. -/
theorem verifySudoCommandBindingInternal_ok {os : Descriptors D} {toolName sudoCmd : Str} {binary : SecurePath D}
    {getEnv : Str → Option Str} (henv : getEnv "SUDO_COMMAND" = some sudoCmd) :
    verifySudoCommandBindingInternal os toolName binary getEnv = .ok () ↔
      ∃ token, delegatedCommandTokenFromSudoCommand sudoCmd = .ok token ∧ token ≠ [] ∧
        basename token = basename toolName ∧
        ('/' ∈ token → ∃ id, executableIdentityFromPath os token = .ok id ∧
          executableIdentityFromFd os binary.fd = .ok id) := by
  unfold verifySudoCommandBindingInternal
  rw [henv]
  dsimp only
  cases htok : delegatedCommandTokenFromSudoCommand sudoCmd with
  | error e => cases e <;> simp
  | ok token =>
    simp only [Except.ok.injEq, exists_eq_left']
    by_cases hnil : token = []
    · simp [hnil]
    by_cases hname : basename token = basename toolName
    · rw [if_neg hnil, if_neg (not_not_intro hname)]
      by_cases hslash : '/' ∈ token
      · rw [if_neg (not_not_intro hslash)]
        simp only [bind_ok, mapError_ok, ne_eq, hnil, not_false_eq_true, hname, hslash, true_and, true_imp_iff]
        constructor
        · rintro ⟨id, hpath, id', hfd, h⟩
          split at h
          · cases h
          · next heq =>
            obtain rfl := not_not.mp heq
            exact ⟨id, hpath, hfd⟩
        · rintro ⟨id, hpath, hfd⟩
          exact ⟨id, hpath, id, hfd, if_neg (not_not_intro rfl)⟩
      · simp [hnil, hname, hslash]
    · simp [hnil, hname]

end SecureSudoers
