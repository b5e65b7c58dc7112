/-
Installing a downloaded policy and its signature (`install_update` in
`network.rs`), on the directory they stand in.

Both files are written beside their places and then renamed, the signature
first; when the policy cannot be renamed, `restore_signature` puts the signature
back. Any call may fail. `installUpdate_atomic`: as long as those of the
rollback do not, the directory holds the old pair or the new one, and nothing
else in it has changed but for temporary files that stayed.

A temporary file is dropped wherever the function returns before it was renamed.
That removes it, as `tempfile` documents it, and ignores it when that fails.
-/
import Mathlib.Data.Finmap
import Mathlib.Order.Lattice.Nat
import SecureSudoers.Error
import SecureSudoers.FileSystem

namespace SecureSudoers

structure RegularFile where
  bytes : Bytes
  mode : Nat
  immutable : Bool := false
  deriving DecidableEq, Repr

/-- The permission bits. -/
def RegularFile.permissions (f : RegularFile) : Nat := f.mode &&& 0o777

/-- What can be seen of a file, or that it is absent. -/
def visible (f : Option RegularFile) : Option (Bytes × Nat) := f.map fun f => (f.bytes, f.permissions)

/-- A directory of regular files. -/
abbrev Dir := Finmap fun _ : Str => RegularFile

/-- The files that are written: the two new ones, and the old signature where it is put back. -/
inductive Role where
  | sig
  | policy
  | oldSig
  deriving DecidableEq, Repr

inductive Call where
  | openRead
  | read
  | openMode
  | metadata
  | openFlags
  | getFlags
  | create
  | write
  | sync
  | chmod
  | persist
  | drop
  | remove
  deriving DecidableEq, Repr

/-- How the names begin that `tempfile` gives to files. -/
def tempStart : Str := ".tmp"

/-- What goes wrong in a run, and the names its temporary files get. -/
structure Faults where
  fails : Call → Role → Option Errno
  /-- That a file is missing is seen, not made up. -/
  found (call : Call) (r : Role) : fails call r ≠ some .ENOENT
  /-- Why `secure_parent_directory` refuses the directory. -/
  refusal : Role → Option Error
  /-- The descriptor it opens on it. -/
  parentFd : Nat
  /-- How much a write that fails has written. -/
  written : Role → Nat
  /-- Why `chattr_op` cannot make the file immutable. -/
  chattr : Role → Option Str
  tempName : Role → Dir → Str
  tempName_new (r : Role) (dir : Dir) : dir.lookup (tempName r dir) = none
  tempName_temp (r : Role) (dir : Dir) : Str.startsWith (tempName r dir) tempStart = true

/-- No call inside `restore_signature` fails. -/
structure Faults.RollbackWorks (o : Faults) : Prop where
  fails (call : Call) : o.fails call .oldSig = none
  refusal : o.refusal .oldSig = none
  chattr : o.chattr .oldSig = none

/-- Where a policy is installed: its name in a directory, which no temporary file has. -/
structure Destination where
  parent : Str
  name : Str
  absolute : Path.isAbsolute parent = true
  isName : Path.IsName name
  lasting : Str.startsWith name tempStart = false

namespace Destination

variable (dest : Destination)

def policyPath : Str := dest.parent ++ '/' :: dest.name

def sigPath : Str := dest.policyPath ++ ".sig"

def sigName : Str := dest.name ++ ".sig"

end Destination

/-! ## What is there -/

def maxRollbackSignatureBytes : Nat := 1024
def defaultPolicyMode : Nat := 0o600

/-- `std::io::Error`, as `network.rs` builds and displays it. -/
inductive IoError where
  | os (e : Errno)
  | invalidData (msg : Str)
  | other (msg : Str)
  deriving DecidableEq, Repr

def IoError.display : IoError → Str
  | .os e => e.display
  | .invalidData msg | .other msg => msg

def openExisting (o : Faults) (call : Call) (r : Role) (dir : Dir) (name : Str) : Except Errno RegularFile :=
  match dir.lookup name with
  | none => .error .ENOENT
  | some f =>
    match o.fails call r with
    | some e => .error e
    | none => .ok f

def readExistingSignatureForRollback (o : Faults) (dir : Dir) (name : Str) : Except IoError (Option Bytes) :=
  match openExisting o .openRead .sig dir name with
  | .error .ENOENT => .ok none
  | .error e => .error (.os e)
  | .ok f =>
    match o.fails .read .sig with
    | some e => .error (.os e)
    | none =>
      let bytes := f.bytes.take (maxRollbackSignatureBytes + 1)
      if bytes.length > maxRollbackSignatureBytes then
        .error (.invalidData ("existing signature exceeds " ++ Nat.toDigits 10 maxRollbackSignatureBytes ++ " bytes"))
      else .ok (some bytes)

def readExistingMode (o : Faults) (r : Role) (dir : Dir) (name : Str) : Except IoError (Option Nat) :=
  match openExisting o .openMode r dir name with
  | .error .ENOENT => .ok none
  | .error e => .error (.os e)
  | .ok f =>
    match o.fails .metadata r with
    | some e => .error (.os e)
    | none => .ok (some f.permissions)

def ENOTTY : Errno := .other 25
def EOPNOTSUPP : Errno := .other 95

def readExistingImmutable (o : Faults) (r : Role) (dir : Dir) (name : Str) : Except IoError (Option Bool) :=
  match openExisting o .openFlags r dir name with
  | .error .ENOENT => .ok none
  | .error e => .error (.os e)
  | .ok f =>
    match o.fails .getFlags r with
    | some e => if e = ENOTTY ∨ e = EOPNOTSUPP ∨ e = .EINVAL then .ok (some false) else .error (.os e)
    | none => .ok (some f.immutable)

/-- What `install_update` keeps of the files it replaces. -/
structure Prior where
  previousSig : Option Bytes
  sigMode : Option Nat
  sigWasImmutable : Bool
  policyMode : Option Nat
  policyWasImmutable : Bool

/-- An error with its context, as it is displayed. -/
def within {α : Type} (context : Str) (x : Except IoError α) : Except Str α :=
  x.mapError fun e => context ++ ": " ++ e.display

def readPrior (o : Faults) (dest : Destination) (dir : Dir) : Except Str Prior := do
  let previousSig ← within ("Failed to read existing signature at " ++ dest.sigPath)
    (readExistingSignatureForRollback o dir dest.sigName)
  let sigMode ← within ("Cannot read metadata for " ++ dest.sigPath) (readExistingMode o .sig dir dest.sigName)
  let sigWasImmutable ← within ("Cannot inspect immutable flag for " ++ dest.sigPath)
    (readExistingImmutable o .sig dir dest.sigName)
  let policyMode ← within ("Cannot read metadata for " ++ dest.policyPath)
    (readExistingMode o .policy dir dest.name)
  let policyWasImmutable ← within ("Cannot inspect immutable flag for " ++ dest.policyPath)
    (readExistingImmutable o .policy dir dest.name)
  return { previousSig, sigMode, sigWasImmutable := sigWasImmutable.getD false, policyMode,
           policyWasImmutable := policyWasImmutable.getD false }

/-! ## Temporary files -/

/-- What is done with a temporary file before it is renamed. -/
inductive TempStep where
  | writeAll (bytes : Bytes)
  | syncAll
  | applyMode (mode : Nat)
  deriving DecidableEq, Repr

def TempStep.call : TempStep → Call
  | .writeAll _ => .write
  | .syncAll => .sync
  | .applyMode _ => .chmod

/-- What the step makes of the file. -/
def TempStep.apply (f : RegularFile) : TempStep → RegularFile
  | .writeAll bytes => { f with bytes }
  | .syncAll => f
  | .applyMode mode => { f with mode }

/-- What it makes of it when it fails. -/
def TempStep.broken (o : Faults) (r : Role) (f : RegularFile) : TempStep → RegularFile
  | .writeAll bytes => { f with bytes := bytes.take (o.written r) }
  | .syncAll | .applyMode _ => f

/-- The steps in their order, up to the first that fails. -/
def runSteps (o : Faults) (r : Role) : List TempStep → RegularFile → Except (TempStep × Errno) Unit × RegularFile
  | [], f => (.ok (), f)
  | step :: steps, f =>
    match o.fails step.call r with
    | some e => (.error (step, e), step.broken o r f)
    | none => runSteps o r steps (step.apply f)

inductive TempFailure where
  | create (e : Errno)
  | step (step : TempStep) (e : Errno)
  deriving DecidableEq, Repr

/-- What is left when a temporary file is dropped. -/
def dropTemp (o : Faults) (r : Role) (tmp : Str) (dir : Dir) : Dir :=
  match o.fails .drop r with
  | some _ => dir
  | none => dir.erase tmp

/-- `NamedTempFile::new_in` and the steps; the file is dropped where one fails. -/
def stage (o : Faults) (r : Role) (steps : List TempStep) (dir : Dir) : Except TempFailure Str × Dir :=
  match o.fails .create r with
  | some e => (.error (.create e), dir)
  | none =>
    let tmp := o.tempName r dir
    match runSteps o r steps { bytes := [], mode := 0o600 } with
    | (.error (step, e), f) => (.error (.step step e), dropTemp o r tmp (dir.insert tmp f))
    | (.ok (), f) => (.ok tmp, dir.insert tmp f)

/-- `NamedTempFile::persist`; the file is dropped with the error. An immutable target is not replaced. -/
def persist (o : Faults) (r : Role) (tmp target : Str) (dir : Dir) : Except Errno Unit × Dir :=
  match o.fails .persist r with
  | some e => (.error e, dropTemp o r tmp dir)
  | none =>
    match dir.lookup tmp with
    | none => (.error .ENOENT, dir)
    | some f =>
      if (dir.lookup target).any (·.immutable) then (.error EPERM, dropTemp o r tmp dir)
      else (.ok (), (dir.erase tmp).insert target f)

/-- `chattr_op` with `+i`: the errors of those that could not be made immutable. -/
def chattrOp (o : Faults) : List (Role × Str) → Dir → List Str × Dir
  | [], dir => ([], dir)
  | (r, name) :: targets, dir =>
    match o.chattr r with
    | some msg => (msg :: (chattrOp o targets dir).1, (chattrOp o targets dir).2)
    | none => chattrOp o targets (match dir.lookup name with
      | none => dir
      | some f => dir.insert name { f with immutable := true })

/-! ## The update -/

def procFdDirectoryPath (fd : Nat) : Str := "/proc/self/fd/" ++ Nat.toDigits 10 fd

def tempFailureMsg (o : Faults) (what : Str) : TempFailure → Str
  | .create e => "Cannot create temp " ++ what ++ " file in " ++ procFdDirectoryPath o.parentFd ++ ": " ++ e.display
  | .step (.writeAll _) e => "Failed to write temp " ++ what ++ " file: " ++ e.display
  | .step .syncAll e => "Failed to sync temp " ++ what ++ " file: " ++ e.display
  | .step (.applyMode _) e => "Failed to set permissions on temp " ++ what ++ " file: " ++ e.display

def joinWith (sep : Str) (msgs : List Str) : Str := (msgs.intersperse sep).flatten

/-- `restore_signature`. -/
def restoreSignature (o : Faults) (dest : Destination) (previousSig : Option Bytes) (previousSigMode : Option Nat)
    (previousSigWasImmutable : Bool) (dir : Dir) : Except Str Unit × Dir :=
  match o.refusal .oldSig with
  | some e => (.error e.display, dir)
  | none =>
    match previousSig with
    | some bytes =>
      match stage o .oldSig [.writeAll bytes, .applyMode (previousSigMode.getD defaultPolicyMode), .syncAll] dir with
      | (.error (.create e), dir) | (.error (.step _ e), dir) => (.error e.display, dir)
      | (.ok tmp, dir) =>
        match persist o .oldSig tmp dest.sigName dir with
        | (.error e, dir) => (.error e.display, dir)
        | (.ok (), dir) =>
          if previousSigWasImmutable then
            match chattrOp o [(.oldSig, dest.sigName)] dir with
            | ([], dir) => (.ok (), dir)
            | (errors, dir) =>
              (.error ("failed to restore immutable attribute (+i): " ++ joinWith "; " errors), dir)
          else (.ok (), dir)
    | none =>
      match dir.lookup dest.sigName, o.fails .remove .oldSig with
      | none, _ => (.ok (), dir)
      | some _, some e => (.error e.display, dir)
      | some _, none => (.ok (), dir.erase dest.sigName)

def runWithSignatureRollback (o : Faults) (dest : Destination) (prior : Prior)
    (policyStep : Dir → Except Str Unit × Dir) (dir : Dir) : Except Str Unit × Dir :=
  match policyStep dir with
  | (.ok (), dir) => (.ok (), dir)
  | (.error err, dir) =>
    match restoreSignature o dest prior.previousSig prior.sigMode prior.sigWasImmutable dir with
    | (.error rollbackErr, dir) =>
      (.error ("Policy update failed (" ++ err ++ "); signature rollback also failed at " ++ dest.sigPath ++ ": " ++
        rollbackErr), dir)
    | (.ok (), dir) => (.error err, dir)

def restoreImmutableIfNeeded (o : Faults) (dest : Destination) (prior : Prior) (dir : Dir) : Except Str Unit × Dir :=
  let targets := (if prior.sigWasImmutable then [(Role.sig, dest.sigName)] else []) ++
    if prior.policyWasImmutable then [(Role.policy, dest.name)] else []
  match chattrOp o targets dir with
  | ([], dir) => (.ok (), dir)
  | (errors, dir) =>
    (.error ("Failed to restore immutable attribute (+i) on updated file(s):\n" ++ joinWith "\n" errors), dir)

/-- The step `install_update` has rolled back. -/
def policyStep (o : Faults) (dest : Destination) (tmpPolicy : Str) (dir : Dir) : Except Str Unit × Dir :=
  match persist o .policy tmpPolicy dest.name dir with
  | (.error e, dir) => (.error ("Atomic rename of policy failed: " ++ e.display), dir)
  | (.ok (), dir) => (.ok (), dir)

/-- `install_update`, on the directory `secure_parent_directory` opens. -/
def installUpdate (o : Faults) (dest : Destination) (policyBytes sigBytes : Bytes) (dir : Dir) :
    Except Str Unit × Dir :=
  match o.refusal .policy with
  | some e => (.error e.display, dir)
  | none =>
    match readPrior o dest dir with
    | .error msg => (.error msg, dir)
    | .ok prior =>
      match stage o .sig [.writeAll sigBytes, .syncAll, .applyMode (prior.sigMode.getD defaultPolicyMode)] dir with
      | (.error e, dir) => (.error (tempFailureMsg o "sig" e), dir)
      | (.ok tmpSig, dir) =>
        match stage o .policy
            [.writeAll policyBytes, .syncAll, .applyMode (prior.policyMode.getD defaultPolicyMode)] dir with
        | (.error e, dir) => (.error (tempFailureMsg o "policy" e), dropTemp o .sig tmpSig dir)
        | (.ok tmpPolicy, dir) =>
          match persist o .sig tmpSig dest.sigName dir with
          | (.error e, dir) =>
            (.error ("Atomic rename of signature failed: " ++ e.display), dropTemp o .policy tmpPolicy dir)
          | (.ok (), dir) =>
            match runWithSignatureRollback o dest prior (policyStep o dest tmpPolicy) dir with
            | (.error msg, dir) => (.error msg, dir)
            | (.ok (), dir) => restoreImmutableIfNeeded o dest prior dir

/-! ## What the reads say -/

variable {o : Faults} {dest : Destination} {dir : Dir}

theorem openExisting_missing {call : Call} {r : Role} {name : Str} :
    openExisting o call r dir name = .error .ENOENT ↔ dir.lookup name = none := by
  unfold openExisting
  cases dir.lookup name with
  | none => exact iff_of_true rfl rfl
  | some f =>
    refine iff_of_false ?_ (Option.some_ne_none f)
    cases hfail : o.fails call r with
    | none => simp
    | some e =>
      have hne : e ≠ .ENOENT := fun he => o.found call r (he ▸ hfail)
      simpa using hne

theorem openExisting_ok {call : Call} {r : Role} {name : Str} {f : RegularFile}
    (h : openExisting o call r dir name = .ok f) : dir.lookup name = some f := by
  unfold openExisting at h
  cases hfile : dir.lookup name with
  | none => rw [hfile] at h; cases h
  | some g =>
    rw [hfile] at h
    cases hfail : o.fails call r with
    | none => rw [hfail] at h; cases h; rfl
    | some e => rw [hfail] at h; cases h

theorem readExistingSignature_ok {name : Str} {previous : Option Bytes}
    (h : readExistingSignatureForRollback o dir name = .ok previous) :
    previous = (dir.lookup name).map RegularFile.bytes := by
  unfold readExistingSignatureForRollback at h
  split at h
  · rename_i hopen
    cases h
    rw [openExisting_missing.mp hopen]
    rfl
  · cases h
  · rename_i f hopen
    rw [openExisting_ok hopen]
    split at h
    · cases h
    · extract_lets bytes at h
      split at h
      · cases h
      · rename_i hlen
        cases h
        have hshort : f.bytes.length ≤ maxRollbackSignatureBytes := by
          have : bytes.length = min (maxRollbackSignatureBytes + 1) f.bytes.length := List.length_take
          omega
        exact congrArg some (List.take_of_length_le (by omega))

theorem readExistingMode_ok {r : Role} {name : Str} {mode : Option Nat}
    (h : readExistingMode o r dir name = .ok mode) : mode = (dir.lookup name).map RegularFile.permissions := by
  unfold readExistingMode at h
  split at h
  · rename_i hopen
    cases h
    rw [openExisting_missing.mp hopen]
    rfl
  · cases h
  · rename_i f hopen
    rw [openExisting_ok hopen]
    split at h
    · cases h
    · cases h
      rfl

theorem within_ok {α : Type} {context : Str} {x : Except IoError α} {a : α} : within context x = .ok a ↔ x = .ok a :=
  mapError_ok

theorem readPrior_ok {prior : Prior} (h : readPrior o dest dir = .ok prior) :
    prior.previousSig = (dir.lookup dest.sigName).map RegularFile.bytes ∧
      prior.sigMode = (dir.lookup dest.sigName).map RegularFile.permissions ∧
      prior.policyMode = (dir.lookup dest.name).map RegularFile.permissions := by
  unfold readPrior at h
  obtain ⟨previousSig, hsig, h⟩ := bind_ok.mp h
  obtain ⟨sigMode, hsigMode, h⟩ := bind_ok.mp h
  obtain ⟨sigImm, -, h⟩ := bind_ok.mp h
  obtain ⟨policyMode, hpolicyMode, h⟩ := bind_ok.mp h
  obtain ⟨policyImm, -, h⟩ := bind_ok.mp h
  cases h
  exact ⟨readExistingSignature_ok (within_ok.mp hsig), readExistingMode_ok (within_ok.mp hsigMode),
    readExistingMode_ok (within_ok.mp hpolicyMode)⟩

/-! ## What the temporary files leave -/

theorem erase_insert_new {name : Str} {f : RegularFile} (h : dir.lookup name = none) :
    (dir.insert name f).erase name = dir := by
  refine Finmap.ext_lookup fun n => ?_
  by_cases hn : n = name
  · rw [hn, Finmap.lookup_erase, h]
  · rw [Finmap.lookup_erase_ne hn, Finmap.lookup_insert_of_ne _ hn]

theorem runSteps_ok {r : Role} {steps : List TempStep} {f g : RegularFile}
    (h : runSteps o r steps f = (.ok (), g)) : g = steps.foldl TempStep.apply f := by
  induction steps generalizing f with
  | nil => exact (congrArg Prod.snd h).symm
  | cons step steps ih =>
    unfold runSteps at h
    split at h
    · cases h
    · exact ih h

/-- The name of a temporary file that could not be removed. -/
def Leftover (o : Faults) (n : Str) : Prop := ∃ r d, n = o.tempName r d ∧ o.fails .drop r ≠ none

/-- The file of this name is what it was, or one that could not be removed. -/
def SameAt (o : Faults) (n : Str) (dir dir' : Dir) : Prop :=
  dir'.lookup n = dir.lookup n ∨ (dir.lookup n = none ∧ Leftover o n)

theorem SameAt.refl {n : Str} : SameAt o n dir dir := .inl rfl

theorem SameAt.trans {n : Str} {dir' dir'' : Dir} (h : SameAt o n dir dir') (h' : SameAt o n dir' dir'') :
    SameAt o n dir dir'' := by
  rcases h' with h' | ⟨hnone, hleft⟩
  · exact h.imp_left h'.trans
  · rcases h with h | h
    · exact .inr ⟨h ▸ hnone, hleft⟩
    · exact .inr h

/-- A file with no temporary name is what it was. -/
theorem SameAt.lasting {n : Str} {dir' : Dir} (h : SameAt o n dir dir') (hn : Str.startsWith n tempStart = false) :
    dir'.lookup n = dir.lookup n := by
  refine h.resolve_right fun ⟨_, r, d, he, _⟩ => ?_
  rw [he, o.tempName_temp] at hn
  cases hn

/-- A temporary file that has been dropped is gone, or a leftover. -/
theorem dropTemp_same {r : Role} {tmp : Str} {f : RegularFile} {dir₀ dir' : Dir} (htmp : tmp = o.tempName r dir₀)
    (hnew : dir.lookup tmp = none) (h : ∀ n, SameAt o n (dir.insert tmp f) dir') (n : Str) :
    SameAt o n dir (dropTemp o r tmp dir') := by
  unfold dropTemp
  by_cases hn : n = tmp
  · subst hn
    cases hdrop : o.fails .drop r with
    | none => exact .inl ((Finmap.lookup_erase ..).trans hnew.symm)
    | some e => exact .inr ⟨hnew, r, dir₀, htmp, by simp [hdrop]⟩
  · have hsame : SameAt o n dir dir' := by
      have := h n
      rwa [SameAt, Finmap.lookup_insert_of_ne _ hn] at this
    cases o.fails .drop r with
    | none => exact hsame.trans (.inl (Finmap.lookup_erase_ne hn))
    | some e => exact hsame

/-- A temporary file that is not finished is dropped. -/
theorem stage_error {r : Role} {steps : List TempStep} {e : TempFailure} {dir' : Dir}
    (h : stage o r steps dir = (.error e, dir')) (n : Str) : SameAt o n dir dir' := by
  unfold stage at h
  split at h
  · cases h
    exact .refl
  · extract_lets tmp at h
    split at h
    · cases h
      exact dropTemp_same rfl (o.tempName_new r dir) (fun _ => .refl) n
    · cases h

theorem stage_ok {r : Role} {steps : List TempStep} {tmp : Str} {dir' : Dir}
    (h : stage o r steps dir = (.ok tmp, dir')) : tmp = o.tempName r dir ∧
      dir' = dir.insert tmp (steps.foldl TempStep.apply { bytes := [], mode := 0o600 }) := by
  unfold stage at h
  split at h
  · cases h
  · extract_lets name at h
    split at h
    · cases h
    · rename_i f hrun
      rw [Prod.mk.injEq, Except.ok.injEq] at h
      rw [← h.2, ← h.1, runSteps_ok hrun]
      exact ⟨rfl, rfl⟩

theorem persist_error {r : Role} {tmp target : Str} {f : RegularFile} {e : Errno} {dir' : Dir}
    (htmp : dir.lookup tmp = some f) (h : persist o r tmp target dir = (.error e, dir')) :
    dir' = dropTemp o r tmp dir := by
  unfold persist at h
  split at h
  · cases h
    rfl
  · rw [htmp] at h
    simp only at h
    split at h
    · cases h
      rfl
    · cases h

theorem persist_ok {r : Role} {tmp target : Str} {f : RegularFile} {dir' : Dir}
    (htmp : dir.lookup tmp = some f) (h : persist o r tmp target dir = (.ok (), dir')) :
    dir' = (dir.erase tmp).insert target f := by
  unfold persist at h
  split at h
  · cases h
  · rw [htmp] at h
    simp only at h
    split at h
    · cases h
    · cases h
      rfl

theorem chattrOp_visible {n : Str} : ∀ {targets : List (Role × Str)} {dir : Dir},
    visible ((chattrOp o targets dir).2.lookup n) = visible (dir.lookup n)
  | [], _ => rfl
  | (r, name) :: targets, dir => by
    unfold chattrOp
    split
    · exact chattrOp_visible
    · rw [chattrOp_visible]
      split
      · rfl
      · rename_i f hfile
        by_cases hn : n = name
        · rw [hn, Finmap.lookup_insert, hfile]
          rfl
        · rw [Finmap.lookup_insert_of_ne _ hn]

theorem chattrOp_other {n : Str} : ∀ {targets : List (Role × Str)} {dir : Dir}, n ∉ targets.map Prod.snd →
    (chattrOp o targets dir).2.lookup n = dir.lookup n
  | [], _, _ => rfl
  | (r, name) :: targets, dir, h => by
    simp only [List.map_cons, List.mem_cons, not_or] at h
    unfold chattrOp
    split
    · exact chattrOp_other h.2
    · rw [chattrOp_other h.2]
      split
      · rfl
      · rw [Finmap.lookup_insert_of_ne _ h.1]

/-! ## The rollback -/

theorem Destination.sigName_lasting (dest : Destination) : Str.startsWith dest.sigName tempStart = false := by
  have h := dest.lasting
  have hne := dest.isName.ne_nil
  unfold sigName
  revert h hne
  generalize dest.name = name
  -- up to four letters, the dot of the suffix is where a temporary name has another letter
  match name with
  | [] | [_] | [_, _] | [_, _, _] | _ :: _ :: _ :: _ :: _ => simp [Str.startsWith, tempStart, List.isPrefixOf]

theorem Destination.sigName_ne_name (dest : Destination) : dest.sigName ≠ dest.name := fun h => by
  have := congrArg List.length h
  simp [sigName] at this

theorem ne_of_temp {tmp name : Str} (htmp : Str.startsWith tmp tempStart = true)
    (hname : Str.startsWith name tempStart = false) : tmp ≠ name := fun h => by
  rw [h, hname] at htmp
  cases htmp

theorem runSteps_works {r : Role} (h : ∀ call, o.fails call r = none) : ∀ {steps : List TempStep} {f : RegularFile},
    runSteps o r steps f = (.ok (), steps.foldl TempStep.apply f)
  | [], _ => rfl
  | step :: steps, f => by
    unfold runSteps
    rw [h]
    exact runSteps_works h

theorem stage_works {r : Role} (h : ∀ call, o.fails call r = none) (steps : List TempStep) (dir : Dir) :
    stage o r steps dir = (.ok (o.tempName r dir),
      dir.insert (o.tempName r dir) (steps.foldl TempStep.apply { bytes := [], mode := 0o600 })) := by
  unfold stage
  rw [h]
  simp only [runSteps_works h]

theorem persist_works {r : Role} (h : ∀ call, o.fails call r = none) {tmp target : Str} {f : RegularFile}
    (htmp : dir.lookup tmp = some f) (htarget : (dir.lookup target).any (·.immutable) = false) :
    persist o r tmp target dir = (.ok (), (dir.erase tmp).insert target f) := by
  unfold persist
  rw [h, htmp]
  simp only [htarget, Bool.false_eq_true, if_false]

theorem permissions_masked (f : RegularFile) (bytes : Bytes) :
    ({ bytes, mode := f.permissions } : RegularFile).permissions = f.permissions := by
  unfold RegularFile.permissions
  exact (Nat.and_assoc ..).trans (congrArg (f.mode &&& ·) (Nat.and_self _))

/-- The rollback touches no other file, whatever fails in it. -/
theorem restoreSignature_others {previousSig : Option Bytes} {previousSigMode : Option Nat} {wasImmutable : Bool}
    {back : Except Str Unit × Dir}
    (h : restoreSignature o dest previousSig previousSigMode wasImmutable dir = back) (n : Str) (hn : n ≠ dest.sigName) :
    SameAt o n dir back.2 := by
  subst h
  unfold restoreSignature
  split
  · exact .refl
  cases previousSig with
  | none =>
    simp only
    split
    · exact .refl
    · exact .refl
    · exact .inl (Finmap.lookup_erase_ne hn)
  | some bytes =>
    simp only
    split
    · rename_i hstage
      exact stage_error hstage n
    · rename_i hstage
      exact stage_error hstage n
    rename_i tmp dirTmp hstage
    obtain ⟨htmp, rfl⟩ := stage_ok hstage
    have hnew : dir.lookup tmp = none := htmp ▸ o.tempName_new .oldSig dir
    split
    · rename_i hpersist
      rw [persist_error (Finmap.lookup_insert dir) hpersist]
      exact dropTemp_same htmp hnew (fun _ => .refl) n
    rename_i hpersist
    rw [persist_ok (Finmap.lookup_insert dir) hpersist, erase_insert_new hnew]
    cases wasImmutable with
    | false => exact .inl (Finmap.lookup_insert_of_ne _ hn)
    | true =>
      have hother : ∀ {d : Dir}, (chattrOp o [(.oldSig, dest.sigName)] d).2.lookup n = d.lookup n :=
        chattrOp_other (by simpa using hn)
      simp only [if_true]
      split <;> rename_i hchattr
      all_goals
        refine .inl ((congrArg (·.2.lookup n) hchattr).symm.trans (hother.trans ?_))
        exact Finmap.lookup_insert_of_ne _ hn

/-- The signature is put back as it was. -/
theorem restoreSignature_restores (hworks : o.RollbackWorks) {old : Option RegularFile} {wasImmutable : Bool}
    (hsig : (dir.lookup dest.sigName).any (·.immutable) = false) :
    visible ((restoreSignature o dest (old.map RegularFile.bytes) (old.map RegularFile.permissions) wasImmutable
      dir).2.lookup dest.sigName) = visible old := by
  unfold restoreSignature
  rw [hworks.refusal]
  cases old with
  | none =>
    rw [hworks.fails]
    cases hlookup : dir.lookup dest.sigName with
    | none => exact congrArg visible hlookup
    | some f => exact congrArg visible (Finmap.lookup_erase ..)
  | some f =>
    have hne : o.tempName .oldSig dir ≠ dest.sigName :=
      ne_of_temp (o.tempName_temp .oldSig dir) dest.sigName_lasting
    simp only [Option.map_some, Option.getD_some, stage_works hworks.fails]
    rw [persist_works hworks.fails (Finmap.lookup_insert dir)
      (by rwa [Finmap.lookup_insert_of_ne _ hne.symm]), erase_insert_new (o.tempName_new .oldSig dir)]
    have hvisible : visible (some ({ bytes := f.bytes, mode := f.permissions } : RegularFile)) = visible (some f) :=
      congrArg (fun p => some (f.bytes, p)) (permissions_masked f f.bytes)
    cases wasImmutable with
    | false => exact (congrArg visible (Finmap.lookup_insert _)).trans hvisible
    | true =>
      simp only [if_true, chattrOp, hworks.chattr, Finmap.lookup_insert, Finmap.insert_insert]
      exact hvisible

/-! ## The pair -/

/-- The policy and the signature of a directory. -/
def Destination.pair (dest : Destination) (dir : Dir) : Option (Bytes × Nat) × Option (Bytes × Nat) :=
  (visible (dir.lookup dest.name), visible (dir.lookup dest.sigName))

/-- The permission bits a file gets that takes the place of `old`. -/
def inheritedMode (old : Option RegularFile) : Nat := (old.map RegularFile.permissions).getD defaultPolicyMode

/-- The pair of an update. -/
def Destination.newPair (dest : Destination) (policyBytes sigBytes : Bytes) (dir : Dir) :
    Option (Bytes × Nat) × Option (Bytes × Nat) :=
  (some (policyBytes, inheritedMode (dir.lookup dest.name)), some (sigBytes, inheritedMode (dir.lookup dest.sigName)))

/-- What an update leaves of `dir`: its policy, with the signature wherever the
rollback works, or the new pair; and everything else. -/
structure Leaves (o : Faults) (dest : Destination) (policyBytes sigBytes : Bytes) (dir : Dir)
    (result : Except Str Unit) (dir' : Dir) : Prop where
  pair : (result ≠ .ok () ∧ visible (dir'.lookup dest.name) = visible (dir.lookup dest.name) ∧
      (o.RollbackWorks → visible (dir'.lookup dest.sigName) = visible (dir.lookup dest.sigName))) ∨
    dest.pair dir' = dest.newPair policyBytes sigBytes dir
  others (n : Str) : n ≠ dest.name → n ≠ dest.sigName → SameAt o n dir dir'

theorem Leaves.unchanged {policyBytes sigBytes : Bytes} {msg : Str} {dir' : Dir} (h : ∀ n, SameAt o n dir dir') :
    Leaves o dest policyBytes sigBytes dir (.error msg) dir' :=
  ⟨.inl ⟨by simp, congrArg visible ((h _).lasting dest.lasting),
    fun _ => congrArg visible ((h _).lasting dest.sigName_lasting)⟩, fun n _ _ => h n⟩

theorem Destination.pair_ext {pair : Option (Bytes × Nat) × Option (Bytes × Nat)}
    (hpolicy : visible (dir.lookup dest.name) = pair.1) (hsig : visible (dir.lookup dest.sigName) = pair.2) :
    dest.pair dir = pair :=
  Prod.ext hpolicy hsig

theorem permissions_inherited (old : Option RegularFile) (bytes : Bytes) :
    visible (some { bytes, mode := inheritedMode old }) = some (bytes, inheritedMode old) := by
  cases old with
  | none => exact congrArg (fun p => some (bytes, p)) (show 0o600 &&& 0o777 = 0o600 by decide)
  | some f => exact congrArg (fun p => some (bytes, p)) (permissions_masked f bytes)

/-- With the new signature in its place and the new policy beside its own, either
the policy is renamed too or the signature goes back. -/
theorem rollback_leaves {prior : Prior} {policyBytes sigBytes : Bytes} {tmp : Str}
    {dir₀ dir' : Dir} {result : Except Str Unit} (hprior : readPrior o dest dir = .ok prior)
    (hnew : dir.lookup tmp = none) (htemp : tmp = o.tempName .policy dir₀)
    (h : runWithSignatureRollback o dest prior (policyStep o dest tmp)
      ((dir.insert tmp { bytes := policyBytes, mode := inheritedMode (dir.lookup dest.name) }).insert dest.sigName
        { bytes := sigBytes, mode := inheritedMode (dir.lookup dest.sigName) }) = (result, dir')) :
    Leaves o dest policyBytes sigBytes dir result dir' := by
  have hneSig : tmp ≠ dest.sigName := ne_of_temp (htemp ▸ o.tempName_temp .policy dir₀) dest.sigName_lasting
  have hne := dest.sigName_ne_name
  rw [← Finmap.insert_insert_of_ne _ hneSig.symm] at h
  generalize hput : dir.insert dest.sigName _ = put at h
  have hputSig : put.lookup dest.sigName =
      some { bytes := sigBytes, mode := inheritedMode (dir.lookup dest.sigName) } := by rw [← hput, Finmap.lookup_insert]
  have hputOther : ∀ n, n ≠ dest.sigName → put.lookup n = dir.lookup n := by
    intro n hn
    rw [← hput, Finmap.lookup_insert_of_ne _ hn]
  have hputNew : put.lookup tmp = none := by rw [hputOther tmp hneSig, hnew]
  obtain ⟨hprevSig, hsigMode, -⟩ := readPrior_ok hprior
  unfold runWithSignatureRollback policyStep at h
  rcases hpersist : persist o .policy tmp dest.name
      (put.insert tmp { bytes := policyBytes, mode := inheritedMode (dir.lookup dest.name) }) with ⟨e | _, after⟩
  · -- the policy stays, and so must the signature
    simp only [hpersist] at h
    have hafter : ∀ n, SameAt o n put after := by
      rw [persist_error (Finmap.lookup_insert put) hpersist]
      exact dropTemp_same htemp hputNew fun _ => .refl
    have hafterSig := ((hafter _).lasting dest.sigName_lasting).trans hputSig
    rw [hprevSig, hsigMode] at h
    generalize hback : restoreSignature o dest _ _ _ _ = back at h
    have hothers : ∀ n, n ≠ dest.sigName → SameAt o n dir back.2 := by
      intro n hn
      have hsame := (hafter n).trans (restoreSignature_others hback n hn)
      rwa [SameAt, hputOther n hn] at hsame
    have hresult : result ≠ .ok () ∧ dir' = back.2 := by
      split at h <;> cases h <;> simp
    obtain ⟨hne_ok, rfl⟩ := hresult
    refine ⟨.inl ⟨hne_ok, ?_, fun hworks => ?_⟩, fun n _ hn => hothers n hn⟩
    · exact congrArg visible ((hothers _ hne.symm).lasting dest.lasting)
    · rw [← hback]
      exact restoreSignature_restores hworks (by rw [hafterSig]; rfl)
  · simp only [hpersist] at h
    have hafter := persist_ok (Finmap.lookup_insert put) hpersist
    rw [erase_insert_new hputNew] at hafter
    cases h
    subst hafter
    refine ⟨.inr (Destination.pair_ext ?_ ?_), fun n hn hnSig => .inl ?_⟩
    · rw [Finmap.lookup_insert]
      exact permissions_inherited ..
    · rw [Finmap.lookup_insert_of_ne _ hne, hputSig]
      exact permissions_inherited ..
    · rw [Finmap.lookup_insert_of_ne _ hn, hputOther n hnSig]

/-- Making the new files immutable changes nothing of the pair. -/
theorem restoreImmutable_leaves {prior : Prior} {policyBytes sigBytes : Bytes} {mid dir' : Dir}
    {result : Except Str Unit} (hmid : Leaves o dest policyBytes sigBytes dir (.ok ()) mid)
    (h : restoreImmutableIfNeeded o dest prior mid = (result, dir')) :
    Leaves o dest policyBytes sigBytes dir result dir' := by
  unfold restoreImmutableIfNeeded at h
  extract_lets targets at h
  have hnames : ∀ n, n ≠ dest.name → n ≠ dest.sigName → n ∉ targets.map Prod.snd := by
    intro n hn hnSig hmem
    obtain ⟨⟨r, name⟩, htarget, rfl⟩ := List.mem_map.mp hmem
    rcases List.mem_append.mp htarget with ht | ht
    · split at ht <;> simp_all
    · split at ht <;> simp_all
  have hdir : dir' = (chattrOp o targets mid).2 := by
    split at h
    · rename_i hchattr
      cases h
      rw [hchattr]
    · rename_i hchattr
      cases h
      rw [hchattr]
  subst hdir
  have hpair : dest.pair mid = dest.newPair policyBytes sigBytes dir := hmid.pair.resolve_left fun hold => hold.1 rfl
  refine ⟨.inr ?_, fun n hn hnSig => ?_⟩
  · rw [← hpair]
    exact Destination.pair_ext chattrOp_visible chattrOp_visible
  · exact (hmid.others n hn hnSig).trans (.inl (chattrOp_other (hnames n hn hnSig)))

theorem installUpdate_leaves {policyBytes sigBytes : Bytes} {dir' : Dir} {result : Except Str Unit}
    (h : installUpdate o dest policyBytes sigBytes dir = (result, dir')) :
    Leaves o dest policyBytes sigBytes dir result dir' := by
  unfold installUpdate at h
  split at h
  · cases h
    exact .unchanged fun _ => .refl
  split at h
  · cases h
    exact .unchanged fun _ => .refl
  rename_i prior hprior
  obtain ⟨-, hsigMode, hpolicyMode⟩ := readPrior_ok hprior
  split at h
  · rename_i hstage
    cases h
    exact .unchanged (stage_error hstage)
  rename_i tmpSig dirSig hstageSig
  obtain ⟨htempSig, hdirSig⟩ := stage_ok hstageSig
  have hnewSig : dir.lookup tmpSig = none := htempSig ▸ o.tempName_new .sig dir
  split at h
  · rename_i hstage
    cases h
    exact .unchanged (dropTemp_same htempSig hnewSig (hdirSig ▸ stage_error hstage))
  rename_i tmpPolicy dirPolicy hstagePolicy
  obtain ⟨htempPolicy, hdirPolicy⟩ := stage_ok hstagePolicy
  have hnewPolicy : dirSig.lookup tmpPolicy = none := htempPolicy ▸ o.tempName_new .policy dirSig
  have hneTemp : tmpPolicy ≠ tmpSig := fun he => by
    rw [he, hdirSig, Finmap.lookup_insert] at hnewPolicy
    cases hnewPolicy
  have hfree : dir.lookup tmpPolicy = none := by
    rwa [hdirSig, Finmap.lookup_insert_of_ne _ hneTemp] at hnewPolicy
  -- both files are staged, and the signature is renamed or dropped
  rw [hdirSig, Finmap.insert_insert_of_ne _ hneTemp.symm] at hdirPolicy
  have hlookup := hdirPolicy ▸ Finmap.lookup_insert (dir.insert tmpPolicy _)
  have hnewSig' : (dir.insert tmpPolicy ([.writeAll policyBytes, .syncAll,
      .applyMode (prior.policyMode.getD defaultPolicyMode)].foldl TempStep.apply { bytes := [], mode := 0o600 })).lookup
        tmpSig = none := by rwa [Finmap.lookup_insert_of_ne _ hneTemp.symm]
  split at h
  · rename_i hpersist
    cases h
    rw [persist_error hlookup hpersist, hdirPolicy]
    exact .unchanged (dropTemp_same htempPolicy hfree (dropTemp_same htempSig hnewSig' fun _ => .refl))
  rename_i dirSwap hpersist
  rw [persist_ok hlookup hpersist, hdirPolicy, erase_insert_new hnewSig', hpolicyMode, hsigMode] at h
  split at h
  · rename_i hrollback
    cases h
    exact rollback_leaves hprior hfree htempPolicy hrollback
  · rename_i hrollback
    exact restoreImmutable_leaves (rollback_leaves hprior hfree htempPolicy hrollback) h

/-- **As long as the rollback works, an update leaves the old pair or the new one,
the new one where it returns `Ok`, and every other file as it was,** but for
temporary files that could not be removed. -/
theorem installUpdate_atomic (hworks : o.RollbackWorks) {policyBytes sigBytes : Bytes} {dir' : Dir}
    {result : Except Str Unit} (h : installUpdate o dest policyBytes sigBytes dir = (result, dir')) :
    (dest.pair dir' = dest.pair dir ∧ result ≠ .ok () ∨ dest.pair dir' = dest.newPair policyBytes sigBytes dir) ∧
      ∀ n, n ≠ dest.name → n ≠ dest.sigName → SameAt o n dir dir' := by
  obtain ⟨hpair, hothers⟩ := installUpdate_leaves h
  refine ⟨hpair.imp_left fun hold => ?_, hothers⟩
  exact ⟨Destination.pair_ext hold.2.1 (hold.2.2 hworks), hold.1⟩

/-- A temporary name longer than every name of the directory. -/
def freshName (dir : Dir) : Str := tempStart ++ List.replicate (dir.keys.sup List.length) 'a'

theorem freshName_new (dir : Dir) : dir.lookup (freshName dir) = none := by
  rw [Finmap.lookup_eq_none, ← Finmap.mem_keys]
  intro hmem
  have hle : (freshName dir).length ≤ dir.keys.sup List.length := Finset.le_sup hmem
  have hlen : (freshName dir).length = 4 + dir.keys.sup List.length := by
    rw [freshName, List.length_append, List.length_replicate]
    rfl
  omega

/-- A run in which nothing fails. -/
def noFaults : Faults where
  fails _ _ := none
  found _ _ := by simp
  refusal _ := none
  parentFd := 3
  written _ := 0
  chattr _ := none
  tempName _ := freshName
  tempName_new _ := freshName_new
  tempName_temp _ _ := by simp [Str.startsWith, freshName, tempStart, List.isPrefixOf]

/-- A run in which only the renaming of the policy fails. -/
def policyRefused : Faults where
  __ := noFaults
  fails call r := if call = .persist ∧ r = .policy then some .EACCES else none
  found call r := by split <;> simp

def etcPolicy : Destination where
  parent := "/etc/secure-sudoers"
  name := "policy.json"
  absolute := by decide
  isName := by decide
  lasting := by decide

def etcDir : Dir :=
  (Finmap.singleton etcPolicy.name { bytes := [123, 125], mode := 0o640 }).insert etcPolicy.sigName
    { bytes := [7], mode := 0o644 }

theorem installUpdate_atomic_rolledBack :
    let update := installUpdate policyRefused etcPolicy [91, 93] [9] etcDir
    (etcPolicy.pair update.2 = etcPolicy.pair etcDir ∧ update.1 ≠ .ok () ∨
      etcPolicy.pair update.2 = etcPolicy.newPair [91, 93] [9] etcDir) ∧
      ∀ n, n ≠ etcPolicy.name → n ≠ etcPolicy.sigName → SameAt policyRefused n etcDir update.2 :=
  installUpdate_atomic ⟨fun _ => if_neg (by simp), rfl, rfl⟩ (Prod.eta _).symm

/-- A run in a directory where files can be made, and neither renamed nor removed. -/
def appendOnly : Faults where
  __ := noFaults
  fails call r := if (call = .persist ∨ call = .drop) ∧ r ≠ .oldSig then some EPERM else none
  found call r := by split <;> simp [EPERM]

/-- There the temporary files stay. -/
theorem installUpdate_litters :
    ¬∀ (o : Faults) (dest : Destination) (policyBytes sigBytes : Bytes) (dir dir' : Dir) (result : Except Str Unit),
      o.RollbackWorks → installUpdate o dest policyBytes sigBytes dir = (result, dir') →
      (dest.pair dir' = dest.pair dir ∧ result ≠ .ok () ∨ dest.pair dir' = dest.newPair policyBytes sigBytes dir) ∧
        ∀ n, n ≠ dest.name → n ≠ dest.sigName → dir'.lookup n = dir.lookup n := by
  intro h
  have hworks : appendOnly.RollbackWorks := ⟨fun _ => if_neg (by simp), rfl, rfl⟩
  have hsame := (h appendOnly etcPolicy [91, 93] [9] etcDir _ _ hworks (Prod.eta _).symm).2 (freshName etcDir)
    (by decide +kernel) (by decide +kernel)
  have hstays : ((installUpdate appendOnly etcPolicy [91, 93] [9] etcDir).2.lookup (freshName etcDir)).isSome = true := by
    decide +kernel
  rw [hsame, freshName_new] at hstays
  cases hstays

end SecureSudoers
