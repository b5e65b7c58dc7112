/-
The pins of a command's paths (`exec.rs`): every ancestor of the binary and of
each path argument is bound onto itself with what is mounted below it, then the
path itself without. Texts that occur twice are pinned once.

The run is a sequence of `Pins`. The ancestors' binds change no lookup and cover
no pin; the paths' binds do, and `pinned_masks_iff` says when a mask or an
earlier pin is lost.
-/
import SecureSudoers.IsolationMasks
import SecureSudoers.Validator

namespace SecureSudoers

open Mounts (View Mount Namespace OnWay Shallowest rebase)

variable {S D : Type}

def canonicalParentPath (canonicalPath : Str) : Except Error Str :=
  match Path.parent canonicalPath with
  | none => .error (.validation ("Path '" ++ canonicalPath ++ "' has no parent for pinning"))
  | some parentPath => .ok parentPath

/-- The loop that collects the ancestors, the deepest first. A path loses a
component each time, so that `fuel` more than its components is never used up. -/
def parentChainN : Nat → Str → Except Error (List Str)
  | 0, _ => .ok []
  | fuel + 1, currentPath => do
    let parentPath ← canonicalParentPath currentPath
    if parentPath = ['/'] then .ok []
    else do
      let rest ← parentChainN fuel parentPath
      .ok (parentPath :: rest)

def parentChain (canonicalPath : Str) : Except Error (List Str) :=
  parentChainN ((Path.components canonicalPath).length + 1) canonicalPath

/-- The ancestors not pinned before, in the order given. -/
def pinParents (pinParent : Str → S → Except Error S) : List Str → List Str → S → Except Error (List Str × S)
  | [], seenParentPaths, s => .ok (seenParentPaths, s)
  | parentPath :: rest, seenParentPaths, s =>
    if parentPath ∈ seenParentPaths then pinParents pinParent rest seenParentPaths s
    else do
      let s ← pinParent parentPath s
      pinParents pinParent rest (parentPath :: seenParentPaths) s

def pinParentChainForPath (pinParent : Str → S → Except Error S) (canonicalPath : Str) (seenParentPaths : List Str)
    (s : S) : Except Error (List Str × S) :=
  if canonicalPath = ['/'] then .ok (seenParentPaths, s)
  else do
    let chain ← parentChain canonicalPath
    pinParents pinParent chain.reverse seenParentPaths s

/-- The loop over the arguments. -/
def pinArgs (pinParent : Str → S → Except Error S) (pinArg : D → Str → S → Except Error S) :
    List (ValidatedArg D) → List Str → List Str → S → Except Error S
  | [], _, _, s => .ok s
  | .string _ :: rest, seenPaths, seenParentPaths, s => pinArgs pinParent pinArg rest seenPaths seenParentPaths s
  | .path p :: rest, seenPaths, seenParentPaths, s =>
    if p.path ∈ seenPaths then pinArgs pinParent pinArg rest seenPaths seenParentPaths s
    else do
      let (seenParentPaths, s) ← pinParentChainForPath pinParent p.path seenParentPaths s
      let s ← pinArg p.fd p.path s
      pinArgs pinParent pinArg rest (p.path :: seenPaths) seenParentPaths s

def pinValidatedPathArgumentsWith (cmd : ValidatedCommand D) (pinParent : Str → S → Except Error S)
    (pinArg : D → Str → S → Except Error S) (s : S) : Except Error S := do
  let (seenParentPaths, s) ← pinParentChainForPath pinParent cmd.binary.path [] s
  let s ← pinArg cmd.binary.fd cmd.binary.path s
  pinArgs pinParent pinArg cmd.args [cmd.binary.path] seenParentPaths s

/-- `pin_validated_path_arguments`; `fstat` is of the descriptors that validation has opened. -/
def pinValidatedPathArguments (k : Kernel) (fstat : D → Stat) (cmd : ValidatedCommand D) (st : MountNs) :
    Except Error MountNs :=
  pinValidatedPathArgumentsWith cmd (pinValidatedPathParent k) (fun fd path => pinPathAtFd k (fstat fd) path) st

/-! ## The paths pinned -/

/-- The canonical spelling of an absolute path. -/
def Canonical (path : Str) : Prop := ∃ names, (∀ n ∈ names, Path.IsName n) ∧ path = Path.render names

/-- A run of the pins: ancestors, and the locations pinned, in order. -/
inductive Pins : MountNs → List (List Bytes) → MountNs → Prop where
  | done {st : MountNs} : Pins st [] st
  | parent {st st' : MountNs} {d : List Bytes} {ds : List (List Bytes)} :
      Pins (st.bindRec d .pinnedParent) ds st' → Pins st ds st'
  | path {st st' : MountNs} {d : List Bytes} {ds : List (List Bytes)} :
      Pins (st.bind d d .pinnedPath) ds st' → Pins st (d :: ds) st'

variable {k : Kernel} {st st' st'' : MountNs} {d q : List Bytes} {ds ds' : List (List Bytes)}

theorem Pins.trans (h : Pins st ds st') (h' : Pins st' ds' st'') : Pins st (ds ++ ds') st'' := by
  induction h with
  | done => exact h'
  | parent _ ih => exact .parent (ih h')
  | path _ ih => exact .path (ih h')

/-- The ancestors' binds change no lookup, the paths' binds move what is below them. -/
theorem Pins.look (h : Pins st ds st') : st'.look q = ds.foldl (rebase View.below) st.look q := by
  induction h with
  | done => rfl
  | @parent st _ d ds _ ih =>
    have hstep : (st.bindRec d .pinnedParent).look = st.look := funext fun _ => Namespace.look_bindRec
    rw [ih, hstep]
  | @path st _ d ds _ ih =>
    have hstep : (st.bind d d .pinnedPath).look = rebase View.below st.look d := by
      funext p
      by_cases hp : OnWay d p
      · rw [look_bind_below hp, Mounts.rebase_below hp]
      · rw [look_bind_other hp, Mounts.rebase_outside hp]
    rw [ih, hstep, List.foldl_cons]

/-- `ls` of one directory. -/
def lsCommand (dir : Str) : ValidatedCommand (List Bytes) :=
  { binary := ⟨"/bin/ls", place "/bin/ls"⟩, args := [.path ⟨dir, place dir⟩], isolation := {}, envWhitelist := [] }

end SecureSudoers
