/-
The isolation of a command (`isolation.rs`, `isolation/mounts.rs`): a mount
namespace of its own, private directories, masks over the blocked paths,
read-only binds, and the pins of the paths of the command.

Every mount is made on the location of a descriptor that has just been compared
with the path.
-/
import SecureSudoers.MountNamespace

namespace SecureSudoers

variable (k : Kernel)

/-- `mount` with the error `Error::Io`. -/
def mountIo (st : MountNs) (purpose : Purpose) (call : MountCall) : Except Error MountNs :=
  (st.mount k purpose call).mapError .io

/-- `mount` with an error that says what failed. -/
def mountContext (st : MountNs) (purpose : Purpose) (call : MountCall) (context : Str) : Except Error MountNs :=
  (st.mount k purpose call).mapError (.ioContext context)

/-- The namespaces a command gets, in the order the flags are displayed. -/
def cloneFlags (settings : IsolationSettings) : List CloneFlag :=
  [.CLONE_NEWNS] ++ (if settings.unshareUts then [.CLONE_NEWUTS] else []) ++
    (if settings.unshareIpc then [.CLONE_NEWIPC] else []) ++ (if settings.unsharePid then [.CLONE_NEWPID] else []) ++
    (if settings.unshareNetwork then [.CLONE_NEWNET] else [])

def CloneFlag.display : CloneFlag → Str
  | .CLONE_NEWNS => "CLONE_NEWNS"
  | .CLONE_NEWUTS => "CLONE_NEWUTS"
  | .CLONE_NEWIPC => "CLONE_NEWIPC"
  | .CLONE_NEWPID => "CLONE_NEWPID"
  | .CLONE_NEWNET => "CLONE_NEWNET"

def unshareNamespaces (settings : IsolationSettings) : Except Error Unit :=
  let flags := cloneFlags settings
  match k.unshare flags with
  | none => .ok ()
  | some e => .error (.ioContext ("unshare(CloneFlags(" ++
      List.intercalate (" | " : Str) (flags.map CloneFlag.display) ++ ")) failed") e)

def makeRootPrivate (st : MountNs) : Except Error MountNs :=
  mountContext k st .host { target := [], flags := { isPrivate := true, recursive := true } }
    "remount '/' as MS_PRIVATE|MS_REC failed"

def applyPrivateMounts : List Str → MountNs → Except Error MountNs
  | [], st => .ok st
  | pathStr :: rest, st => do
    let fd ← openPath st.fs pathStr
    ensurePathMatchesFd st.fs pathStr (st.fs.stat fd)
    let st ← mountIo k st .privateMount { source := .tmpfs, target := fd }
    applyPrivateMounts rest st

/-- `mount_shadow_fd`: a tmpfs over a directory, `/dev/null` over anything else. -/
def mountShadowFd (st : MountNs) (fd : List Bytes) (originalPath : Str) : Except Error MountNs := do
  ensurePathMatchesFd st.fs originalPath (st.fs.stat fd)
  if st.fs.kind fd = .dir then
    mountContext k st .blockedPath { source := .tmpfs, target := fd }
      ("Security failure: tmpfs mount on blocked dir '" ++ originalPath ++ "' failed")
  else
    mountContext k st .blockedPath { source := .devNull, target := fd, flags := { bind := true } }
      ("Security failure: bind mount /dev/null on blocked file '" ++ originalPath ++ "' failed")

def applyBlockedPaths : List Str → MountNs → Except Error MountNs
  | [], st => .ok st
  | pathStr :: rest, st => do
    let (st, fd) ← safeTraverse MountNs.fs (MountNs.make k) st pathStr true
    let st ← mountShadowFd k st fd pathStr
    applyBlockedPaths rest st

def applyReadonlyMounts : List Str → MountNs → Except Error MountNs
  | [], st => .ok st
  | pathStr :: rest, st => do
    let fd ← openPath st.fs pathStr
    let initialStat := st.fs.stat fd
    ensurePathMatchesFd st.fs pathStr initialStat
    let st ← mountIo k st .readonlyMount { source := .fd fd, target := fd, flags := { bind := true } }
    let remountFd ← openPath st.fs pathStr
    let remountStat := st.fs.stat remountFd
    ensurePathMatchesFd st.fs pathStr remountStat
    if initialStat.dev ≠ remountStat.dev ∨ initialStat.ino ≠ remountStat.ino then
      .error (.security ("Security failure: path '" ++ pathStr ++ "' changed between bind and remount"))
    else
      let st ← mountIo k st .readonlyMount
        { target := remountFd, flags := { remount := true, bind := true, rdonly := true } }
      applyReadonlyMounts rest st

def setupIsolation (settings : IsolationSettings) (blockedPaths : List Str) (st : MountNs) : Except Error MountNs := do
  unshareNamespaces k settings
  let st ← makeRootPrivate k st
  let st ← applyPrivateMounts k settings.privateMounts st
  let st ← applyBlockedPaths k blockedPaths st
  applyReadonlyMounts k settings.readonlyMounts st

/-! ## Pins -/

def pinValidatedPathParent (parentPath : Str) (st : MountNs) : Except Error MountNs := do
  let parentFd ← openPath st.fs parentPath
  mountContext k st .pinnedParent
    { source := .fd parentFd, target := parentFd, flags := { bind := true, recursive := true } }
    ("Security failure: parent mountpoint lock failed for '" ++ parentPath ++ "'")

/-- `pin_path_at_fd`, with the `fstat` of the validated descriptor. -/
def pinPathAtFd (sourceStat : Stat) (canonicalPath : Str) (st : MountNs) : Except Error MountNs := do
  let targetFd ← openPath st.fs canonicalPath
  let targetStat := st.fs.stat targetFd
  if sourceStat.dev ≠ targetStat.dev ∨ sourceStat.ino ≠ targetStat.ino then
    .error (.security ("Security failure: path '" ++ canonicalPath ++ "' no longer matches the validated argument"))
  else
    let st ← mountContext k st .pinnedPath { source := .fd targetFd, target := targetFd, flags := { bind := true } }
      ("Security failure: bind-mount pinning failed for '" ++ canonicalPath ++ "'")
    ensurePathMatchesFd st.fs canonicalPath sourceStat
    .ok st

/-! ## What the calls do -/

variable {k : Kernel} {st st' : MountNs} {purpose : Purpose}

end SecureSudoers
