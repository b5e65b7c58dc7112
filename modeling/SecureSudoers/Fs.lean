/-
Path resolution (`fs.rs`): the walk over a path's components that holds one
descriptor and the text of where it should be, starts again at the root with a
rewritten path at every symlink, and checks the text against the blocked list
after each component it opens.

`openComponent` and `enter` are one iteration of the loop, before and after
the entry is open; `walk` is the loop; `resolveSecurely` recurses on the links
that may still be followed.
-/
import SecureSudoers.Models

namespace SecureSudoers

variable {D : Type}

def MAX_SYMLINK_DEPTH : Nat := 32

/-- Is `path` the blocked path, or below it? -/
def Covers (blocked path : Str) : Prop :=
  Path.components path = Path.components blocked ∨ Path.startsWith path blocked = true

instance {blocked path : Str} : Decidable (Covers blocked path) := inferInstanceAs (Decidable (_ ∨ _))

def checkBlocked (path : Str) : List Str → Except Error Unit
  | [] => .ok ()
  | blocked :: rest =>
    if Covers blocked path then
      .error (.validation ("Access to blocked path '" ++ path ++ "' is denied"))
    else checkBlocked path rest

/-- The name a component is opened by, and whether it is a normal one; other
components are skipped. -/
def Component.opened? : Component → Option (Str × Bool)
  | .normal s => some (s, true)
  | .parentDir => some (['.', '.'], false)
  | .curDir | .rootDir => none

/-- `CString::new` and `openat` of one component. -/
def openComponent (fs : FileSystem D) (path : Str) (currentFd : D) (compStr : Str) : Except Error D :=
  if '\x00' ∈ compStr then .error (.system "Nul byte in component")
  else match fs.openat currentFd (Utf8.encode compStr) with
    | .ok fd => .ok fd
    | .error e => .error (.ioContext
        ("Security failure: cannot open component '" ++ compStr ++ "' of '" ++ path ++ "'") e)

def readLinkFromFd (fs : FileSystem D) (linkFd : D) : Except Error Str :=
  match fs.kind linkFd with
  | .symlink t =>
    -- the buffer holds `PATH_MAX` octets; a longer target is cut there
    if PATH_MAX ≤ t.length then .error (.security "Symlink target too long")
    else match Utf8.decode? t with
      | some s => .ok s
      | none => .error (.parse "Invalid UTF-8 in symlink")
  | _ => .error (.ioContext "readlinkat on opened symlink failed" .EINVAL)

/-- Does `fstat` say that the opened entry is a symlink? -/
def FileSystem.isSymlink (fs : FileSystem D) (fd : D) : Bool :=
  match fs.kind fd with
  | .symlink _ => true
  | _ => false

/-- The path a symlink restarts the walk with: its target, from the directory
it is in when relative, and the components that were left. -/
def rewritten (currentCanonical linkTarget : Str) (remaining : List Component) : Str :=
  let newPath := if Path.isAbsolute linkTarget then linkTarget else Path.push currentCanonical linkTarget
  remaining.foldl (fun p rem => Path.push p rem.asOsStr) newPath

/-- The text of the current directory after a component that is no symlink. -/
def advance (currentCanonical compStr : Str) (isNormal : Bool) : Str :=
  if isNormal then Path.push currentCanonical compStr else Path.pop currentCanonical

/-- The path read back from the descriptor the walk ends with. -/
def finish (fs : FileSystem D) (currentFd : D) : Except Error (SecurePath D) :=
  match fs.procSelfFd currentFd with
  | .ok canonicalPath => .ok { path := Utf8.lossy canonicalPath, fd := currentFd }
  | .error e => .error (.ioContext ("Security failure: cannot read magic symlink '/proc/self/fd/" ++
      Nat.toDigits 10 (fs.fdNumber currentFd) ++ "' to get canonical path") e)

/-- The loop over the components. `again` follows a symlink's new path; there
is none once `MAX_SYMLINK_DEPTH` links have been followed. -/
def walk (fs : FileSystem D) (blockedPaths : List Str) (path : Str)
    (again : Option (Str → Except Error (SecurePath D))) :
    D → Str → List Component → Except Error (SecurePath D)
  | currentFd, _, [] => finish fs currentFd
  | currentFd, currentCanonical, comp :: rest =>
    match comp.opened? with
    | none => walk fs blockedPaths path again currentFd currentCanonical rest
    | some (compStr, isNormal) => do
      let fd ← openComponent fs path currentFd compStr
      if isNormal && fs.isSymlink fd then
        match again with
        | none => .error (.security "Security failure: too many symlinks")
        | some again => do
          let linkTarget ← readLinkFromFd fs fd
          again (rewritten currentCanonical linkTarget rest)
      else do
        let canonical := advance currentCanonical compStr isNormal
        checkBlocked canonical blockedPaths
        walk fs blockedPaths path again fd canonical rest

/-- `resolve_securely` when `left` more symlinks may be followed. -/
def resolveSecurely (fs : FileSystem D) (blockedPaths : List Str) (left : Nat) (path : Str) :
    Except Error (SecurePath D) :=
  let again := match left with
    | 0 => none
    | left + 1 => some (resolveSecurely fs blockedPaths left)
  walk fs blockedPaths path again fs.root ['/'] ((Path.components path).drop 1)

def checkPath (fs : FileSystem D) (arg : Str) (_context : ValidationContext) (blockedPaths : List Str) :
    Except Error (SecurePath D) :=
  if Path.isAbsolute arg then resolveSecurely fs blockedPaths MAX_SYMLINK_DEPTH arg
  else .error (.security ("Security failure: path must be absolute: " ++ arg))

end SecureSudoers
