/-
The installation on a file system with its inodes: what `install_with_paths`
leaves there, the drop-in and the flags included (`installer.rs`,
`sudoers_io.rs`).

The links are those of `installToolLinksTo`; the drop-in is written beside its
place and renamed over what is there, which may be any file. The guard that
removes the temporary file is armed before it is created.
-/
import SecureSudoers.Immutable
import SecureSudoers.Install

namespace SecureSudoers

/-! ## What a run depends on -/

/-- What a command prints and whether it succeeded. -/
structure Output where
  success : Bool
  stdout : Bytes
  stderr : Bytes

/-- What is done with the new file of the drop-in. -/
inductive DropInCall where
  | create
  | setPermissions
  | writeAll
  | syncAll
  deriving DecidableEq, Repr

/-- An entry of a directory as `read_dir` gives it. -/
structure DirEntry where
  name : Bytes
  fileType : Except Errno Kind

/-- What a run depends on, besides the storage it changes. -/
structure Machine where
  refusals : Refusals
  files : FileRefusals
  cwd : List Bytes
  euid : Nat
  loadVerifyingKey : Storage → Str → Except Error Bytes
  verify (key message sig : Bytes) : Except Str Unit
  fromSlice : Bytes → Except Str SecureSudoersPolicy
  regexNew : Str → Option Regex
  /-- The inode a new file gets. -/
  newInode : Storage → ExecutableIdentity
  dropIn : DropInCall → Option Errno
  /-- How much a write that fails has written. -/
  written : Nat
  /-- `visudo -c -f` at a path, on a file that holds this. -/
  visudo : Str → Bytes → Except Errno Output
  readDir : Storage → Str → Except Errno (List (Except Errno DirEntry))

namespace Storage

/-- What a path leads to, over links. -/
def opened (m : Machine) (st : Storage) (path : Bytes) : Except Errno Object :=
  match st.tree.fs.openPath m.cwd path with
  | .error e => .error e
  | .ok q =>
    match st.tree.object q with
    | none => .error .ENOENT
    | some o => .ok o

/-- `std::fs::read`. -/
def read (m : Machine) (st : Storage) (path : Str) : Except Errno Bytes :=
  if '\x00' ∈ path then .error .nulInPath
  else match m.files.fails st.tree (.read path) with
    | some e => .error e
    | none => do
      let o ← st.opened m (Utf8.encode path)
      if o.kind = .dir then .error EISDIR else .ok (st.content o.stat.identity)

end Storage

/-- What the machine is to `Install`, with `chattr_op` and the drop-in apart. -/
def Machine.host (m : Machine) (st : Storage) : InstallHost where
  refusals := st.guarded m.refusals
  euid := m.euid
  read := st.read m
  loadVerifyingKey := m.loadVerifyingKey st
  verify := m.verify
  fromSlice := m.fromSlice
  regexNew := m.regexNew
  writeSudoersFileTo _ _ := .ok ()
  chattr _ := none

/-! ## The drop-in -/

def visudoPaths : List Str := ["/usr/sbin/visudo", "/usr/bin/visudo"]

/-- The first of the commands that runs, or why those that are there do not. -/
def runVisudo (run : Str → Except Errno Output) : List Str → Except (List Str) Output
  | [] => .error []
  | path :: paths =>
    match run path with
    | .ok output => .ok output
    | .error .ENOENT => runVisudo run paths
    | .error e => (runVisudo run paths).mapError ((path ++ ": " ++ e.display) :: ·)

def visudoValidationFailedMessage (tempPath sudoersPath : Str) (output : Output) : Str :=
  let stderr := trim (Utf8.lossy output.stderr)
  let stdout := trim (Utf8.lossy output.stdout)
  let parts := (if stderr = [] then [] else ["stderr: " ++ stderr]) ++
    (if stdout = [] then [] else ["stdout: " ++ stdout])
  let commandOutput : Str := if parts = [] then "no command output" else List.intercalate "; " parts
  "visudo validation failed for temporary sudoers file " ++ tempPath ++ " (target " ++ sudoersPath ++ "): " ++ commandOutput

/-- Does visudo accept what the temporary file holds? -/
def checkWithVisudo (m : Machine) (content : Bytes) (tempPath sudoersPath : Str) : Except Error Unit :=
  match runVisudo (m.visudo · content) visudoPaths with
  | .error execErrors =>
    let reason : Str := if execErrors = [] then "command not found" else List.intercalate "; " execErrors
    .error (.system (
      "Cannot execute visudo from known paths (/usr/sbin/visudo, /usr/bin/visudo) while validating sudoers destination " ++
      sudoersPath ++ " for temporary file " ++ tempPath ++ ": " ++ reason))
  | .ok output =>
    if output.success then .ok ()
    else .error (.validation (visudoValidationFailedMessage tempPath sudoersPath output))

namespace Storage

/-- `create_new` in a directory. -/
def createNew (m : Machine) (st : Storage) (dir : List Bytes) (name : Str) (mode : Nat) : Except Errno Storage :=
  if '\x00' ∈ name then .error .nulInPath
  else match m.dropIn .create with
    | some e => .error e
    | none =>
      if st.tree.kindAt dir ≠ .dir then .error .ENOTDIR
      else if (st.tree.entry dir (Utf8.encode name)).isSome then .error .EEXIST
      else
        let inode := m.newInode st
        let o : Object := { Object.file inode.ino with stat := { dev := inode.dev, ino := inode.ino, uid := m.euid, mode } }
        .ok ((st.withTree (st.tree.set dir (Utf8.encode name) (some o))).write inode [])

/-- The temporary file, written and accepted. -/
def stageDropIn (m : Machine) (st : Storage) (dir : List Bytes) (tempName : Str) (content : Bytes)
    (tempPath sudoersPath : Str) : Except Error Unit × Storage :=
  let inode := m.newInode st
  let forDestination : Str := tempPath ++ " for destination " ++ sudoersPath
  match st.createNew m dir tempName 0o440 with
  | .error e => (.error (.ioContext ("Cannot create temporary sudoers file " ++ forDestination) e), st)
  | .ok st =>
    match m.dropIn .setPermissions with
    | some e => (.error (.ioContext ("Cannot set permissions on temporary sudoers file " ++ tempPath) e), st)
    | none =>
      match m.dropIn .writeAll with
      | some e => (.error (.ioContext ("Cannot write temporary sudoers file " ++ forDestination) e),
          st.write inode (content.take m.written))
      | none =>
        match m.dropIn .syncAll with
        | some e => (.error (.ioContext ("Cannot flush temporary sudoers file " ++ forDestination) e),
            st.write inode content)
        | none => (checkWithVisudo m content tempPath sudoersPath, st.write inode content)

/-- `TempFileCleanupGuard`: whatever is under the temporary name is removed. -/
def cleanUp (m : Machine) (st : Storage) (dir : List Bytes) (tempName : Str) : Storage :=
  match st.tree.unlinkat (st.guarded m.refusals) dir (Utf8.encode tempName) with
  | .ok tree => st.withTree tree
  | .error _ => st

def writeSudoersFileTo (m : Machine) (st : Storage) (tools : List Str) (sudoersPath entryPointDir : Str) :
    Except Error Unit × Storage :=
  let content := Utf8.encode (generateSudoersContentWithDir tools entryPointDir)
  match secureParentDirectory st.tree.fs m.euid sudoersPath "sudoers destination parent directory" with
  | .error e => (.error e, st)
  | .ok secureParent =>
    match Path.fileName sudoersPath with
    | none => (.error (.system ("Invalid sudoers destination path " ++ sudoersPath ++ ": missing file name")), st)
    | some sudoersFileName =>
      let tempName := sudoersFileName ++ ".tmp"
      let tempPath := Path.push (Path.pop sudoersPath) tempName
      match st.stageDropIn m secureParent.fd tempName content tempPath sudoersPath with
      | (.error e, st) => (.error e, st.cleanUp m secureParent.fd tempName)
      | (.ok (), st) =>
        match st.tree.renameat (st.guarded m.refusals) secureParent.fd (Utf8.encode tempName)
            (Utf8.encode sudoersFileName) with
        | .error e => (.error (.ioContext ("Cannot atomically replace sudoers destination " ++ sudoersPath ++
            " with temporary file " ++ tempPath) e), st.cleanUp m secureParent.fd tempName)
        | .ok tree => (.ok (), st.withTree tree)

/-! ## The installation -/

def installWithPathsAndPubkey (m : Machine) (paths : InstallPaths) (publicKeyPath : Str) (st : Storage) :
    Except Error Unit × Storage :=
  match loadPolicyWithVerifiedSignature (m.host st) st.tree paths.policyPath publicKeyPath with
  | .error e => (.error e, st)
  | .ok policy =>
    let toolNames := policy.tools.keys.mergeSort strLe
    let links := installToolLinksTo (st.guarded m.refusals) m.euid st.tree toolNames paths.binary paths.entryPointDir
    match (st.withTree links.tree).writeSudoersFileTo m links.successful paths.sudoersPath paths.entryPointDir with
    | (.error e, st) => (.error e, st)
    | (.ok (), st) =>
      let (lockErrors, st) := st.chattrOp m.files "+i" (managedTargets paths links.successful)
      (installErrors links.errors lockErrors, st)

def installWithPaths (m : Machine) (paths : InstallPaths) (st : Storage) : Except Error Unit × Storage :=
  st.installWithPathsAndPubkey m paths paths.publicKeyPath

/-! ## What the drop-in changes -/

variable {m : Machine} {st st' : Storage} {dir : List Bytes} {content : Bytes} {name tempPath sudoersPath : Str}

theorem createNew_ok {mode : Nat} (h : st.createNew m dir name mode = .ok st') :
    st'.flags = st.flags ∧ '\x00' ∉ name ∧ st.tree.kindAt dir = .dir ∧
      st.tree.entry dir (Utf8.encode name) = none ∧
      ∃ o, o.kind = .file ∧ st'.tree = st.tree.set dir (Utf8.encode name) (some o) := by
  unfold createNew at h
  split at h
  · cases h
  · next hnul =>
    split at h
    · cases h
    · split at h
      · cases h
      · next hdir =>
        split at h
        · cases h
        · next hnone =>
          cases h
          exact ⟨rfl, hnul, not_not.mp hdir, by simpa using hnone, _, rfl, rfl⟩

theorem stageDropIn_flags : (st.stageDropIn m dir name content tempPath sudoersPath).2.flags = st.flags := by
  unfold stageDropIn
  extract_lets inode forDestination
  split
  · rfl
  · next hcreate =>
    have hflags := (createNew_ok hcreate).1
    split
    · exact hflags
    · split
      · exact hflags
      · split
        · exact hflags
        · exact hflags

theorem stageDropIn_ok (h : st.stageDropIn m dir name content tempPath sudoersPath = (.ok (), st')) :
    '\x00' ∉ name ∧ st.tree.kindAt dir = .dir ∧ st.tree.entry dir (Utf8.encode name) = none ∧
      ∃ o, o.kind = .file ∧ st'.tree = st.tree.set dir (Utf8.encode name) (some o) := by
  unfold stageDropIn at h
  extract_lets inode forDestination at h
  split at h
  · cases h
  · next hcreate =>
    obtain ⟨-, hnew⟩ := createNew_ok hcreate
    split at h
    · cases h
    · split at h
      · cases h
      · split at h
        · cases h
        · obtain ⟨-, rfl⟩ := Prod.mk.inj h
          exact hnew

theorem cleanUp_flags : (st.cleanUp m dir name).flags = st.flags := by
  unfold cleanUp
  split <;> rfl

theorem writeSudoersFileTo_flags {tools : List Str} {entryPointDir : Str} :
    (st.writeSudoersFileTo m tools sudoersPath entryPointDir).2.flags = st.flags := by
  unfold writeSudoersFileTo
  extract_lets content
  split
  · rfl
  · next secureParent hparent =>
    split
    · rfl
    · next fileName hname =>
      extract_lets tempName tempPath
      have hstage := @stageDropIn_flags m st secureParent.fd content tempName tempPath sudoersPath
      split
      · next heq =>
        rw [heq] at hstage
        exact cleanUp_flags.trans hstage
      · next heq =>
        rw [heq] at hstage
        split
        · exact cleanUp_flags.trans hstage
        · exact hstage

end Storage

/-- What is new or changed in `t'` is a file, and nothing that is not at `q` has gone. -/
structure Tree.Replaces (q : List Bytes) (t t' : Tree) : Prop where
  others {p : List Bytes} {o : Object} : p ≠ q → t.object p = some o → t'.object p = some o
  dirs : t.KeepsDirs t'
  files : t'.KeepsWays t

/-- A file that was renamed after it was made replaces what was under the new name. -/
theorem Tree.Replaces.of_rename {k : Refusals} {t t₁ t' : Tree} {dir : List Bytes} {temp name : Bytes} {o : Object}
    (htemp : IsEntryName temp) (hname : IsEntryName name) (hdir : t.kindAt dir = .dir)
    (hnone : t.entry dir temp = none) (hfile : o.kind = .file) (ht₁ : t₁ = t.set dir temp (some o))
    (hren : t₁.renameat k dir temp name = .ok t') : Replaces (dir ++ [name]) t t' := by
  have hfree : ∀ {p o'}, t.object p = some o' → p ≠ dir ++ [temp] := by
    rintro p o' ho' rfl
    rw [Tree.entry_some.mpr ⟨hdir, htemp, ho'⟩] at hnone
    cases hnone
  have hold : ∀ {p o'}, t.object p = some o' → t₁.object p = some o' := fun ho' => by
    rw [ht₁, Tree.object_set, if_neg (hfree ho')]
    exact ho'
  have hfiles : t₁.KeepsWays t := fun p o' ho' hk => by
    rw [ht₁, Tree.object_set] at ho'
    split at ho'
    · cases ho'
      exact absurd hfile hk
    · exact ho'
  obtain ⟨hnew, o₁, ho₁, -, ⟨rfl, -⟩ | rfl⟩ := Tree.renameat_ok hren
  · exact ⟨fun _ => hold, fun ho' _ => hold ho', hfiles⟩
  · obtain ⟨hdir₁, -, hobj₁⟩ := Tree.entry_some.mp ho₁
    have ho₁ : o₁ = o := by
      rw [ht₁, Tree.object_set, if_pos rfl] at hobj₁
      exact (Option.some.inj hobj₁).symm
    have hothers : ∀ {p o'}, p ≠ dir ++ [name] → t.object p = some o' →
        ((t₁.set dir temp none).set dir name (some o₁)).object p = some o' := fun hp ho' => by
      rw [Tree.object_set, if_neg hp, Tree.object_set, if_neg (hfree ho')]
      exact hold ho'
    refine ⟨hothers, fun {p o'} ho' hk => hothers ?_ ho', fun p o' ho' hk => ?_⟩
    · rintro rfl
      exact hnew o' (Tree.entry_some.mpr ⟨hdir₁, hname, hold ho'⟩) hk
    · rw [Tree.object_set] at ho'
      split at ho'
      · cases ho'
        exact absurd (ho₁ ▸ hfile) hk
      · rw [Tree.object_set] at ho'
        split at ho'
        · cases ho'
        · exact hfiles ho' hk

theorem isEntryName_temp {name : Str} (h : Path.IsName name) (hnul : '\x00' ∉ name ++ ".tmp") :
    IsEntryName (Utf8.encode (name ++ ".tmp")) := by
  refine isEntryName_encode.mpr ⟨⟨?_, ?_, ?_, ?_⟩, hnul⟩
  · exact List.append_ne_nil_of_left_ne_nil h.ne_nil _
  · exact fun he => absurd (congrArg List.length he) (by simp)
  · exact fun he => absurd (congrArg List.length he) (by simp)
  · exact fun hm => (List.mem_append.mp hm).elim h.no_slash (by decide)

theorem secureParentDirectory_ok {D : Type} {fs : FileSystem D} {euid : Nat} {target label : Str} {p : SecurePath D}
    (h : secureParentDirectory fs euid target label = .ok p) : fs.kind p.fd = .dir ∧
      ∃ parent, Path.parent target = some parent ∧ checkPath fs parent .positional [] = .ok p := by
  unfold secureParentDirectory at h
  split at h
  · cases h
  · next parent hparent =>
    obtain ⟨hcheck, hdir⟩ := secureDirectory_ok h
    exact ⟨hdir, parent, hparent, hcheck⟩

/-- The drop-in replaces what is in its place. -/
theorem Storage.writeSudoersFileTo_ok {m : Machine} {st st' : Storage} {tools : List Str} {sudoersPath entryPointDir : Str}
    (h : st.writeSudoersFileTo m tools sudoersPath entryPointDir = (.ok (), st')) :
    ∃ dir n, st.tree.place sudoersPath = some (dir ++ [n]) ∧ st.tree.kindAt dir = .dir ∧
      Tree.Replaces (dir ++ [n]) st.tree st'.tree := by
  unfold writeSudoersFileTo at h
  extract_lets content at h
  split at h
  · cases h
  · next secureParent hparent =>
    split at h
    · cases h
    · next fileName hname =>
      extract_lets tempName tempPath at h
      split at h
      · cases h
      · next st₁ hstage =>
        split at h
        · cases h
        · next t hren =>
          obtain ⟨-, rfl⟩ := Prod.mk.inj h
          obtain ⟨hdir, parent, hpath, hcheck⟩ := secureParentDirectory_ok hparent
          obtain ⟨hnul, -, hnone, o, hfile, htree⟩ := stageDropIn_ok hstage
          refine ⟨secureParent.fd, Utf8.encode fileName, place_some.mpr ⟨parent, _, _, hpath, hname, hcheck, rfl⟩, hdir, ?_⟩
          have hisName := Path.isName_of_fileName hname
          have hnul' : '\x00' ∉ fileName := fun hm => hnul (List.mem_append_left _ hm)
          exact .of_rename (isEntryName_temp hisName hnul) (isEntryName_encode.mpr ⟨hisName, hnul'⟩) hdir hnone hfile
            htree hren

end SecureSudoers
