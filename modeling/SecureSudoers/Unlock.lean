/-
Unlocking what an installation has locked (`unlock_with_paths` in
`installer.rs`, `discover_managed_tools` in `targets.rs`).

The names of the tools are those of the policy, which may have changed since,
or, where it does not parse, of the entries that are links of the managed
binary. `unlock_clears`: whatever was locked is unlocked, as long as the
installation has left the managed binary in its place. If it has put the drop-in
there, the links are no longer found: `unlock_misses`.
-/
import SecureSudoers.Locked
import SecureSudoers.NetworkUpdate

namespace SecureSudoers

open Relation (ReflTransGen)

/-! ## `unlock_with_paths` -/

namespace Storage

def loadPolicy (m : Machine) (st : Storage) (path : Str) : Except Error SecureSudoersPolicy := do
  let bytes ← (st.read m path).mapError (.ioContext ("Cannot read " ++ path))
  (m.fromSlice bytes).mapError fun e => .system ("Invalid policy JSON at " ++ path ++ ": " ++ e)

/-- `file_identity`, of what `std::fs::metadata` finds. -/
def fileIdentity (m : Machine) (st : Storage) (path : Bytes) : Except Errno ExecutableIdentity :=
  if 0 ∈ path then .error .nulInPath
  else match m.files.fails st.tree (.metadata path) with
    | some e => .error e
    | none => (st.opened m path).map (·.stat.identity)

/-- `DirEntry::path`. -/
def entryBytes (dir : Str) (name : Bytes) : Bytes :=
  if dir = [] ∨ dir.getLast? = some '/' then Utf8.encode dir ++ name else Utf8.encode dir ++ slash :: name

/-- The tool of an entry, if it is a link of the managed binary. -/
def managedTool (m : Machine) (st : Storage) (expectedIdentity : ExecutableIdentity) (entryPointDir : Str) :
    Except Errno DirEntry → Option Str
  | .error _ => none
  | .ok entry =>
    match entry.fileType with
    | .ok .file =>
      match st.fileIdentity m (entryBytes entryPointDir entry.name) with
      | .error _ => none
      | .ok identity =>
        if identity = expectedIdentity then (Utf8.decode? entry.name).filter isValidToolName else none
    | .ok .dir | .ok (.symlink _) | .error _ => none

def discoverManagedTools (m : Machine) (st : Storage) (binary entryPointDir : Str) : List Str :=
  match st.fileIdentity m (Utf8.encode binary) with
  | .error _ => []
  | .ok expectedIdentity =>
    match m.readDir st entryPointDir with
    | .error _ => []
    | .ok entries => ((entries.filterMap (st.managedTool m expectedIdentity entryPointDir)).mergeSort strLe).eraseReps

/-- The tools that are unlocked. What `validate` says of the policy is a warning. -/
def unlockedTools (m : Machine) (paths : InstallPaths) (st : Storage) : List Str :=
  match st.loadPolicy m paths.policyPath with
  | .ok policy => policy.tools.keys.mergeSort strLe
  | .error _ => st.discoverManagedTools m paths.binary paths.entryPointDir

def unlockWithPaths (m : Machine) (paths : InstallPaths) (st : Storage) : Except Error Unit × Storage :=
  match st.chattrOp m.files "-i" (managedTargets paths (st.unlockedTools m paths)) with
  | ([], st) => (.ok (), st)
  | (errors, st) => (.error (.system ("Some files could not be unlocked:" ++ newline ++
      List.intercalate newline errors)), st)

/-! ## In between -/

/-- The file of that name, as `install_update` sees it. -/
def fileAt (st : Storage) (dir : List Bytes) (name : Str) : Option RegularFile :=
  match st.tree.entry dir (Utf8.encode name) with
  | none => none
  | some o =>
    if o.kind = .file then
      some { bytes := st.content o.stat.identity, mode := o.stat.mode, immutable := st.immutable o.stat.identity }
    else none

/-- What the directory holds is this. -/
def Shows (st : Storage) (dir : List Bytes) (files : Dir) : Prop := ∀ name, files.lookup name = st.fileAt dir name

end Storage

variable {Key : Type}

/-- What may happen while the files are locked. -/
inductive Meanwhile (Key : Type) (paths : InstallPaths) (st : Storage) : Storage → Prop where
  /-- An attempt to update the policy: calls that leave in its directory what `run_with_client` leaves there. -/
  | update {m : Machine} {u : Updater Key (List Bytes)} {a : Attempt Key} {p : Str} {dir : List Bytes} {files : Dir}
      {st' : Storage} : u.dest.policyPath = paths.policyPath → u.fs = st.tree.fs →
      checkPath st.tree.fs u.dest.parent .positional [] = .ok ⟨p, dir⟩ → st.Shows dir files →
      ReflTransGen (Change m.refusals dir) st st' → st'.Shows dir (runWithClient u a files).2 →
      Meanwhile Key paths st st'
  /-- The policy becomes anything, if it is not locked. -/
  | spoil {m : Machine} {o : Object} {bytes : Bytes} : st.opened m (Utf8.encode paths.policyPath) = .ok o →
      st.immutable o.stat.identity = false → Meanwhile Key paths st (st.write o.stat.identity bytes)

theorem meanwhile_keeps {paths : InstallPaths} {st st' : Storage} (h : Meanwhile Key paths st st') : Keeps st st' := by
  cases h with
  | update _ _ _ _ hchanges _ => exact changes_keep hchanges
  | @spoil m o bytes _ hnot => exact @change_keeps _ _ m.refusals [] (.write hnot)

theorem meanwhiles_keep {paths : InstallPaths} {st st' : Storage} (h : ReflTransGen (Meanwhile Key paths) st st') :
    Keeps st st' := by
  induction h with
  | refl => exact .refl
  | tail _ hstep ih => exact ih.trans (meanwhile_keeps hstep)

/-! ## What is unlocked -/

/-- The installation leaves the managed binary in its place, or the policy that
is read to unlock still has all tools of the one that was installed. -/
def FoundAgain (m m' : Machine) (paths : InstallPaths) (st st' : Storage) : Prop :=
  ∀ policy, loadPolicyWithVerifiedSignature (m.host st) st.tree paths.policyPath paths.publicKeyPath = .ok policy →
    BinaryStays st.tree paths policy.tools.keys ∨
      ∃ policy', st'.loadPolicy m' paths.policyPath = .ok policy' ∧ policy.tools.keys ⊆ policy'.tools.keys

variable {m m' : Machine} {paths : InstallPaths} {st st₁ st₂ st₃ : Storage} {r : Except Error Unit}
  {inode : ExecutableIdentity}

/-- An unlocking that succeeds leaves nothing locked that its paths name. -/
theorem unlockWithPaths_ok (h : st.unlockWithPaths m paths = (.ok (), st₃)) {path : Str}
    (hpath : path ∈ managedTargets paths (st.unlockedTools m paths)) {dir : List Bytes} {name : Str} {o : Object}
    (hnames : Names st.tree path dir name o) : st₃.immutable o.stat.identity = false := by
  unfold Storage.unlockWithPaths at h
  rw [Storage.chattrOp_minus] at h
  have hunlocks := @Storage.chattrEach_unlocks m.files (managedTargets paths (st.unlockedTools m paths)) st
  split at h
  · next heq =>
    obtain ⟨-, rfl⟩ := Prod.mk.inj h
    rw [heq] at hunlocks
    exact hunlocks rfl path hpath dir name o hnames
  · cases (Prod.mk.inj h).1

/-- Where the policy cannot be read, the tools are those of the entries that are links. -/
theorem mem_unlockedTools {entries : List (Except Errno DirEntry)} {expectedIdentity : ExecutableIdentity} {tool : Str}
    (hload : (st.loadPolicy m paths.policyPath).toOption.isNone = true)
    (hbinary : st.fileIdentity m (Utf8.encode paths.binary) = .ok expectedIdentity)
    (hdir : m.readDir st paths.entryPointDir = .ok entries) : tool ∈ st.unlockedTools m paths ↔
      tool ∈ entries.filterMap (st.managedTool m expectedIdentity paths.entryPointDir) := by
  unfold Storage.unlockedTools
  split
  · next policy hpolicy =>
    rw [hpolicy] at hload
    cases hload
  · rw [Storage.discoverManagedTools, hbinary]
    dsimp only
    rw [hdir]
    dsimp only
    rw [mem_eraseReps, List.mem_mergeSort]

/-- One without an error is the loop over its targets. -/
theorem unlockWithPaths_quiet
    (h : (Storage.chattrEach m.files false (managedTargets paths (st.unlockedTools m paths)) st).1 = []) :
    st.unlockWithPaths m paths =
      (.ok (), (Storage.chattrEach m.files false (managedTargets paths (st.unlockedTools m paths)) st).2) := by
  unfold Storage.unlockWithPaths
  rw [Storage.chattrOp_minus]
  generalize Storage.chattrEach m.files false (managedTargets paths (st.unlockedTools m paths)) st = unlocked at h
  obtain ⟨errors, st'⟩ := unlocked
  cases h
  rfl

/-- What the installation has locked, an unlocking names. -/
theorem locked_named (hinstall : st.installWithPaths m paths = (r, st₁)) (hfound : FoundAgain m m' paths st st₂)
    (hnot : st.immutable inode = false) (himm : st₁.immutable inode = true) :
    ∃ path ∈ managedTargets paths (st₂.unlockedTools m' paths), ∃ dir name o, Names st₁.tree path dir name o ∧
      o.stat.identity = inode := by
  obtain ⟨policy, hload, ⟨dir, n, hplace, hdir, hreplaces⟩, path, hpath, d, name, o, hnames, rfl⟩ :=
    installWithPaths_locks hinstall hnot himm
  rcases mem_managedTargets.mp hpath with hfixed | ⟨tool, htool, rfl⟩
  · exact ⟨path, mem_managedTargets.mpr (.inl hfixed), d, name, o, hnames, rfl⟩
  · rcases @installToolLinksTo_eq (st.guarded m.refusals) st.tree m.euid (policy.tools.keys.mergeSort strLe)
      paths.binary paths.entryPointDir with ⟨e, he⟩ | ⟨ctx, hctx, hlinks⟩
    · rw [he] at htool
      cases htool
    · rw [hlinks] at htool hplace hdir hreplaces
      rcases hfound policy hload with hstays | ⟨policy', hload', hsub⟩
      · obtain ⟨path, hfixed, hnamed⟩ :=
          hstays.named policy.tools.nodup hctx htool hplace hdir hreplaces hnames
        exact ⟨path, mem_managedTargets.mpr (.inl hfixed), hnamed⟩
      · have hmem : tool ∈ st₂.unlockedTools m' paths := by
          rw [Storage.unlockedTools, hload']
          exact List.mem_mergeSort.mpr (hsub (List.mem_mergeSort.mp (linkTools_sublist.subset htool)))
        exact ⟨_, mem_managedTargets.mpr (.inr ⟨tool, hmem, rfl⟩), d, name, o, hnames, rfl⟩

/-- **An unlocking that succeeds clears what the installation has locked**, after
any updates and whatever the policy has become. -/
theorem unlock_clears (hinstall : st.installWithPaths m paths = (r, st₁))
    (hmeanwhile : ReflTransGen (Meanwhile Key paths) st₁ st₂) (hfound : FoundAgain m m' paths st st₂)
    (hunlock : st₂.unlockWithPaths m' paths = (.ok (), st₃)) (hnot : st.immutable inode = false)
    (himm : st₁.immutable inode = true) : st₃.immutable inode = false := by
  obtain ⟨path, hpath, dir, name, o, hnames, rfl⟩ := locked_named hinstall hfound hnot himm
  exact unlockWithPaths_ok hunlock hpath (hnames.keeps (meanwhiles_keep hmeanwhile) himm)

/-! ## Runs that spoil the policy -/

theorem loadPolicy_congr {path : Str} (htree : st.tree = st₁.tree) (hcontent : st.content = st₁.content) :
    st.loadPolicy m path = st₁.loadPolicy m path := by
  rw [Storage.loadPolicy, Storage.loadPolicy, Storage.read, Storage.read, Storage.opened, Storage.opened, htree,
    hcontent]

theorem fileIdentity_congr {path : Bytes} (htree : st.tree = st₁.tree) :
    st.fileIdentity m path = st₁.fileIdentity m path := by
  rw [Storage.fileIdentity, Storage.fileIdentity, Storage.opened, Storage.opened, htree]

theorem managedTool_congr {binary : ExecutableIdentity} {dir : Str} {entry : Except Errno DirEntry}
    (htree : st.tree = st₁.tree) : st.managedTool m binary dir entry = st₁.managedTool m binary dir entry := by
  cases entry with
  | error _ => rfl
  | ok entry => rw [Storage.managedTool, Storage.managedTool, fileIdentity_congr htree]

/-- What writing the drop-in for these tools leaves. -/
def dropInWritten (m : Machine) (paths : InstallPaths) (tools : List Str) (st : Storage) :
    Except Error Unit × Storage :=
  (st.withTree (installToolLinksTo (st.guarded m.refusals) m.euid st.tree tools paths.binary
    paths.entryPointDir).tree).writeSudoersFileTo m tools paths.sudoersPath paths.entryPointDir

def afterDropIn (m : Machine) (paths : InstallPaths) (tools : List Str) (st : Storage) : Storage :=
  (dropInWritten m paths tools st).2

/-- The installation locks `inode` as a tool's, and not the policy, and the
unlocking of what is found without it has nothing to complain of. -/
structure SpoilsPolicy (m m' : Machine) (paths : InstallPaths) (st : Storage) (tool : Str)
    (inode policyInode binary : ExecutableIdentity) (entries : List (Except Errno DirEntry)) (tools : List Str) :
    Prop where
  free : ∀ inode, st.immutable inode = false
  willing : m.files.Willing ∧ m'.files.Willing
  keys : (loadPolicyWithVerifiedSignature (m.host st) st.tree paths.policyPath paths.publicKeyPath).toOption.map
    (·.tools.keys) = some [tool]
  links : (installToolLinksTo (st.guarded m.refusals) m.euid st.tree [tool] paths.binary
    paths.entryPointDir).successful = [tool]
  written : (dropInWritten m paths [tool] st).1 = .ok ()
  locks : openVerifiedTarget m.files (afterDropIn m paths [tool] st).tree (Path.push paths.entryPointDir tool) =
    .ok inode
  policy : ∀ path ∈ paths.fixed ++ [Path.push paths.entryPointDir tool],
    openVerifiedTarget m.files (afterDropIn m paths [tool] st).tree path ≠ .ok policyInode
  opened : ((afterDropIn m paths [tool] st).opened m' (Utf8.encode paths.policyPath)).toOption.map (·.stat.identity) =
    some policyInode
  spoiled : (((afterDropIn m paths [tool] st).write policyInode []).loadPolicy m' paths.policyPath).toOption.isNone =
    true
  identity : ((afterDropIn m paths [tool] st).write policyInode []).fileIdentity m' (Utf8.encode paths.binary) =
    .ok binary
  listed : ∀ st, m'.readDir st paths.entryPointDir = .ok entries
  discovered : entries.filterMap (((afterDropIn m paths [tool] st).write policyInode []).managedTool m' binary
    paths.entryPointDir) = tools
  unlocks : ∀ path ∈ paths.fixed ++ tools.map (Path.push paths.entryPointDir),
    (openVerifiedTarget m'.files (afterDropIn m paths [tool] st).tree path).toOption.isSome = true

namespace SpoilsPolicy

variable {tool : Str} {policyInode binary : ExecutableIdentity}
  {entries : List (Except Errno DirEntry)} {tools : List Str}

theorem keys_eq (h : SpoilsPolicy m m' paths st tool inode policyInode binary entries tools)
    {policy : SecureSudoersPolicy}
    (hload : loadPolicyWithVerifiedSignature (m.host st) st.tree paths.policyPath paths.publicKeyPath = .ok policy) :
    policy.tools.keys = [tool] := by
  have hkeys := h.keys
  rw [hload] at hkeys
  exact Option.some.inj hkeys

theorem installs (h : SpoilsPolicy m m' paths st tool inode policyInode binary entries tools) :
    (st.installWithPaths m paths).2 = (Storage.chattrEach m.files true (managedTargets paths [tool])
      (afterDropIn m paths [tool] st)).2 := by
  obtain ⟨policy, hload⟩ : ∃ policy,
      loadPolicyWithVerifiedSignature (m.host st) st.tree paths.policyPath paths.publicKeyPath = .ok policy := by
    have hkeys := h.keys
    generalize loadPolicyWithVerifiedSignature _ _ _ _ = loaded at hkeys
    cases loaded with
    | error _ => cases hkeys
    | ok policy => exact ⟨policy, rfl⟩
  have hsorted : policy.tools.keys.mergeSort strLe = [tool] := by rw [h.keys_eq hload, List.mergeSort_singleton]
  have hinstall := @installWithPaths_locking paths m st (afterDropIn m paths [tool] st) policy _ hload (by rw [hsorted])
    (by rw [h.links]; exact Prod.ext h.written rfl)
  rw [hinstall, h.links]

theorem run (h : SpoilsPolicy m m' paths st tool inode policyInode binary entries tools) :
    ∃ r st₁ st₂ st₃, st.installWithPaths m paths = (r, st₁) ∧ st₁.immutable inode = true ∧
      Meanwhile Unit paths st₁ st₂ ∧ st₂.unlockWithPaths m' paths = (.ok (), st₃) ∧
        ((∀ path ∈ paths.fixed ++ tools.map (Path.push paths.entryPointDir),
          openVerifiedTarget m'.files (afterDropIn m paths [tool] st).tree path ≠ .ok inode) →
            st₃.immutable inode = true) := by
  obtain ⟨r, st₁, hst₁⟩ : ∃ r st₁, st.installWithPaths m paths = (r, st₁) := ⟨_, _, rfl⟩
  have hinstall := h.installs
  rw [hst₁] at hinstall
  dsimp only at hinstall
  obtain ⟨htree, hcontent⟩ : st₁.tree = (afterDropIn m paths [tool] st).tree ∧
      st₁.content = (afterDropIn m paths [tool] st).content := by
    rw [hinstall]
    exact Storage.chattrEach_same
  -- `inode` is locked, and the policy is not
  have hlocked : st₁.immutable inode = true := by
    rw [hinstall]
    exact Storage.chattrEach_sets h.willing.1
      ⟨_, mem_managedTargets.mpr (.inr ⟨tool, List.mem_singleton_self _, rfl⟩), h.locks⟩
  have hpolicy : st₁.immutable policyInode = false := by
    have hflags : (afterDropIn m paths [tool] st).flags = st.flags := by
      rw [afterDropIn]
      exact Storage.writeSudoersFileTo_flags
    have hbefore : (afterDropIn m paths [tool] st).immutable policyInode = false := by
      rw [Storage.immutable, hflags]
      exact h.free policyInode
    rw [hinstall, Storage.chattrEach_other, hbefore]
    intro path hpath
    refine h.policy path ?_
    simpa using mem_managedTargets.mp hpath
  -- what is found when it is spoiled
  obtain ⟨o, ho, rfl⟩ := Option.map_eq_some_iff.mp h.opened
  have hopened : st₁.opened m' (Utf8.encode paths.policyPath) = .ok o := by
    rw [Storage.opened, htree, ← Storage.opened]
    generalize Storage.opened _ _ _ = opened at ho
    cases opened <;> cases ho
    rfl
  have htree' : (st₁.write o.stat.identity []).tree = ((afterDropIn m paths [tool] st).write o.stat.identity []).tree :=
    htree
  have hcontent' : (st₁.write o.stat.identity []).content =
      ((afterDropIn m paths [tool] st).write o.stat.identity []).content := by
    rw [Storage.write, Storage.write, hcontent]
  have htools : ∀ t, t ∈ (st₁.write o.stat.identity []).unlockedTools m' paths ↔ t ∈ tools := by
    intro t
    have hload := h.spoiled
    have hbinary := h.identity
    rw [← loadPolicy_congr htree' hcontent'] at hload
    rw [← fileIdentity_congr htree'] at hbinary
    rw [mem_unlockedTools hload hbinary (h.listed _), ← h.discovered]
    simp only [List.mem_filterMap, managedTool_congr htree']
  have hall : ∀ path ∈ managedTargets paths ((st₁.write o.stat.identity []).unlockedTools m' paths),
      path ∈ paths.fixed ++ tools.map (Path.push paths.entryPointDir) := by
    intro path hpath
    rw [mem_managedTargets] at hpath
    simpa [htools, eq_comm] using hpath
  have hquiet : (Storage.chattrEach m'.files false
      (managedTargets paths ((st₁.write o.stat.identity []).unlockedTools m' paths)) (st₁.write o.stat.identity [])).1 =
        [] := by
    refine Storage.chattrEach_quiet h.willing.2 fun path hpath => .inl ?_
    have hsome := h.unlocks path (hall path hpath)
    rw [← htree] at hsome
    exact ⟨_, eq_ok_get hsome⟩
  refine ⟨r, st₁, _, _, hst₁, hlocked, .spoil hopened hpolicy, unlockWithPaths_quiet hquiet, fun hnone => ?_⟩
  rw [Storage.chattrEach_other]
  · exact hlocked
  · intro path hpath
    have hne := hnone path (hall path hpath)
    rw [← htree] at hne
    exact hne

end SpoilsPolicy

/-! ## A host whose drop-ins are among its binaries -/

/-- The parts of a host without entry points, and where its `sudoers.d` is. -/
def managedTree (sudoersD : Object) : Tree :=
  .ofList [(["usr"], .directory), (["usr", "local"], .directory), (["usr", "local", "bin"], .directory),
    (["usr", "local", "bin", "secure-sudoers"], .file 10), (["usr", "local", "bin", "secure-sudoers-utils"], .file 11),
    (["etc"], .directory), (["etc", "secure-sudoers"], .directory),
    (["etc", "secure-sudoers", "policy.json"], .file 20), (["etc", "secure-sudoers", "policy.json.sig"], .file 21),
    (["etc", "secure-sudoers", "secure_sudoers_public_key.pem"], .file 22), (["etc", "sudoers.d"], sudoersD)]

def managedStorage (sudoersD : Object) : Storage where
  tree := managedTree sudoersD
  flags _ := 0
  content inode := if inode.ino = 20 then [1] else if inode.ino = 21 then List.replicate 64 0 else []

def toBin : Object := { kind := .symlink (Utf8.encode "/usr/local/bin"), target_length := by decide }

/-- The kernel, when it is out of file descriptors just as `name` is to be opened. -/
def outOfFiles (name : Bytes) : FileRefusals where
  fails _ call :=
    match call with
    | .openat _ n => if n = name then some (.other 23) else none
    | _ => none
  found _ call := by
    cases call with
    | openat dir n =>
      dsimp only
      split <;> simp
    | getFlags | setFlags | read | metadata => simp

/-- What is in `/usr/local/bin` when `apt` is a link. -/
def binEntries : List (Except Errno DirEntry) :=
  (["apt", "secure-sudoers", "secure-sudoers-utils"] : List Str).map fun name => .ok ⟨Utf8.encode name, .ok .file⟩

def managedMachine (files : FileRefusals) : Machine where
  refusals _ _ := none
  files
  cwd := []
  euid := 0
  loadVerifyingKey _ _ := .ok []
  verify _ _ _ := .ok ()
  fromSlice bytes :=
    if bytes = [1] then
      .ok { globalSettings := {}, tools := .single "apt" { realBinary := "/usr/bin/apt", verbs := ["update"] } }
    else .error "expected value at line 1 column 1"
  regexNew := defaultRegexNew
  newInode _ := { dev := 0, ino := 99 }
  dropIn _ := none
  written := 0
  visudo _ _ := .ok { success := true, stdout := [], stderr := [] }
  readDir _ _ := .ok binEntries

/-- The kernel that cannot open the policy's file while it is to be locked. -/
def policyBusy : FileRefusals := outOfFiles (Utf8.encode "policy.json")

/-- The kernel that refuses nothing. -/
def allOpen : FileRefusals := outOfFiles []

theorem outOfFiles_willing {name : Bytes} : (outOfFiles name).Willing := fun _ _ _ => ⟨rfl, rfl⟩

theorem managedStorage_free {sudoersD : Object} {inode : ExecutableIdentity} :
    (managedStorage sudoersD).immutable inode = false := by
  change isImmutable 0 = false
  decide

theorem toBin_spoils : SpoilsPolicy (managedMachine policyBusy) (managedMachine allOpen) {} (managedStorage toBin) "apt"
    ⟨0, 10⟩ ⟨0, 20⟩ ⟨0, 99⟩ binEntries ["secure-sudoers"] where
  free _ := managedStorage_free
  willing := ⟨outOfFiles_willing, outOfFiles_willing⟩
  keys := by decide +kernel
  links := by decide +kernel
  written := by decide +kernel
  locks := by decide +kernel
  policy := by decide +kernel
  opened := by decide +kernel
  spoiled := by decide +kernel
  identity := by decide +kernel
  listed _ := rfl
  discovered := by decide +kernel
  unlocks := by decide +kernel

/-- **With the drop-in in the place of the managed binary**, and the policy's file
not locked and then spoiled, the link `apt` stays locked. -/
theorem unlock_misses : ¬∀ (m m' : Machine) (paths : InstallPaths) (st st₁ st₂ st₃ : Storage) (r : Except Error Unit),
    (∀ inode, st.immutable inode = false) → st.installWithPaths m paths = (r, st₁) →
      ReflTransGen (Meanwhile Unit paths) st₁ st₂ → st₂.unlockWithPaths m' paths = (.ok (), st₃) →
        ∀ inode, st₁.immutable inode = true → st₃.immutable inode = false := by
  intro h
  obtain ⟨r, st₁, st₂, st₃, hinstall, hapt, hspoil, hunlock, hlocked⟩ := toBin_spoils.run
  have hstays : st₃.immutable ⟨0, 10⟩ = true := hlocked (by decide +kernel)
  rw [h _ _ {} _ st₁ st₂ st₃ r toBin_spoils.free hinstall (.single hspoil) hunlock ⟨0, 10⟩ hapt] at hstays
  cases hstays

theorem directory_spoils : SpoilsPolicy (managedMachine policyBusy) (managedMachine allOpen) {}
    (managedStorage .directory) "apt" ⟨0, 10⟩ ⟨0, 20⟩ ⟨0, 10⟩ binEntries ["apt", "secure-sudoers"] where
  free _ := managedStorage_free
  willing := ⟨outOfFiles_willing, outOfFiles_willing⟩
  keys := by decide +kernel
  links := by decide +kernel
  written := by decide +kernel
  locks := by decide +kernel
  policy := by decide +kernel
  opened := by decide +kernel
  spoiled := by decide +kernel
  identity := by decide +kernel
  listed _ := rfl
  discovered := by decide +kernel
  unlocks := by decide +kernel

theorem directory_stays : BinaryStays (managedStorage .directory).tree {} ["apt"] := by
  have hbinary : (managedStorage .directory).tree.place ({} : InstallPaths).binary =
      some (["usr", "local", "bin", "secure-sudoers"].map Utf8.encode) := by decide +kernel
  constructor
  · intro q hq
    rw [← hq]
    decide +kernel
  · intro q tool hq htool
    rw [← hq, List.mem_singleton.mp htool]
    decide +kernel
  · decide +kernel

/-- Where `sudoers.d` is a directory, the same run unlocks it. -/
theorem unlock_clears_apt : ∃ (r : Except Error Unit) (st₁ st₂ st₃ : Storage),
    (managedStorage .directory).installWithPaths (managedMachine policyBusy) {} =
    (r, st₁) ∧ st₂.unlockWithPaths (managedMachine allOpen) {} = (.ok (), st₃) ∧ st₁.immutable ⟨0, 10⟩ = true ∧
      st₃.immutable ⟨0, 10⟩ = false := by
  obtain ⟨r, st₁, st₂, st₃, hinstall, hapt, hspoil, hunlock, -⟩ := directory_spoils.run
  refine ⟨r, st₁, st₂, st₃, hinstall, hunlock, hapt,
    unlock_clears hinstall (.single hspoil) (fun policy hload => .inl ?_) hunlock managedStorage_free hapt⟩
  rw [directory_spoils.keys_eq hload]
  exact directory_stays

end SecureSudoers
