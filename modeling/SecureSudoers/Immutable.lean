/-
The immutable bit of managed files (`installer/immutable.rs`).

`Names` says which file a path names: the one `open_verified_target` opens,
unless the kernel refuses. `chattrEach_reaches` says whose bit `chattr_op`
changes, and `chattrEach_locks` and `chattrEach_unlocks` what it leaves: `+i` sets
the bit of files its paths lead to only, `-i` without an error leaves none set
that they name.
-/
import SecureSudoers.Storage

namespace SecureSudoers

variable {D : Type}

/-! ## Calls on files -/

inductive FileCall where
  | openat (dir : List Bytes) (name : Bytes)
  | getFlags (inode : ExecutableIdentity)
  | setFlags (inode : ExecutableIdentity) (flags : InodeFlags)
  | read (path : Str)
  | metadata (path : Bytes)
  deriving DecidableEq, Repr

/-- The calls on files that the kernel refuses for reasons of its own. -/
structure FileRefusals where
  fails : Tree → FileCall → Option Errno
  /-- That a file is missing is seen, not made up. -/
  found (t : Tree) (call : FileCall) : fails t call ≠ some .ENOENT

/-- The kernel reads and writes the flags of what is open. -/
def FileRefusals.Willing (k : FileRefusals) : Prop :=
  ∀ t inode flags, k.fails t (.getFlags inode) = none ∧ k.fails t (.setFlags inode flags) = none

/-- `openat` with `O_RDONLY | O_NOFOLLOW`. -/
def Tree.openRead (k : FileRefusals) (t : Tree) (dir : List Bytes) (name : Bytes) : Except Errno Object :=
  match k.fails t (.openat dir name) with
  | some e => .error e
  | none =>
    if t.kindAt dir ≠ .dir then .error .ENOTDIR
    else match t.entry dir name with
      | none => .error .ENOENT
      | some o =>
        match o.kind with
        | .symlink _ => .error .ELOOP
        | .dir | .file => .ok o

/-! ## `chattr_op` -/

/-- `raw_os_error`. -/
def Errno.rawOsError : Errno → Option Errno
  | .nulInPath => none
  | e => some e

structure ImmutableOpError where
  message : Str
  rawOsError : Option Errno
  deriving DecidableEq, Repr

namespace ImmutableOpError

def fromIoContext (context : Str) (error : Errno) : ImmutableOpError where
  message := context ++ ": " ++ error.display
  rawOsError := error.rawOsError

def fromCommonContext (context : Str) (error : Error) : ImmutableOpError where
  message := context ++ ": " ++ error.display
  rawOsError := match error with
    | .io e | .ioContext _ e => e.rawOsError
    | _ => none

end ImmutableOpError

def immutableActionForFlag (flag : Str) : Except Str Bool :=
  if flag = "+i".toList then .ok true
  else if flag = "-i".toList then .ok false
  else .error ("Unsupported immutable operation flag: " ++ flag)

/-- `open_verified_target`: the inode it opens. -/
def openVerifiedTarget (k : FileRefusals) (t : Tree) (path : Str) : Except ImmutableOpError ExecutableIdentity :=
  if !Path.isAbsolute path then .error ⟨"Immutable operation requires an absolute path: " ++ path, none⟩
  else match Path.parent path with
    | none => .error ⟨"Cannot determine parent directory for immutable target " ++ path, none⟩
    | some parent =>
      match checkPath t.fs parent .positional [] with
      | .error e => .error (.fromCommonContext
          ("Cannot securely resolve parent directory of " ++ path ++ " before immutable operation") e)
      | .ok secureParent =>
        match Path.fileName path with
        | none => .error ⟨"Immutable operation requires a concrete target path, got: " ++ path, none⟩
        | some basename =>
          if '\x00' ∈ basename then .error ⟨"Immutable target contains an interior NUL byte: " ++ path, none⟩
          else match t.openRead k secureParent.fd (Utf8.encode basename) with
            | .ok o => .ok o.stat.identity
            | .error .ELOOP =>
              .error ⟨"Refusing immutable operation on symbolic link target " ++ path, some .ELOOP⟩
            | .error e => .error (.fromIoContext
                ("Cannot open secure target " ++ path ++ " for immutable operation") e)

namespace Storage

def readInodeFlags (k : FileRefusals) (st : Storage) (target : ExecutableIdentity) (path : Str) :
    Except ImmutableOpError InodeFlags :=
  match k.fails st.tree (.getFlags target) with
  | some e => .error (.fromIoContext ("Cannot read inode flags for " ++ path ++ " via ioctl(FS_IOC_GETFLAGS)") e)
  | none => .ok (st.flags target)

def writeInodeFlags (k : FileRefusals) (st : Storage) (target : ExecutableIdentity) (path : Str) (flags : InodeFlags) :
    Except ImmutableOpError Storage :=
  match k.fails st.tree (.setFlags target flags) with
  | some e => .error (.fromIoContext ("Cannot write inode flags for " ++ path ++ " via ioctl(FS_IOC_SETFLAGS)") e)
  | none => .ok (st.setFlags target flags)

def applyImmutableFlag (k : FileRefusals) (st : Storage) (path : Str) (setImmutable : Bool) :
    Except ImmutableOpError Storage := do
  let target ← openVerifiedTarget k st.tree path
  let currentFlags ← st.readInodeFlags k target path
  let updatedFlags := withImmutableBit currentFlags setImmutable
  if updatedFlags = currentFlags then .ok st else st.writeInodeFlags k target path updatedFlags

/-- The loop of `chattr_op`. -/
def chattrEach (k : FileRefusals) (setImmutable : Bool) : List Str → Storage → List Str × Storage
  | [], st => ([], st)
  | path :: paths, st =>
    match st.applyImmutableFlag k path setImmutable with
    | .ok st => chattrEach k setImmutable paths st
    | .error e =>
      if !setImmutable && e.rawOsError == some .ENOENT then chattrEach k setImmutable paths st
      else
        let (errors, st) := chattrEach k setImmutable paths st
        (e.message :: errors, st)

def chattrOp (k : FileRefusals) (flag : Str) (paths : List Str) (st : Storage) : List Str × Storage :=
  if paths = [] then ([], st)
  else match immutableActionForFlag flag with
    | .error e => ([e], st)
    | .ok setImmutable => chattrEach k setImmutable paths st

theorem chattrOp_plus {k : FileRefusals} {paths : List Str} {st : Storage} :
    chattrOp k "+i" paths st = chattrEach k true paths st := by
  cases paths <;> rfl

theorem chattrOp_minus {k : FileRefusals} {paths : List Str} {st : Storage} :
    chattrOp k "-i" paths st = chattrEach k false paths st := by
  cases paths <;> rfl

end Storage

/-! ## What a path names -/

/-- Where `check_path` finds the entry a path names. -/
def Tree.place (t : Tree) (path : Str) : Option (List Bytes) := do
  let parent ← Path.parent path
  let name ← Path.fileName path
  let secureParent ← (checkPath t.fs parent .positional []).toOption
  some (secureParent.fd ++ [Utf8.encode name])

/-- `path` is that of the entry `name` in `dir`, where `o` is. -/
structure Names (t : Tree) (path : Str) (dir : List Bytes) (name : Str) (o : Object) : Prop where
  absolute : Path.isAbsolute path = true
  parent : ∃ parent p, Path.parent path = some parent ∧ checkPath t.fs parent .positional [] = .ok ⟨p, dir⟩
  fileName : Path.fileName path = some name
  no_nul : '\x00' ∉ name
  entry : t.entry dir (Utf8.encode name) = some o
  no_link {target : Bytes} : o.kind ≠ .symlink target

variable {k : FileRefusals} {t t' : Tree} {path : Str} {dir q : List Bytes} {name : Str} {o : Object}
  {st st' : Storage} {inode : ExecutableIdentity}

theorem place_some : t.place path = some q ↔ ∃ parent name secureParent, Path.parent path = some parent ∧
    Path.fileName path = some name ∧ checkPath t.fs parent .positional [] = .ok secureParent ∧
      q = secureParent.fd ++ [Utf8.encode name] := by
  unfold Tree.place
  cases hparent : Path.parent path with
  | none => simp
  | some parent =>
    cases hname : Path.fileName path with
    | none => simp
    | some name =>
      generalize hcheck : checkPath t.fs parent .positional [] = checked
      cases checked with
      | error e => simp [hcheck, Except.toOption]
      | ok secureParent => simp [hcheck, Except.toOption, eq_comm]

theorem Names.place (h : Names t path dir name o) : t.place path = some (dir ++ [Utf8.encode name]) := by
  obtain ⟨parent, p, hparent, hcheck⟩ := h.parent
  exact place_some.mpr ⟨parent, name, _, hparent, h.fileName, hcheck, rfl⟩

/-- A path in a directory's place keeps it while the ways stay. -/
theorem place_keeps (h : t.KeepsWays t') {n : Bytes} (hq : t.place path = some (dir ++ [n])) (hdir : t.kindAt dir = .dir) :
    t'.place path = some (dir ++ [n]) := by
  obtain ⟨parent, name, ⟨p, fd⟩, hparent, hname, hcheck, hq⟩ := place_some.mp hq
  obtain ⟨rfl, hn⟩ := List.append_inj' hq rfl
  exact place_some.mpr ⟨parent, name, _, hparent, hname, h.checkPath hcheck hdir, hq⟩

/-- Paths with the same components lead to the same. -/
theorem checkPath_congr {fs : FileSystem D} {a b : Str} {context : ValidationContext} {blockedPaths : List Str}
    {p : SecurePath D} (ha : Path.isAbsolute a = true) (hb : Path.isAbsolute b = true)
    (h : Path.body a = Path.body b) :
    checkPath fs a context blockedPaths = .ok p ↔ checkPath fs b context blockedPaths = .ok p := by
  rw [checkPath_accepts, checkPath_accepts, segments_encode, segments_encode, ha, hb, h]

theorem parent_push {p n : Str} (hp : Path.isAbsolute p = true) (hn : Path.IsName n) :
    Path.fileName (Path.push p n) = some n ∧ ∃ parent, Path.parent (Path.push p n) = some parent ∧
      Path.isAbsolute parent = true ∧ Path.body parent = Path.body p := by
  have hrel : Path.isAbsolute n = false := Path.not_isAbsolute_asOsStr (c := .normal n) hn
  have hone : Path.body n = [.normal n] := Path.body_asOsStr (c := .normal n) hn
  have hcs : Path.components (Path.push p n) = (.rootDir :: Path.body p) ++ [.normal n] := by
    rw [Path.components_abs (Path.isAbsolute_push hp), Path.body_push hp hrel, hone, List.cons_append]
  refine ⟨by rw [Path.fileName, hcs, List.getLast?_concat], Path.collect (.rootDir :: Path.body p), ?_, ?_⟩
  · rw [Path.parent, hcs, List.getLast?_concat, List.dropLast_concat]
  · have hroot : Path.push [] ['/'] = ['/'] := by decide
    have h := @Path.body_foldl_push (Path.body p) ['/'] rfl fun c => Path.inner_of_mem_body
    rw [Path.collect, List.foldl_cons, Component.asOsStr, hroot]
    rwa [Path.body_slash, Path.body_nil, List.nil_append] at h

/-- The place of a name in a directory that `check_path` accepts. -/
theorem place_push {path p : Str} (hn : Path.IsName name) (hcheck : checkPath t.fs path .positional [] = .ok ⟨p, dir⟩) :
    t.place (Path.push path name) = some (dir ++ [Utf8.encode name]) := by
  have habs := (checkPath_accepts.mp hcheck).1
  obtain ⟨hname, parent, hparent, habs', hbody⟩ := parent_push habs hn
  exact place_some.mpr ⟨parent, name, _, hparent, hname, (checkPath_congr habs' habs hbody).mpr hcheck, rfl⟩

theorem openRead_ok {name : Bytes} (h : t.openRead k dir name = .ok o) :
    t.entry dir name = some o ∧ ∀ target, o.kind ≠ .symlink target := by
  unfold Tree.openRead at h
  split at h
  · cases h
  · split at h
    · cases h
    · split at h
      · cases h
      · next o' ho' =>
        cases hk : o'.kind with
        | symlink target => simp [hk] at h
        | dir | file =>
          simp only [hk] at h
          cases h
          exact ⟨ho', by simp [hk]⟩

theorem openRead_found {name : Bytes} (ho : t.entry dir name = some o) (hlink : ∀ target, o.kind ≠ .symlink target) :
    t.openRead k dir name = .ok o ∨ ∃ e, t.openRead k dir name = .error e ∧ e ≠ .ENOENT := by
  unfold Tree.openRead
  cases hf : k.fails t (.openat dir name) with
  | some e => exact .inr ⟨e, rfl, fun he => k.found t _ (he ▸ hf)⟩
  | none =>
    rw [if_neg (not_not_intro (Tree.entry_some.mp ho).1), ho]
    cases hk : o.kind with
    | symlink target => exact absurd hk (hlink target)
    | dir | file => exact .inl (by simp [hk])

/-- What is opened is what the path names. -/
theorem openVerifiedTarget_ok (h : openVerifiedTarget k t path = .ok inode) :
    ∃ dir name o, Names t path dir name o ∧ o.stat.identity = inode := by
  unfold openVerifiedTarget at h
  split at h
  · cases h
  · next habs =>
    split at h
    · cases h
    · next parent hparent =>
      split at h
      · cases h
      · next secureParent hcheck =>
        split at h
        · cases h
        · next basename hname =>
          split at h
          · cases h
          · next hnul =>
            split at h
            · next o hopen =>
              cases h
              obtain ⟨ho, hlink⟩ := openRead_ok hopen
              exact ⟨secureParent.fd, basename, o, ⟨by simpa using habs, ⟨parent, secureParent.path, hparent, hcheck⟩,
                hname, hnul, ho, hlink _⟩, rfl⟩
            · cases h
            · cases h

theorem rawOsError_ne {e : Errno} (h : e ≠ .ENOENT) : e.rawOsError ≠ some .ENOENT := by
  cases e <;> simp_all [Errno.rawOsError]

/-- What a path names is opened, or an error says why not. -/
theorem Names.opens (h : Names t path dir name o) : openVerifiedTarget k t path = .ok o.stat.identity ∨
    ∃ e, openVerifiedTarget k t path = .error e ∧ e.rawOsError ≠ some .ENOENT := by
  obtain ⟨parent, p, hparent, hcheck⟩ := h.parent
  unfold openVerifiedTarget
  simp only [h.absolute, hparent, hcheck, h.fileName, if_neg h.no_nul, Bool.not_true, Bool.false_eq_true, if_false]
  rcases @openRead_found k t dir o (Utf8.encode name) h.entry fun _ => h.no_link with hopen | ⟨e, hopen, hne⟩
  · rw [hopen]
    exact .inl rfl
  · rw [hopen]
    refine .inr ?_
    split
    · next heq => cases heq
    · exact ⟨_, rfl, by simp⟩
    · next heq =>
      cases heq
      exact ⟨_, rfl, rawOsError_ne hne⟩

/-- What a path names is opened, unless the kernel refuses. -/
theorem Names.opened (h : Names t path dir name o) : openVerifiedTarget k t path = .ok o.stat.identity ↔
    k.fails t (.openat dir (Utf8.encode name)) = none := by
  obtain ⟨parent, p, hparent, hcheck⟩ := h.parent
  have hdir := (Tree.entry_some.mp h.entry).1
  have hopen : t.openRead k dir (Utf8.encode name) = .ok o ↔ k.fails t (.openat dir (Utf8.encode name)) = none := by
    unfold Tree.openRead
    cases hfails : k.fails t (.openat dir (Utf8.encode name)) with
    | some e => simp
    | none =>
      rw [if_neg (not_not_intro hdir), h.entry]
      cases hk : o.kind with
      | symlink target => exact absurd hk h.no_link
      | dir | file => simp [hk]
  unfold openVerifiedTarget
  simp only [h.absolute, hparent, hcheck, h.fileName, if_neg h.no_nul, Bool.not_true, Bool.false_eq_true, if_false]
  rw [← hopen]
  cases hread : t.openRead k dir (Utf8.encode name) with
  | ok o' =>
    cases Option.some.inj ((openRead_ok hread).1.symm.trans h.entry)
    simp
  | error e => cases e <;> simp

/-- A path keeps naming what it names while that and the directories stay. -/
theorem Names.keeps (h : Names st.tree path dir name o) (hkeeps : Keeps st st')
    (hi : st.immutable o.stat.identity = true) : Names st'.tree path dir name o := by
  obtain ⟨parent, p, hparent, hcheck⟩ := h.parent
  obtain ⟨hdir, hname, hobj⟩ := Tree.entry_some.mp h.entry
  have hdir' : st'.tree.kindAt dir = .dir := (hkeeps.ways.kindAt (by simp [hdir])).trans hdir
  exact { h with
    parent := ⟨parent, p, hparent, hkeeps.ways.checkPath hcheck hdir⟩
    entry := Tree.entry_some.mpr ⟨hdir', hname, hkeeps.object hobj fun _ => hi⟩ }

/-! ## What `chattr_op` leaves -/

namespace Storage

/-- One path: the bit of the file it names is as it is to be. -/
theorem applyImmutableFlag_ok {setImmutable : Bool} (h : st.applyImmutableFlag k path setImmutable = .ok st') :
    ∃ inode, openVerifiedTarget k st.tree path = .ok inode ∧ (st'.tree = st.tree ∧ st'.content = st.content) ∧
      ∀ other, st'.immutable other = if other = inode then setImmutable else st.immutable other := by
  obtain ⟨inode, hopen, h⟩ := bind_ok.mp h
  obtain ⟨flags, hread, h⟩ := bind_ok.mp h
  refine ⟨inode, hopen, ?_⟩
  have hflags : flags = st.flags inode := by
    unfold readInodeFlags at hread
    split at hread
    · cases hread
    · exact (Except.ok.inj hread).symm
  subst hflags
  extract_lets updatedFlags at h
  split at h
  · next hsame =>
    cases h
    refine ⟨⟨rfl, rfl⟩, fun other => ?_⟩
    split
    · next he =>
      rw [he, immutable, ← hsame, isImmutable_with]
    · rfl
  · unfold writeInodeFlags at h
    split at h
    · cases h
    · cases h
      refine ⟨⟨rfl, rfl⟩, fun other => ?_⟩
      rw [setFlags_immutable, isImmutable_with]

/-- A path that names a file: no error says that it is missing. -/
theorem applyImmutableFlag_error {setImmutable : Bool} {e : ImmutableOpError} (hnames : Names st.tree path dir name o)
    (h : st.applyImmutableFlag k path setImmutable = .error e) : e.rawOsError ≠ some .ENOENT := by
  unfold applyImmutableFlag readInodeFlags writeInodeFlags at h
  rcases @Names.opens k _ _ _ _ _ hnames with hopen | ⟨e', hopen, hne⟩
  · rw [hopen] at h
    simp only [bind, Except.bind] at h
    split at h
    · next hread =>
      split at hread
      · next hfails =>
        cases hread
        cases h
        exact rawOsError_ne fun he => k.found _ _ (he ▸ hfails)
      · cases hread
    · split at h
      · cases h
      · split at h
        · next hfails =>
          cases h
          exact rawOsError_ne fun he => k.found _ _ (he ▸ hfails)
        · cases h
  · rw [hopen] at h
    cases h
    exact hne

/-- The loop changes nothing but flags. -/
theorem chattrEach_same {setImmutable : Bool} : ∀ {paths : List Str} {st : Storage},
    (chattrEach k setImmutable paths st).2.tree = st.tree ∧ (chattrEach k setImmutable paths st).2.content = st.content
  | [], _ => ⟨rfl, rfl⟩
  | path :: paths, st => by
    unfold chattrEach
    split
    · next hok =>
      obtain ⟨-, -, ⟨htree, hcontent⟩, -⟩ := applyImmutableFlag_ok hok
      exact ⟨chattrEach_same.1.trans htree, chattrEach_same.2.trans hcontent⟩
    · split
      · exact chattrEach_same
      · exact chattrEach_same

/-- A flag that is as it is to be stays so. -/
theorem chattrEach_stays {setImmutable : Bool} : ∀ {paths : List Str} {st : Storage},
    st.immutable inode = setImmutable → (chattrEach k setImmutable paths st).2.immutable inode = setImmutable
  | [], _ => fun h => h
  | path :: paths, st => by
    intro h
    unfold chattrEach
    split
    · next st' hok =>
      obtain ⟨target, -, -, himm⟩ := applyImmutableFlag_ok hok
      refine chattrEach_stays ?_
      rw [himm, h, ite_self]
    · split
      · exact chattrEach_stays h
      · exact chattrEach_stays h

/-- `chattr` can set or clear the bit of `inode` by the path. -/
structure Reaches (k : FileRefusals) (st : Storage) (setImmutable : Bool) (path : Str) (inode : ExecutableIdentity) :
    Prop where
  names : ∃ dir name o, Names st.tree path dir name o ∧ o.stat.identity = inode ∧
    k.fails st.tree (.openat dir (Utf8.encode name)) = none
  read : k.fails st.tree (.getFlags inode) = none
  write : k.fails st.tree (.setFlags inode (withImmutableBit (st.flags inode) setImmutable)) = none

theorem names_iff : openVerifiedTarget k st.tree path = .ok inode ↔
    ∃ dir name o, Names st.tree path dir name o ∧ o.stat.identity = inode ∧
      k.fails st.tree (.openat dir (Utf8.encode name)) = none := by
  constructor
  · intro hopen
    obtain ⟨dir, name, o, hnames, rfl⟩ := openVerifiedTarget_ok hopen
    exact ⟨dir, name, o, hnames, rfl, hnames.opened.mp hopen⟩
  · intro ⟨dir, name, o, hnames, hid, hfails⟩
    exact hid ▸ hnames.opened.mpr hfails

/-- A path opened whose file has the other bit: the flags are written, or the kernel refuses. -/
theorem applyImmutableFlag_reaches {setImmutable : Bool} (hopen : openVerifiedTarget k st.tree path = .ok inode)
    (hbit : st.immutable inode ≠ setImmutable) :
    (∃ st', st.applyImmutableFlag k path setImmutable = .ok st') ↔ Reaches k st setImmutable path inode := by
  have hupdated : withImmutableBit (st.flags inode) setImmutable ≠ st.flags inode := by
    intro he
    rw [Storage.immutable, ← he, isImmutable_with] at hbit
    exact hbit rfl
  have hreaches : Reaches k st setImmutable path inode ↔ k.fails st.tree (.getFlags inode) = none ∧
      k.fails st.tree (.setFlags inode (withImmutableBit (st.flags inode) setImmutable)) = none :=
    ⟨fun h => ⟨h.read, h.write⟩, fun h => ⟨names_iff.mp hopen, h.1, h.2⟩⟩
  rw [hreaches]
  unfold applyImmutableFlag readInodeFlags writeInodeFlags
  rw [hopen]
  simp only [bind, Except.bind]
  cases k.fails st.tree (.getFlags inode) with
  | some e => simp
  | none =>
    simp only [if_neg hupdated, true_and]
    cases k.fails st.tree (.setFlags inode (withImmutableBit (st.flags inode) setImmutable)) with
    | some e => simp
    | none => simp

/-- The flags of other files stay. -/
theorem applyImmutableFlag_other {setImmutable : Bool} {target : ExecutableIdentity}
    (h : st.applyImmutableFlag k path setImmutable = .ok st') (hopen : openVerifiedTarget k st.tree path = .ok target)
    (hne : inode ≠ target) : st'.tree = st.tree ∧ st'.flags inode = st.flags inode := by
  obtain ⟨inode', hopen', h⟩ := bind_ok.mp h
  cases hopen.symm.trans hopen'
  obtain ⟨flags, -, h⟩ := bind_ok.mp h
  extract_lets updatedFlags at h
  split at h
  · cases h
    exact ⟨rfl, rfl⟩
  · unfold writeInodeFlags at h
    split at h
    · cases h
    · cases h
      exact ⟨rfl, Function.update_of_ne hne _ _⟩

theorem Reaches.congr {setImmutable : Bool} (htree : st'.tree = st.tree) (hflags : st'.flags inode = st.flags inode) :
    Reaches k st' setImmutable path inode ↔ Reaches k st setImmutable path inode := by
  constructor
  · intro ⟨hnames, hread, hwrite⟩
    rw [htree] at hnames hread hwrite
    rw [hflags] at hwrite
    exact ⟨hnames, hread, hwrite⟩
  · intro ⟨hnames, hread, hwrite⟩
    rw [← htree] at hnames hread hwrite
    rw [← hflags] at hwrite
    exact ⟨hnames, hread, hwrite⟩

/-- **The loop** brings about the bit of exactly those files that its paths reach. -/
theorem chattrEach_reaches {setImmutable : Bool} : ∀ {paths : List Str} {st : Storage},
    st.immutable inode ≠ setImmutable → ((chattrEach k setImmutable paths st).2.immutable inode = setImmutable ↔
      ∃ path ∈ paths, Reaches k st setImmutable path inode)
  | [], st => by
    intro hbit
    simp [chattrEach, hbit]
  | path :: paths, st => by
    intro hbit
    simp only [List.exists_mem_cons_iff]
    unfold chattrEach
    cases happly : st.applyImmutableFlag k path setImmutable with
    | ok st' =>
      obtain ⟨target, hopen, ⟨htree, -⟩, himm⟩ := applyImmutableFlag_ok happly
      dsimp only
      by_cases hsame : inode = target
      · subst hsame
        refine iff_of_true (chattrEach_stays ?_) (.inl ((applyImmutableFlag_reaches hopen hbit).mp ⟨_, happly⟩))
        rw [himm, if_pos rfl]
      · obtain ⟨-, hflags⟩ := applyImmutableFlag_other happly hopen hsame
        have hbit' : st'.immutable inode ≠ setImmutable := by
          rw [himm, if_neg hsame]
          exact hbit
        have hnot : ¬Reaches k st setImmutable path inode := by
          intro hreaches
          cases hopen.symm.trans (names_iff.mpr hreaches.names)
          exact hsame rfl
        rw [chattrEach_reaches hbit', or_iff_right hnot]
        simp only [Reaches.congr htree hflags]
    | error e =>
      have hnot : ¬Reaches k st setImmutable path inode := by
        intro hreaches
        obtain ⟨st', hok⟩ := (applyImmutableFlag_reaches (names_iff.mpr hreaches.names) hbit).mpr hreaches
        cases happly.symm.trans hok
      rw [or_iff_right hnot]
      dsimp only
      split
      · exact chattrEach_reaches hbit
      · exact chattrEach_reaches hbit

/-- The flag of a file that no path leads to stays as it is. -/
theorem chattrEach_other {setImmutable : Bool} {paths : List Str}
    (hpaths : ∀ path ∈ paths, openVerifiedTarget k st.tree path ≠ .ok inode) :
    (chattrEach k setImmutable paths st).2.immutable inode = st.immutable inode := by
  by_cases hbit : st.immutable inode = setImmutable
  · rw [chattrEach_stays hbit, hbit]
  · have hnot : (chattrEach k setImmutable paths st).2.immutable inode ≠ setImmutable := by
      intro hset
      obtain ⟨path, hpath, hreaches⟩ := (chattrEach_reaches hbit).mp hset
      exact hpaths path hpath (names_iff.mpr hreaches.names)
    rw [Bool.eq_not_of_ne hnot, Bool.eq_not_of_ne hbit]

/-- `+i` sets flags of files the paths lead to only. -/
theorem chattrEach_locks {setImmutable : Bool} {paths : List Str}
    (h : (chattrEach k setImmutable paths st).2.immutable inode = true) (hnot : st.immutable inode = false) :
    ∃ path ∈ paths, openVerifiedTarget k st.tree path = .ok inode := by
  by_contra hno
  rw [chattrEach_other fun path hpath hopen => hno ⟨path, hpath, hopen⟩, hnot] at h
  cases h

/-- `-i` without an error leaves no flag of a file that a path names. -/
theorem chattrEach_unlocks : ∀ {paths : List Str} {st : Storage}, (chattrEach k false paths st).1 = [] →
    ∀ path ∈ paths, ∀ dir name o, Names st.tree path dir name o →
      (chattrEach k false paths st).2.immutable o.stat.identity = false
  | [], _ => fun _ _ h => absurd h List.not_mem_nil
  | path :: paths, st => by
    unfold chattrEach
    split
    · next st' hok =>
      intro herrors
      obtain ⟨target, hopen, ⟨htree, -⟩, himm⟩ := applyImmutableFlag_ok hok
      rw [List.forall_mem_cons]
      refine ⟨fun dir name o hnames => chattrEach_stays ?_, htree ▸ chattrEach_unlocks herrors⟩
      have hsame : o.stat.identity = target := by
        rcases @Names.opens k _ _ _ _ _ hnames with hopen' | ⟨e, hopen', -⟩
        · rw [hopen] at hopen'
          exact (Except.ok.inj hopen').symm
        · rw [hopen] at hopen'
          cases hopen'
      rw [himm, if_pos hsame]
    · next e herr =>
      split
      · next hskip =>
        intro herrors
        rw [List.forall_mem_cons]
        refine ⟨fun dir name o hnames => ?_, chattrEach_unlocks herrors⟩
        have hmissing : e.rawOsError = some .ENOENT := by simpa using hskip
        exact absurd hmissing (applyImmutableFlag_error hnames herr)
      · exact fun herrors => by cases herrors

/-! ## Without a refusal -/

theorem applyImmutableFlag_willing (hk : k.Willing) {setImmutable : Bool}
    (hopen : openVerifiedTarget k st.tree path = .ok inode) :
    ∃ st', st.applyImmutableFlag k path setImmutable = .ok st' := by
  have hread : st.readInodeFlags k inode path = .ok (st.flags inode) := by
    rw [readInodeFlags, (hk st.tree inode 0).1]
  unfold applyImmutableFlag
  rw [hopen]
  simp only [bind, Except.bind, hread, writeInodeFlags, (hk st.tree inode _).2]
  split
  · exact ⟨_, rfl⟩
  · exact ⟨_, rfl⟩

/-- What a path leads to gets its flag. -/
theorem chattrEach_sets (hk : k.Willing) {setImmutable : Bool} {paths : List Str}
    (hopened : ∃ path ∈ paths, openVerifiedTarget k st.tree path = .ok inode) :
    (chattrEach k setImmutable paths st).2.immutable inode = setImmutable := by
  by_cases hbit : st.immutable inode = setImmutable
  · exact chattrEach_stays hbit
  · obtain ⟨path, hpath, hopen⟩ := hopened
    obtain ⟨hread, hwrite⟩ := hk st.tree inode (withImmutableBit (st.flags inode) setImmutable)
    exact (chattrEach_reaches hbit).mpr ⟨path, hpath, names_iff.mp hopen, hread, hwrite⟩

/-- Nothing to complain of: each path leads to a file, or nothing is there. -/
theorem chattrEach_quiet (hk : k.Willing) : ∀ {paths : List Str} {st : Storage},
    (∀ path ∈ paths, (∃ inode, openVerifiedTarget k st.tree path = .ok inode) ∨
      ∃ e, openVerifiedTarget k st.tree path = .error e ∧ e.rawOsError = some .ENOENT) →
    (chattrEach k false paths st).1 = []
  | [], _ => fun _ => rfl
  | path :: paths, st => by
    intro hpaths
    rw [List.forall_mem_cons] at hpaths
    rcases hpaths.1 with ⟨inode, hopen⟩ | ⟨e, hopen, hmissing⟩
    · obtain ⟨st', hok⟩ := @applyImmutableFlag_willing _ _ _ _ hk false hopen
      obtain ⟨-, -, ⟨htree, -⟩, -⟩ := applyImmutableFlag_ok hok
      rw [chattrEach, hok]
      exact chattrEach_quiet hk (htree ▸ hpaths.2)
    · have herr : st.applyImmutableFlag k path false = .error e := by
        rw [applyImmutableFlag, hopen]
        rfl
      rw [chattrEach, herr]
      simp only [hmissing, Bool.not_false, beq_self_eq_true, Bool.and_self, if_true]
      exact chattrEach_quiet hk hpaths.2

end Storage

end SecureSudoers
