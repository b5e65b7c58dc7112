/-
What an installation that succeeds has put in place stays: as long as no flag is
cleared, no call that anyone makes on a file changes what the wrapper verifies
(`installed_stays`).

The managed files themselves are immutable then, and so is the way to them: it
leads over directories and links, and these are no files.
-/
import SecureSudoers.Check
import SecureSudoers.Locked
import SecureSudoers.PolicyReaders
import SecureSudoers.UpdateStorage

namespace SecureSudoers

open Relation

/-! ## What stays -/

/-- A call on a file, by anyone and in any directory. -/
def AnyChange (st st' : Storage) : Prop := ∃ (k : Refusals) (dir : List Bytes), Change k dir st st'

/-- What is immutable keeps its octets, too. -/
structure Freezes (st st' : Storage) : Prop extends Keeps st st' where
  content {inode : ExecutableIdentity} : st.immutable inode = true → st'.content inode = st.content inode

variable {st st' st'' : Storage} {inode : ExecutableIdentity} {k : Refusals} {dir : List Bytes}

theorem Freezes.refl : Freezes st st := ⟨.refl, fun _ => rfl⟩

theorem Freezes.trans (h : Freezes st st') (h' : Freezes st' st'') : Freezes st st'' where
  toKeeps := h.toKeeps.trans h'.toKeeps
  content hi := (h'.content (h.immutable hi)).trans (h.content hi)

theorem change_freezes (h : Change k dir st st') : Freezes st st' where
  toKeeps := change_keeps h
  content {inode} hi := by
    cases h with
    | @write other bytes hnot =>
      have hne : inode ≠ other := by
        intro he
        rw [← he, hi] at hnot
        cases hnot
      exact Function.update_of_ne hne _ _
    | create | chmod | rename | unlink | lock => rfl

theorem changes_freeze (h : ReflTransGen AnyChange st st') : Freezes st st' := by
  induction h with
  | refl => exact .refl
  | tail _ hstep ih =>
    obtain ⟨k, dir, hchange⟩ := hstep
    exact ih.trans (change_freezes hchange)

/-! ## Commands as calls -/

theorem any_of_changes (h : ReflTransGen (Change k dir) st st') : ReflTransGen AnyChange st st' :=
  h.lift id fun _ _ hchange => ⟨k, dir, hchange⟩

theorem any_write {bytes : Bytes} (h : st.immutable inode = false) : AnyChange st (st.write inode bytes) :=
  ⟨noRefusals, [], .write h⟩

theorem any_of_meanwhile {Key : Type} {paths : InstallPaths} (h : Meanwhile Key paths st st') :
    ReflTransGen AnyChange st st' := by
  cases h with
  | update _ _ _ _ hchanges _ => exact any_of_changes hchanges
  | spoil _ hnot => exact .single (any_write hnot)

/-- A new file, which is empty. -/
theorem any_create {name : Bytes} {o : Object} (hdir : st.tree.kindAt dir = .dir) (hname : IsEntryName name)
    (hnone : st.tree.entry dir name = none) (hfile : o.kind = .file) (hnot : st.immutable o.stat.identity = false) :
    ReflTransGen AnyChange st ((st.withTree (st.tree.set dir name (some o))).write o.stat.identity []) := by
  have hobj : st.tree.object (dir ++ [name]) = none := by
    rwa [Tree.entry, if_pos ⟨hdir, hname⟩] at hnone
  have hcreate : AnyChange st (st.withTree (st.tree.set dir name (some o))) :=
    ⟨noRefusals, dir, .create hdir hobj hfile⟩
  exact .tail (.single hcreate) (any_write hnot)

namespace SigningHost

variable {host : SigningHost} {path : Str} {bytes : Bytes}

theorem any_openForWriting (hnew : st.immutable (host.newInode st) = false) {name : Bytes} (hname : IsEntryName name)
    (h : host.openForWriting st dir name = .ok (inode, st')) :
    ReflTransGen AnyChange st st' ∧ st'.immutable inode = false := by
  unfold openForWriting at h
  split at h
  · cases h
  · split at h
    · cases h
    · next hdir =>
      split at h
      · next hnone =>
        cases h
        exact ⟨any_create (not_not.mp hdir) hname hnone rfl hnew, hnew⟩
      · next o _ =>
        split at h
        · cases h
        · cases h
        · split at h
          · cases h
          · next hnot =>
            cases h
            have hnot := Bool.eq_false_iff.mpr hnot
            exact ⟨.single (any_write hnot), hnot⟩

theorem any_writeFile (hnew : st.immutable (host.newInode st) = false) :
    ReflTransGen AnyChange st (host.writeFileSecurelyWithoutFollowingSymlinks st path bytes).2 := by
  unfold writeFileSecurelyWithoutFollowingSymlinks
  split
  · exact .refl
  · split
    · exact .refl
    · split
      · exact .refl
      · split
        · exact .refl
        · next fileName hname =>
          split
          · exact .refl
          · next hnul =>
            split
            · exact .refl
            · next inode st₁ hopen =>
              have hentry := isEntryName_encode.mpr ⟨Path.isName_of_fileName hname, hnul⟩
              obtain ⟨hopened, hnot⟩ := any_openForWriting hnew hentry hopen
              have hwrite : ∀ written, ReflTransGen AnyChange st (st₁.write inode written) :=
                fun _ => hopened.tail (any_write hnot)
              unfold writeAll
              split
              · exact hwrite _
              · split
                · exact hwrite _
                · exact hwrite _

/-- Signing is a run of calls, on a new file or one that is not immutable. -/
theorem any_cmdSign {keyPath : Str} (hnew : st.immutable (host.newInode st) = false) :
    ReflTransGen AnyChange st (host.cmdSign st path keyPath).2 := by
  unfold cmdSign cmdSignWithBeforeRead
  split
  · exact .refl
  · split
    · exact .refl
    · dsimp only [id]
      split
      · exact .refl
      · exact any_writeFile hnew

end SigningHost

namespace KeyRun

variable {g : KeyRun} {path label : Str} {mode : Nat} {bytes : Bytes}

theorem any_createNew (hname : IsEntryName (Utf8.encode path)) (hnew : st.immutable (g.newInode path) = false)
    (h : g.createNew st path mode = .ok st') : ReflTransGen AnyChange st st' ∧ st'.flags = st.flags ∧
      st'.tree.entry g.cwd (Utf8.encode path) = some (g.newFile path (mode ^^^ (mode &&& g.umask))) := by
  unfold createNew at h
  split at h
  · cases h
  · split at h
    · cases h
    · next hdir =>
      split at h
      · cases h
      · next hnone =>
        cases h
        have hdir := not_not.mp hdir
        have hnone : st.tree.entry g.cwd (Utf8.encode path) = none := by simpa using hnone
        exact ⟨any_create hdir hname hnone rfl hnew, rfl, (Tree.entry_set hdir hname).trans (if_pos rfl)⟩

theorem any_writeKeyFile (hname : IsEntryName (Utf8.encode path)) (hnew : st.immutable (g.newInode path) = false) :
    ReflTransGen AnyChange st (g.writeKeyFile st path label bytes mode).2 ∧
      (g.writeKeyFile st path label bytes mode).2.flags = st.flags := by
  unfold writeKeyFile
  extract_lets content
  split
  · exact ⟨.refl, rfl⟩
  · next created hcreate =>
    obtain ⟨hcalls, hflags, hentry⟩ := any_createNew hname hnew hcreate
    have hnot : created.immutable (g.newInode path) = false := by
      rw [Storage.immutable, hflags]
      exact hnew
    -- the mode is set and the octets are written
    have hplace : ∀ content, ReflTransGen AnyChange st (g.place created path mode content) := by
      intro content
      have hmode : AnyChange created (created.withTree (created.tree.set g.cwd (Utf8.encode path)
          (some (g.newFile path mode)))) := ⟨noRefusals, g.cwd, .chmod hentry rfl hnot⟩
      exact (hcalls.tail hmode).tail (any_write hnot)
    split
    · exact ⟨hcalls, hflags⟩
    · split
      · exact ⟨hplace _, hflags⟩
      · split
        · exact ⟨hplace _, hflags⟩
        · exact ⟨hplace _, hflags⟩

/-- So is the generation of keys. -/
theorem any_cmdGenKeys (hnew : ∀ path, g.before.immutable (g.newInode path) = false) :
    ReflTransGen AnyChange g.before g.cmdGenKeys.2 := by
  obtain ⟨hfirst, hflags⟩ := @any_writeKeyFile g.before g PRIVATE_KEY_FILE "SECURE SUDOERS PRIVATE KEY" 0o600
    g.signingKey private_name (hnew _)
  unfold cmdGenKeys
  split
  · next e st heq =>
    rw [heq] at hfirst
    exact hfirst
  · next st heq =>
    rw [heq] at hfirst hflags
    refine hfirst.trans (any_writeKeyFile public_name ?_).1
    rw [Storage.immutable, hflags]
    exact hnew _

end KeyRun

/-! ## Ways that stay -/

/-- What is at `q` is no file, or an immutable one. -/
def Storage.Fixed (st : Storage) (q : List Bytes) : Prop :=
  ∃ o, st.tree.object q = some o ∧ (o.kind = .file → st.immutable o.stat.identity = true)

theorem Keeps.fixed {q : List Bytes} (h : Keeps st st') (hq : st.Fixed q) : st'.tree.object q = st.tree.object q := by
  obtain ⟨o, ho, hfile⟩ := hq
  rw [h.object ho hfile, ho]

theorem fixed_of_dir {q : List Bytes} (h : st.tree.kindAt q = .dir) : st.Fixed q := by
  unfold Tree.kindAt at h
  cases ho : st.tree.object q with
  | none => simp [ho] at h
  | some o => exact ⟨o, ho, fun hfile => by simp [ho, hfile] at h⟩

/-- A way to what is fixed stays. -/
theorem Keeps.resolves (h : Keeps st st') {cur e : List Bytes} {segs : List Segment} {targets : List Bytes}
    {visited : List (List Bytes)} (hr : Resolves st.tree.fs cur segs targets visited e) (he : st.Fixed e) :
    Resolves st'.tree.fs cur segs targets visited e ∧ st.Fixed cur := by
  induction hr with
  | done => exact ⟨.done, he⟩
  | @parent cur _ _ _ _ hk _ ih =>
    have hk : st.tree.kindAt cur = .dir := hk
    exact ⟨.parent ((h.ways.kindAt (by simp [hk])).trans hk) (ih he).1, fixed_of_dir hk⟩
  | @name cur d e n rest _ _ hl hs _ ih =>
    obtain ⟨hrest, hd⟩ := ih he
    have hsame := h.fixed hd
    obtain ⟨o, ho, -⟩ := hd
    obtain ⟨⟨o', hentry⟩, rfl⟩ := Tree.lookupAt_some.mp hl
    obtain ⟨hcur, hn, -⟩ := Tree.entry_some.mp hentry
    have hcur' : st'.tree.kindAt cur = .dir := (h.ways.kindAt (by simp [hcur])).trans hcur
    have hl' : st'.tree.fs.lookup cur n = some (cur ++ [n]) :=
      Tree.lookupAt_some.mpr ⟨⟨o, Tree.entry_some.mpr ⟨hcur', hn, hsame.trans ho⟩⟩, rfl⟩
    have hs' : st'.tree.fs.isSymlink (cur ++ [n]) = false := by
      have hkind : st'.tree.fs.kind (cur ++ [n]) = st.tree.fs.kind (cur ++ [n]) :=
        congrArg (·.elim Kind.file Object.kind) hsame
      rw [FileSystem.isSymlink, hkind]
      exact hs
    exact ⟨.name hl' hs' hrest, fixed_of_dir hcur⟩
  | @link cur d e n target rest _ _ hl hk _ ih =>
    have hk' : st.tree.kindAt d = .symlink target := hk
    have hd' : st'.tree.fs.kind d = .symlink target := (h.ways.kindAt (by simp [hk'])).trans hk'
    exact ⟨.link (h.ways.lookupAt hl (by simp [hk'])) hd' (ih he).1, fixed_of_dir (Tree.lookupAt_ok hl).1⟩

/-! ## What a path names -/

variable {path parent name : Str} {t t' : Tree} {o : Object} {targets : List Bytes} {visited : List (List Bytes)}

theorem segments_of_parent (habs : Path.isAbsolute path = true) (hparent : Path.parent path = some parent)
    (hname : Path.fileName path = some name) :
    segments (Utf8.encode path) = segments (Utf8.encode parent) ++ [.name (Utf8.encode name)] := by
  have hcomponents := Path.components_abs habs
  have hlast : (Path.components path).getLast? = some (.normal name) := by
    unfold Path.fileName at hname
    split at hname
    · next n hlast => rw [hlast, Option.some.inj hname]
    · cases hname
  obtain ⟨front, hfront⟩ := List.getLast?_eq_some_iff.mp hlast
  cases front with
  | nil => simp [hcomponents] at hfront
  | cons c body =>
    obtain ⟨rfl, hbody⟩ := List.cons.inj (hcomponents.symm.trans hfront)
    have hbody : Path.body path = body ++ [.normal name] := hbody
    have hcollect : parent = Path.collect (.rootDir :: body) := by
      rw [Path.parent, hlast, hfront, List.dropLast_concat] at hparent
      exact (Option.some.inj hparent).symm
    have hinner : ∀ c ∈ body, Path.Inner c := by
      intro c hc
      refine @Path.inner_of_mem_body path c ?_
      rw [hbody]
      exact List.mem_append_left _ hc
    have hroot : Path.push [] ['/'] = ['/'] := by decide
    obtain ⟨-, hsame⟩ := @Path.body_foldl_push body ['/'] rfl hinner
    have hparentBody : Path.body parent = body := by
      rw [hcollect, Path.collect, List.foldl_cons, Component.asOsStr, hroot, hsame, Path.body_slash, Path.body_nil,
        List.nil_append]
    rw [segments_encode, segments_encode, hbody, hparentBody, List.filterMap_append]
    rfl

/-- The way to the directory of what a path names. -/
theorem Names.way (h : Names t path dir name o) : ∃ segs targets visited,
    segments (Utf8.encode path) = segs ++ [.name (Utf8.encode name)] ∧
      Resolves t.fs t.fs.root segs targets visited dir ∧ targets.length ≤ MAX_SYMLINK_DEPTH ∧ TextTargets targets := by
  obtain ⟨parent, p, hparent, hcheck⟩ := h.parent
  obtain ⟨-, targets, visited, hr, hlen, htext, -⟩ := checkPath_accepts.mp hcheck
  exact ⟨_, targets, visited, segments_of_parent h.absolute hparent h.fileName, hr, hlen, htext⟩

theorem Names.lookup (h : Names t path dir name o) :
    t.fs.lookup dir (Utf8.encode name) = some (dir ++ [Utf8.encode name]) :=
  Tree.lookupAt_some.mpr ⟨⟨o, h.entry⟩, rfl⟩

theorem Names.isSymlink (h : Names t path dir name o) : t.fs.isSymlink (dir ++ [Utf8.encode name]) = false := by
  have hobj := (Tree.entry_some.mp h.entry).2.2
  have hkind : t.fs.kind (dir ++ [Utf8.encode name]) = o.kind := congrArg (·.elim Kind.file Object.kind) hobj
  rw [FileSystem.isSymlink, hkind]
  cases hk : o.kind with
  | symlink target => exact absurd hk h.no_link
  | dir | file => rfl

/-- What a path names is locked. -/
structure LockedAt (st : Storage) (path : Str) (dir : List Bytes) (name : Str) (o : Object) : Prop extends
    Names st.tree path dir name o where
  immutable : st.immutable o.stat.identity = true

namespace LockedAt

variable {host : SigningHost} {label : Str}

theorem object (h : LockedAt st path dir name o) : st.tree.object (dir ++ [Utf8.encode name]) = some o :=
  (Tree.entry_some.mp h.entry).2.2

theorem fixed (h : LockedAt st path dir name o) : st.Fixed (dir ++ [Utf8.encode name]) :=
  ⟨o, h.object, fun _ => h.immutable⟩

theorem keeps (h : LockedAt st path dir name o) (hkeeps : Keeps st st') : LockedAt st' path dir name o where
  toNames := h.toNames.keeps hkeeps h.immutable
  immutable := hkeeps.immutable h.immutable

/-- `check_path` finds what is named. -/
theorem checkPath (h : LockedAt st path dir name o) : SecureSudoers.checkPath st.tree.fs path .positional [] =
    finish st.tree.fs (dir ++ [Utf8.encode name]) := by
  obtain ⟨segs, targets, visited, hsegs, hr, hlen, htext⟩ := h.way
  have hway := hr.snoc h.lookup h.isSymlink
  rw [← hsegs] at hway
  exact checkPath_resolves h.absolute hway hlen htext (by simp [Unblocked])

/-- The kernel opens what is named, or refuses the path for what it says. -/
theorem openPath (h : LockedAt st path dir name o) {cwd : List Bytes} : st.tree.fs.openPath cwd (Utf8.encode path) =
    if PATH_MAX ≤ (Utf8.encode path).length then .error ENAMETOOLONG
    else if namesDirectory (Utf8.encode path) ∧ o.kind ≠ .dir then .error .ENOTDIR
    else .ok (dir ++ [Utf8.encode name]) := by
  obtain ⟨segs, targets, visited, hsegs, hr, hlen, -⟩ := h.way
  have hhead := head?_encode_slash.mpr h.absolute
  have hne : Utf8.encode path ≠ [] := by
    intro he
    simp [he] at hhead
  have hbase : st.tree.fs.base cwd (Utf8.encode path) = st.tree.fs.root := if_pos hhead
  have hfollow : st.tree.fs.follow MAXSYMLINKS st.tree.fs.root (segments (Utf8.encode path)) =
      .ok (dir ++ [Utf8.encode name]) := hsegs ▸ hr.follow_entry h.lookup h.isSymlink (Nat.le_trans hlen (by decide))
  have hkind : st.tree.fs.kind (dir ++ [Utf8.encode name]) = o.kind := congrArg (·.elim Kind.file Object.kind) h.object
  rw [openPath_eq, if_neg hne, hbase, hfollow]
  dsimp only
  rw [hkind]

theorem kindAt (h : LockedAt st path dir name o) : st.tree.kindAt (dir ++ [Utf8.encode name]) = o.kind :=
  congrArg (·.elim Kind.file Object.kind) h.object

theorem stat (h : LockedAt st path dir name o) : st.tree.fs.stat (dir ++ [Utf8.encode name]) = o.stat :=
  congrArg (·.elim {} Object.stat) h.object

/-- `std::fs::read` reads what it has read. -/
theorem read_same (h : LockedAt st path dir name o) (hfreezes : Freezes st st') : host.read st' path = host.read st path := by
  have h' := h.keeps hfreezes.toKeeps
  have hsame : st'.content o.stat.identity = st.content o.stat.identity := hfreezes.content h.immutable
  unfold SigningHost.read
  rw [h.openPath, h'.openPath]
  split
  · rfl
  · split
    · rfl
    · split
      · simp
      · next fd hopen =>
        have hfd : dir ++ [Utf8.encode name] = fd := by
          split at hopen
          · cases hopen
          · split at hopen
            · cases hopen
            · exact Except.ok.inj hopen
        rw [← hfd, h.kindAt, h'.kindAt, h.stat, h'.stat, hsame]

/-- `read_file_to_string_securely` reads what it has read. -/
theorem readText_same {reader : ReadHost} (h : LockedAt st path dir name o) (hfreezes : Freezes st st') :
    readFileToStringSecurely reader id st' path = readFileToStringSecurely reader id st path := by
  have h' := h.keeps hfreezes.toKeeps
  have hsame : st'.content o.stat.identity = st.content o.stat.identity := hfreezes.content h.immutable
  have habs : absolutePathStr reader path = .ok path := if_pos h.absolute
  unfold readFileToStringSecurely
  rw [habs]
  dsimp only
  have hfinish : finish st'.tree.fs (dir ++ [Utf8.encode name]) = finish st.tree.fs (dir ++ [Utf8.encode name]) := rfl
  rw [h.checkPath, h'.checkPath, hfinish]
  cases hok : finish st.tree.fs (dir ++ [Utf8.encode name]) with
  | error e => rfl
  | ok p =>
    obtain ⟨hfd, -⟩ := finish_ok.mp hok
    dsimp only [id]
    rw [hfd, h.kindAt, h'.kindAt, h.stat, h'.stat, hsame]

theorem readPem_same {reader : ReadHost} {engine : Base64Engine} (h : LockedAt st path dir name o)
    (hfreezes : Freezes st st') : readPemBytes engine reader st' path label = readPemBytes engine reader st path label := by
  unfold readPemBytes readPemBytesWithBeforeRead
  rw [h.readText_same hfreezes]

end LockedAt

/-! ## After an installation -/

variable {files : FileRefusals} {m : Machine} {paths : InstallPaths} {st₁ st₂ : Storage}

/-- A locking without an error has found each of its targets, and locked it. -/
theorem chattrEach_locked : ∀ {targets : List Str} {st : Storage}, (Storage.chattrEach files true targets st).1 = [] →
    ∀ path ∈ targets, ∃ dir name o, LockedAt (Storage.chattrEach files true targets st).2 path dir name o
  | [], _ => fun _ _ h => absurd h List.not_mem_nil
  | path :: targets, st => by
    unfold Storage.chattrEach
    split
    · next st' hok =>
      intro herrors
      obtain ⟨target, hopen, ⟨htree, -⟩, himm⟩ := Storage.applyImmutableFlag_ok hok
      obtain ⟨dir, name, o, hnames, hid⟩ := openVerifiedTarget_ok hopen
      rw [List.forall_mem_cons]
      refine ⟨⟨dir, name, o, ?_, Storage.chattrEach_stays ?_⟩, chattrEach_locked herrors⟩
      · rw [Storage.chattrEach_same.1, htree]
        exact hnames
      · rw [himm, if_pos hid]
    · intro herrors
      simp at herrors

theorem installErrors_ok {linkErrors lockErrors : List Str} (h : installErrors linkErrors lockErrors = .ok ()) :
    lockErrors = [] := by
  unfold installErrors at h
  extract_lets errorSections at h
  by_contra hne
  have hsections : errorSections ≠ [] := by
    intro hnil
    have hlast := (List.append_eq_nil_iff.mp hnil).2
    rw [if_neg hne] at hlast
    cases hlast
  rw [if_neg hsections] at h
  cases h

/-- An installation that succeeds has locked the files that are managed whatever the tools are. -/
theorem installWithPaths_locked (h : st.installWithPaths m paths = (.ok (), st₁)) :
    ∀ path ∈ paths.fixed, ∃ dir name o, LockedAt st₁ path dir name o := by
  intro path hpath
  unfold Storage.installWithPaths Storage.installWithPathsAndPubkey at h
  split at h
  · cases (Prod.mk.inj h).1
  · extract_lets toolNames links at h
    split at h
    · cases (Prod.mk.inj h).1
    · next st' _ =>
      rw [Storage.chattrOp_plus] at h
      obtain ⟨herrors, rfl⟩ := Prod.mk.inj h
      exact chattrEach_locked (installErrors_ok herrors) path (mem_managedTargets.mpr (.inl hpath))

/-- What may go on while the flags stay set: commands of the utilities, and calls of anyone else. -/
inductive Activity (Key : Type) (paths : InstallPaths) (st : Storage) : Storage → Prop where
  | call {k : Refusals} {dir : List Bytes} {st' : Storage} : Change k dir st st' → Activity Key paths st st'
  /-- An attempt to update the policy, or the policy is written to. -/
  | meanwhile {st' : Storage} : Meanwhile Key paths st st' → Activity Key paths st st'
  | sign {host : SigningHost} {policyPath keyPath : Str} : st.immutable (host.newInode st) = false →
      Activity Key paths st (host.cmdSign st policyPath keyPath).2
  | genKeys {g : KeyRun} : g.before = st → (∀ path, st.immutable (g.newInode path) = false) →
      Activity Key paths st g.cmdGenKeys.2

variable {Key : Type}

theorem activity_any (h : Activity Key paths st st') : ReflTransGen AnyChange st st' := by
  cases h with
  | call hchange => exact .single ⟨_, _, hchange⟩
  | meanwhile hmeanwhile => exact any_of_meanwhile hmeanwhile
  | sign hnew => exact SigningHost.any_cmdSign hnew
  | genKeys hbefore hnew =>
    subst hbefore
    exact KeyRun.any_cmdGenKeys hnew

theorem activities_freeze (h : ReflTransGen (Activity Key paths) st st') : Freezes st st' := by
  induction h with
  | refl => exact .refl
  | tail _ hstep ih => exact ih.trans (changes_freeze (activity_any hstep))

/-- **What is installed stays.** After an installation that succeeds, whatever updates
are attempted, signatures and keys made and calls on files carried out, the wrapper
finds and verifies the same policy, octet for octet, or refuses it for the same
reason, as long as no flag is cleared. -/
theorem installed_stays {host : SigningHost} (hinstall : st.installWithPaths m paths = (.ok (), st₁))
    (hactivities : ReflTransGen (Activity Key paths) st₁ st₂) :
    host.verifiedPolicy st₂ paths.policyPath paths.publicKeyPath =
      host.verifiedPolicy st₁ paths.policyPath paths.publicKeyPath := by
  have hfreezes := activities_freeze hactivities
  have hlocked := installWithPaths_locked hinstall
  obtain ⟨dir, name, o, hpolicy⟩ := hlocked paths.policyPath (by simp [InstallPaths.fixed])
  obtain ⟨dir', name', o', hkey⟩ := hlocked paths.publicKeyPath (by simp [InstallPaths.fixed])
  obtain ⟨dir'', name'', o'', hsig⟩ := hlocked (paths.policyPath ++ ".sig") (by simp [InstallPaths.fixed])
  unfold SigningHost.verifiedPolicy
  rw [hpolicy.read_same hfreezes, hkey.readPem_same hfreezes]
  dsimp only
  rw [hsig.read_same hfreezes]

/-! ### A run that signs in between -/

/-- Where each target can be opened and the kernel is willing, all are locked. -/
theorem chattrEach_opens (hk : files.Willing) : ∀ {targets : List Str} {st : Storage},
    (∀ path ∈ targets, (openVerifiedTarget files st.tree path).toOption.isSome = true) →
      (Storage.chattrEach files true targets st).1 = []
  | [], _ => fun _ => rfl
  | path :: targets, st => by
    intro hopened
    rw [List.forall_mem_cons] at hopened
    obtain ⟨st', hok⟩ := @Storage.applyImmutableFlag_willing _ _ _ _ hk true (eq_ok_get hopened.1)
    obtain ⟨-, -, ⟨htree, -⟩, -⟩ := Storage.applyImmutableFlag_ok hok
    rw [Storage.chattrEach, hok]
    exact chattrEach_opens hk (htree ▸ hopened.2)

/-- The installation of one tool succeeds: it is linked, the drop-in is written and each target can be opened. -/
structure Installs (m : Machine) (paths : InstallPaths) (st : Storage) (tool : Str) : Prop where
  keys : (loadPolicyWithVerifiedSignature (m.host st) st.tree paths.policyPath paths.publicKeyPath).toOption.map
    (·.tools.keys) = some [tool]
  links : (installToolLinksTo (st.guarded m.refusals) m.euid st.tree [tool] paths.binary
    paths.entryPointDir).successful = [tool]
  errors : (installToolLinksTo (st.guarded m.refusals) m.euid st.tree [tool] paths.binary
    paths.entryPointDir).errors = []
  written : (dropInWritten m paths [tool] st).1 = .ok ()
  willing : m.files.Willing
  opened : ∀ path ∈ paths.fixed ++ [Path.push paths.entryPointDir tool],
    (openVerifiedTarget m.files (afterDropIn m paths [tool] st).tree path).toOption.isSome = true

theorem Installs.run {tool : Str} (h : Installs m paths st tool) : st.installWithPaths m paths =
    (.ok (), (Storage.chattrEach m.files true (managedTargets paths [tool]) (afterDropIn m paths [tool] st)).2) := by
  obtain ⟨policy, hload, hkeys⟩ : ∃ policy, loadPolicyWithVerifiedSignature (m.host st) st.tree paths.policyPath
      paths.publicKeyPath = .ok policy ∧ policy.tools.keys = [tool] := by
    have hkeys := h.keys
    generalize loadPolicyWithVerifiedSignature _ _ _ _ = loaded at hkeys
    cases loaded with
    | error _ => cases hkeys
    | ok policy => exact ⟨policy, rfl, Option.some.inj hkeys⟩
  have hwritten : dropInWritten m paths [tool] st = (.ok (), afterDropIn m paths [tool] st) := Prod.ext h.written rfl
  unfold dropInWritten at hwritten
  have hquiet : (Storage.chattrEach m.files true (managedTargets paths [tool]) (afterDropIn m paths [tool] st)).1 = [] := by
    refine chattrEach_opens h.willing fun path hpath => h.opened path ?_
    simpa using mem_managedTargets.mp hpath
  unfold Storage.installWithPaths Storage.installWithPathsAndPubkey
  rw [hload]
  simp only [hkeys, List.mergeSort_singleton, h.links, hwritten, Storage.chattrOp_plus, hquiet, h.errors]
  rfl

theorem verifiedPolicy_congr {host : SigningHost} {path pubkeyPath : Str} (htree : st'.tree = st.tree)
    (hcontent : st'.content = st.content) :
    host.verifiedPolicy st' path pubkeyPath = host.verifiedPolicy st path pubkeyPath := by
  cases st
  cases st'
  cases htree
  cases hcontent
  rfl

/-- The files of `etcStorage`, the rest of what is managed, and a key to sign with. -/
def etcManaged : Storage where
  tree := .ofList [(["etc"], .directory), (["etc", "secure-sudoers"], .directory),
    (["etc", "secure-sudoers", "policy.json"], .file 1), (["etc", "secure-sudoers", "policy.json.sig"], .file 2),
    (["etc", "secure-sudoers", "secure_sudoers_public_key.pem"], .file 3), (["etc", "sudoers.d"], .directory),
    (["usr"], .directory), (["usr", "local"], .directory), (["usr", "local", "bin"], .directory),
    (["usr", "local", "bin", "secure-sudoers"], .file 10), (["usr", "local", "bin", "secure-sudoers-utils"], .file 11),
    (["key.pem"], .file 12)]
  flags _ := 0
  content inode := if inode.ino = 12 then policyStorage.content { dev := 0, ino := 2 } else etcStorage.content inode

def etcMachine : Machine where
  refusals _ _ := none
  files := allOpen
  cwd := []
  euid := 0
  loadVerifyingKey st path := ((policyHost none).loadVerifyingKey st path).mapError ReadError.toError
  verify := policyScheme.verify
  fromSlice := (policyHost none).fromSlice
  regexNew := defaultRegexNew
  newInode _ := { dev := 0, ino := 99 }
  dropIn _ := none
  written := 0
  visudo _ _ := .ok { success := true, stdout := [], stderr := [] }
  readDir _ _ := .error .ENOENT

theorem etcManaged_installs : Installs etcMachine {} etcManaged "apt" where
  keys := by decide +kernel
  links := by decide +kernel
  errors := by decide +kernel
  written := by decide +kernel
  willing := outOfFiles_willing
  opened := by decide +kernel

/-- The policy is installed and then signed again; it is verified all the same. -/
theorem installed_stays_signed : ∃ st₁, etcManaged.installWithPaths etcMachine {} = (.ok (), st₁) ∧
    (policyHost none).verifiedPolicy ((policyHost none).cmdSign st₁ POLICY_PATH "/key.pem").2 POLICY_PATH
      PUBLIC_KEY_PATH = .ok (Utf8.encode policyText) := by
  have hrun := etcManaged_installs.run
  obtain ⟨htree, hcontent⟩ := @Storage.chattrEach_same etcMachine.files true (managedTargets {} ["apt"])
    (afterDropIn etcMachine {} ["apt"] etcManaged)
  have hnew : ((Storage.chattrEach etcMachine.files true (managedTargets {} ["apt"])
      (afterDropIn etcMachine {} ["apt"] etcManaged)).2).immutable ⟨0, 9⟩ = false := by
    have hbefore : (afterDropIn etcMachine {} ["apt"] etcManaged).immutable ⟨0, 9⟩ = false := by decide +kernel
    have hother : ∀ path ∈ ({} : InstallPaths).fixed ++ [Path.push ({} : InstallPaths).entryPointDir "apt"],
        openVerifiedTarget etcMachine.files (afterDropIn etcMachine {} ["apt"] etcManaged).tree path ≠ .ok ⟨0, 9⟩ := by
      decide +kernel
    rw [Storage.chattrEach_other, hbefore]
    intro path hpath
    refine hother path ?_
    simpa using mem_managedTargets.mp hpath
  refine ⟨_, hrun, ?_⟩
  have hsign := @Activity.sign Unit {} _ (policyHost none) POLICY_PATH "/key.pem" hnew
  have hstays := @installed_stays etcManaged etcMachine {} _ _ Unit (policyHost none) hrun (.single hsign)
  refine hstays.trans ((verifiedPolicy_congr htree hcontent).trans ?_)
  decide +kernel

end SecureSudoers
