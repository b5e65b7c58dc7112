/-
The key pair that `gen-keys` writes into the working directory (`keys.rs`).

Each file is made by an exclusive create of its own, and nothing is taken back.
`cmdGenKeys_whole`: the two files are as before or the new pair exactly if the
private key cannot be created or nothing fails at all. `stale_public_key` is the
run that finds a public key only.
-/
import SecureSudoers.Pem

namespace SecureSudoers

def PRIVATE_KEY_FILE : Str := "secure_sudoers_private_key.pem"
def PUBLIC_KEY_FILE : Str := "secure_sudoers_public_key.pem"

/-! ## `cmd_gen_keys` -/

/-- What is done with a key file. -/
inductive KeyFileCall where
  | create
  | setPermissions
  | writeAll
  deriving DecidableEq, Repr

/-- A run of `gen-keys`: what it finds, and what fails. -/
structure KeyRun where
  engine : Base64Engine
  before : Storage
  cwd : List Bytes
  euid : Nat
  umask : Nat
  /-- `SigningKey::generate`. -/
  signingKey : Bytes
  verifyingKey : Bytes → Bytes
  fails (call : KeyFileCall) (path : Str) : Option Errno
  /-- How much a write that fails has written. -/
  written (path : Str) : Nat
  /-- The inode a new file gets. -/
  newInode (path : Str) : ExecutableIdentity
  unused {path : Str} {q : List Bytes} {o : Object} : before.tree.object q = some o → o.stat.identity ≠ newInode path
  distinct : newInode PRIVATE_KEY_FILE ≠ newInode PUBLIC_KEY_FILE

namespace KeyRun

variable (g : KeyRun)

def newFile (path : Str) (mode : Nat) : Object :=
  let inode := g.newInode path
  { Object.file inode.ino with stat := { dev := inode.dev, ino := inode.ino, uid := g.euid, mode } }

/-- The storage with this file under the name. -/
def place (st : Storage) (path : Str) (mode : Nat) (bytes : Bytes) : Storage :=
  (st.withTree (st.tree.set g.cwd (Utf8.encode path) (some (g.newFile path mode)))).write (g.newInode path) bytes

/-- `open` with `create_new` and `O_NOFOLLOW`, of a name in the working directory. -/
def createNew (st : Storage) (path : Str) (mode : Nat) : Except Errno Storage :=
  match g.fails .create path with
  | some e => .error e
  | none =>
    if st.tree.kindAt g.cwd ≠ .dir then .error .ENOENT
    else if (st.tree.entry g.cwd (Utf8.encode path)).isSome then .error .EEXIST
    else .ok (g.place st path (mode ^^^ (mode &&& g.umask)) [])

def writeKeyFile (st : Storage) (path label : Str) (bytes : Bytes) (unixMode : Nat) : Except Error Unit × Storage :=
  let content := Utf8.encode (keyFileContent g.engine label bytes)
  match g.createNew st path unixMode with
  | .error e => (.error (.ioContext ("Failed to create " ++ path) e), st)
  | .ok created =>
    match g.fails .setPermissions path with
    | some e => (.error (.ioContext ("Failed to set permissions on " ++ path) e), created)
    | none =>
      match g.fails .writeAll path with
      | none => (.ok (), g.place created path unixMode content)
      | some e =>
        -- `write_all` fails only while there is something left to write
        if content.length ≤ g.written path then (.ok (), g.place created path unixMode content)
        else
          (.error (.ioContext ("Failed to write " ++ path) e),
            g.place created path unixMode (content.take (g.written path)))

def cmdGenKeys : Except Error Unit × Storage :=
  match g.writeKeyFile g.before PRIVATE_KEY_FILE "SECURE SUDOERS PRIVATE KEY" g.signingKey 0o600 with
  | (.error e, st) => (.error e, st)
  | (.ok (), st) =>
    g.writeKeyFile st PUBLIC_KEY_FILE "SECURE SUDOERS PUBLIC KEY" (g.verifyingKey g.signingKey) 0o644

/-! ## What a run leaves -/

/-- What is under a name of the working directory, and what it holds. -/
def fileUnder (st : Storage) (path : Str) : Option (Object × Bytes) :=
  (st.tree.entry g.cwd (Utf8.encode path)).map fun o => (o, st.content o.stat.identity)

/-- Both files are what they were. -/
def AsBefore (st : Storage) : Prop :=
  g.fileUnder st PRIVATE_KEY_FILE = g.fileUnder g.before PRIVATE_KEY_FILE ∧
    g.fileUnder st PUBLIC_KEY_FILE = g.fileUnder g.before PUBLIC_KEY_FILE

/-- Both are new files, with the keys of the pair. -/
def NewPair (st : Storage) : Prop :=
  g.fileUnder st PRIVATE_KEY_FILE = some (g.newFile PRIVATE_KEY_FILE 0o600,
      Utf8.encode (keyFileContent g.engine "SECURE SUDOERS PRIVATE KEY" g.signingKey)) ∧
    g.fileUnder st PUBLIC_KEY_FILE = some (g.newFile PUBLIC_KEY_FILE 0o644,
      Utf8.encode (keyFileContent g.engine "SECURE SUDOERS PUBLIC KEY" (g.verifyingKey g.signingKey)))

/-- The file cannot be created. -/
def Blocked (st : Storage) (path : Str) : Prop :=
  g.fails .create path ≠ none ∨ st.tree.kindAt g.cwd ≠ .dir ∨ st.tree.entry g.cwd (Utf8.encode path) ≠ none

/-- Once it is created nothing fails. -/
def Unhindered (path label : Str) (bytes : Bytes) : Prop :=
  g.fails .setPermissions path = none ∧ (g.fails .writeAll path = none ∨
    (Utf8.encode (keyFileContent g.engine label bytes)).length ≤ g.written path)

variable {g} {st : Storage} {path label other : Str} {bytes : Bytes} {mode : Nat}

@[simp] theorem place_place {mode' : Nat} {bytes' : Bytes} :
    g.place (g.place st path mode bytes) path mode' bytes' = g.place st path mode' bytes' := by
  have htree : (st.tree.set g.cwd (Utf8.encode path) (some (g.newFile path mode))).set g.cwd (Utf8.encode path)
      (some (g.newFile path mode')) = st.tree.set g.cwd (Utf8.encode path) (some (g.newFile path mode')) := by
    unfold Tree.set
    congr
    funext q
    dsimp only
    split <;> rfl
  unfold place Storage.write Storage.withTree
  dsimp only
  rw [htree, Function.update_idem]

theorem createNew_blocked (h : g.Blocked st path) : ∃ e, g.createNew st path mode = .error e := by
  unfold createNew
  cases hfails : g.fails .create path with
  | some e => exact ⟨e, rfl⟩
  | none =>
    dsimp only
    split
    · exact ⟨_, rfl⟩
    · split
      · exact ⟨_, rfl⟩
      · simp_all [Blocked]

theorem createNew_free (h : ¬g.Blocked st path) :
    g.createNew st path mode = .ok (g.place st path (mode ^^^ (mode &&& g.umask)) []) := by
  simp only [Blocked, not_or, not_not] at h
  obtain ⟨hfails, hdir, hnone⟩ := h
  simp [createNew, hfails, hdir, hnone]

theorem writeKeyFile_blocked (h : g.Blocked st path) :
    ∃ e, g.writeKeyFile st path label bytes mode = (.error e, st) := by
  obtain ⟨e, he⟩ := @createNew_blocked g st path mode h
  exact ⟨_, by rw [writeKeyFile, he]⟩

theorem writeKeyFile_ok (h : ¬g.Blocked st path) (hall : g.Unhindered path label bytes) :
    g.writeKeyFile st path label bytes mode =
      (.ok (), g.place st path mode (Utf8.encode (keyFileContent g.engine label bytes))) := by
  obtain ⟨hperms, hwrite⟩ := hall
  simp only [writeKeyFile]
  rw [createNew_free h, hperms]
  simp only [place_place]
  cases hfails : g.fails .writeAll path with
  | none => rfl
  | some e =>
    dsimp only
    rw [if_pos (hwrite.resolve_left (by simp [hfails]))]

/-- A file that is not written in full is there all the same. -/
theorem writeKeyFile_unfinished (h : ¬g.Blocked st path) (hnot : ¬g.Unhindered path label bytes) :
    ∃ e mode' bytes', g.writeKeyFile st path label bytes mode = (.error e, g.place st path mode' bytes') ∧
      bytes' ≠ Utf8.encode (keyFileContent g.engine label bytes) := by
  simp only [writeKeyFile]
  rw [createNew_free h]
  dsimp only
  cases hperms : g.fails .setPermissions path with
  | some e =>
    refine ⟨_, _, _, rfl, ?_⟩
    intro he
    have hempty : keyFileContent g.engine label bytes = [] := Utf8.encode_inj.mp he.symm
    simp [keyFileContent, newline] at hempty
  | none =>
    simp only [place_place]
    cases hfails : g.fails .writeAll path with
    | none => exact absurd ⟨hperms, .inl hfails⟩ hnot
    | some e =>
      dsimp only
      split
      · next hlen => exact absurd ⟨hperms, .inr hlen⟩ hnot
      · next hlen =>
        refine ⟨_, _, _, rfl, ?_⟩
        intro he
        have hlength := congrArg List.length he
        rw [List.length_take] at hlength
        omega

/-! ## What is under the names -/

theorem fileUnder_place (hdir : st.tree.kindAt g.cwd = .dir) (hname : IsEntryName (Utf8.encode path)) :
    g.fileUnder (g.place st path mode bytes) path = some (g.newFile path mode, bytes) := by
  have hentry : (g.place st path mode bytes).tree.entry g.cwd (Utf8.encode path) = some (g.newFile path mode) :=
    (Tree.entry_set hdir hname).trans (if_pos rfl)
  have hcontent : (g.place st path mode bytes).content (g.newInode path) = bytes := Function.update_self ..
  rw [fileUnder, hentry, Option.map_some]
  exact congrArg (fun b => some (g.newFile path mode, b)) hcontent

/-- What is under another name stays, if it is no link of the new inode. -/
theorem fileUnder_place_other (hdir : st.tree.kindAt g.cwd = .dir) (hname : IsEntryName (Utf8.encode path))
    (hne : other ≠ path)
    (hinode : ∀ o, st.tree.entry g.cwd (Utf8.encode other) = some o → o.stat.identity ≠ g.newInode path) :
    g.fileUnder (g.place st path mode bytes) other = g.fileUnder st other := by
  have hentry : (g.place st path mode bytes).tree.entry g.cwd (Utf8.encode other) =
      st.tree.entry g.cwd (Utf8.encode other) :=
    (Tree.entry_set hdir hname).trans (if_neg (mt Utf8.encode_inj.mp hne))
  rw [fileUnder, fileUnder, hentry]
  cases ho : st.tree.entry g.cwd (Utf8.encode other) with
  | none => rfl
  | some o =>
    have hcontent : (g.place st path mode bytes).content o.stat.identity = st.content o.stat.identity :=
      Function.update_of_ne (hinode o ho) ..
    rw [Option.map_some, Option.map_some, hcontent]

theorem private_name : IsEntryName (Utf8.encode PRIVATE_KEY_FILE) := isEntryName_encode.mpr ⟨by decide, by decide⟩

theorem public_name : IsEntryName (Utf8.encode PUBLIC_KEY_FILE) := isEntryName_encode.mpr ⟨by decide, by decide⟩

theorem blocked_iff : ¬g.Blocked st path ↔ g.fails .create path = none ∧ st.tree.kindAt g.cwd = .dir ∧
    st.tree.entry g.cwd (Utf8.encode path) = none := by
  simp [Blocked]

/-- The inode of a new file is not that of an entry there was. -/
theorem unused_entry {o : Object} (ho : g.before.tree.entry g.cwd (Utf8.encode other) = some o) :
    o.stat.identity ≠ g.newInode path := g.unused (Tree.entry_some.mp ho).2.2

/-- Where there was no private key, a file is not as before. -/
theorem not_asBefore {file : Object × Bytes} (h : ¬g.Blocked g.before PRIVATE_KEY_FILE)
    (hfile : g.fileUnder st PRIVATE_KEY_FILE = some file) : ¬g.AsBefore st := by
  intro hsame
  have hbefore := hsame.1
  rw [hfile, fileUnder, (blocked_iff.mp h).2.2] at hbefore
  cases hbefore

/-- A private key that is not written in full. -/
theorem cmdGenKeys_private_unfinished (h : ¬g.Blocked g.before PRIVATE_KEY_FILE)
    (hnot : ¬g.Unhindered PRIVATE_KEY_FILE "SECURE SUDOERS PRIVATE KEY" g.signingKey) :
    ¬g.AsBefore g.cmdGenKeys.2 ∧ ¬g.NewPair g.cmdGenKeys.2 := by
  obtain ⟨e, mode, bytes, hwrite, hbytes⟩ := @writeKeyFile_unfinished g _ _ _ _ 0o600 h hnot
  have hst : g.cmdGenKeys.2 = g.place g.before PRIVATE_KEY_FILE mode bytes := by rw [cmdGenKeys, hwrite]
  have hprivate := @fileUnder_place g g.before _ bytes mode (blocked_iff.mp h).2.1 private_name
  rw [hst]
  refine ⟨not_asBefore h hprivate, fun hpair => ?_⟩
  have hnew := hpair.1
  rw [hprivate] at hnew
  exact hbytes (Prod.mk.inj (Option.some.inj hnew)).2

/-- The storage once the private key is written. -/
def privateWritten (g : KeyRun) : Storage :=
  g.place g.before PRIVATE_KEY_FILE 0o600
    (Utf8.encode (keyFileContent g.engine "SECURE SUDOERS PRIVATE KEY" g.signingKey))

theorem cmdGenKeys_privateWritten (h : ¬g.Blocked g.before PRIVATE_KEY_FILE)
    (hall : g.Unhindered PRIVATE_KEY_FILE "SECURE SUDOERS PRIVATE KEY" g.signingKey) :
    g.cmdGenKeys = g.writeKeyFile g.privateWritten PUBLIC_KEY_FILE "SECURE SUDOERS PUBLIC KEY"
      (g.verifyingKey g.signingKey) 0o644 := by
  rw [cmdGenKeys, writeKeyFile_ok h hall, privateWritten]

theorem privateWritten_private (hdir : g.before.tree.kindAt g.cwd = .dir) :
    g.privateWritten.tree.entry g.cwd (Utf8.encode PRIVATE_KEY_FILE) = some (g.newFile PRIVATE_KEY_FILE 0o600) :=
  (Tree.entry_set hdir private_name).trans (if_pos rfl)

/-- The public key is found as it was. -/
theorem privateWritten_public (hdir : g.before.tree.kindAt g.cwd = .dir) :
    g.fileUnder g.privateWritten PUBLIC_KEY_FILE = g.fileUnder g.before PUBLIC_KEY_FILE ∧
      (g.Blocked g.privateWritten PUBLIC_KEY_FILE ↔ g.Blocked g.before PUBLIC_KEY_FILE) := by
  have hne : PUBLIC_KEY_FILE ≠ PRIVATE_KEY_FILE := by decide
  have hdir' : g.privateWritten.tree.kindAt g.cwd = .dir := Tree.kindAt_set.trans hdir
  have hentry : g.privateWritten.tree.entry g.cwd (Utf8.encode PUBLIC_KEY_FILE) =
      g.before.tree.entry g.cwd (Utf8.encode PUBLIC_KEY_FILE) :=
    (Tree.entry_set hdir private_name).trans (if_neg (mt Utf8.encode_inj.mp hne))
  refine ⟨fileUnder_place_other hdir private_name hne fun o ho => unused_entry ho, ?_⟩
  rw [Blocked, Blocked, hentry, hdir', hdir]

/-- The private key stays when the public key is written. -/
theorem privateWritten_stays (hdir : g.before.tree.kindAt g.cwd = .dir) :
    g.fileUnder (g.place g.privateWritten PUBLIC_KEY_FILE mode bytes) PRIVATE_KEY_FILE =
      some (g.newFile PRIVATE_KEY_FILE 0o600,
        Utf8.encode (keyFileContent g.engine "SECURE SUDOERS PRIVATE KEY" g.signingKey)) := by
  have hdir' : g.privateWritten.tree.kindAt g.cwd = .dir := Tree.kindAt_set.trans hdir
  have hstays : g.fileUnder (g.place g.privateWritten PUBLIC_KEY_FILE mode bytes) PRIVATE_KEY_FILE =
      g.fileUnder g.privateWritten PRIVATE_KEY_FILE := by
    refine fileUnder_place_other hdir' public_name (by decide) fun o ho => ?_
    cases ho.symm.trans (privateWritten_private hdir)
    exact g.distinct
  rw [hstays]
  exact fileUnder_place hdir private_name

/-- The private key written, the files are not as before, and they are the new
pair if the public key is written too. -/
theorem cmdGenKeys_public (h : ¬g.Blocked g.before PRIVATE_KEY_FILE)
    (hall : g.Unhindered PRIVATE_KEY_FILE "SECURE SUDOERS PRIVATE KEY" g.signingKey) :
    ¬g.AsBefore g.cmdGenKeys.2 ∧ (g.NewPair g.cmdGenKeys.2 ↔ ¬g.Blocked g.before PUBLIC_KEY_FILE ∧
      g.Unhindered PUBLIC_KEY_FILE "SECURE SUDOERS PUBLIC KEY" (g.verifyingKey g.signingKey)) := by
  have hdir := (blocked_iff.mp h).2.1
  have hdir' : g.privateWritten.tree.kindAt g.cwd = .dir := Tree.kindAt_set.trans hdir
  obtain ⟨hpublic, hblocked⟩ := privateWritten_public hdir
  rw [cmdGenKeys_privateWritten h hall]
  by_cases hpub : g.Blocked g.before PUBLIC_KEY_FILE
  · obtain ⟨e, hwrite⟩ := @writeKeyFile_blocked g _ _ "SECURE SUDOERS PUBLIC KEY" (g.verifyingKey g.signingKey) 0o644
      (hblocked.mpr hpub)
    rw [hwrite]
    refine ⟨not_asBefore h (fileUnder_place hdir private_name), iff_of_false (fun hpair => ?_) fun hok => hok.1 hpub⟩
    -- the public key there is no new file
    have hnew := hpair.2
    rw [hpublic, fileUnder, Option.map_eq_some_iff] at hnew
    obtain ⟨o, ho, hfile⟩ := hnew
    exact unused_entry ho (congrArg (·.1.stat.identity) hfile)
  · have hfree := mt hblocked.mp hpub
    by_cases hwhole : g.Unhindered PUBLIC_KEY_FILE "SECURE SUDOERS PUBLIC KEY" (g.verifyingKey g.signingKey)
    · rw [writeKeyFile_ok hfree hwhole]
      refine ⟨not_asBefore h (privateWritten_stays hdir), iff_of_true ?_ ⟨hpub, hwhole⟩⟩
      exact ⟨privateWritten_stays hdir, fileUnder_place hdir' public_name⟩
    · obtain ⟨e, mode, bytes, hwrite, hbytes⟩ := @writeKeyFile_unfinished g _ _ _ _ 0o644 hfree hwhole
      rw [hwrite]
      refine ⟨not_asBefore h (privateWritten_stays hdir), iff_of_false (fun hpair => ?_) fun hok => hwhole hok.2⟩
      have hnew := hpair.2
      rw [fileUnder_place hdir' public_name] at hnew
      exact hbytes (Prod.mk.inj (Option.some.inj hnew)).2

/-- **The two key files** are as before or the new pair, exactly if the private
key cannot be created, or both keys can and nothing fails once they are. -/
theorem cmdGenKeys_whole : g.AsBefore g.cmdGenKeys.2 ∨ g.NewPair g.cmdGenKeys.2 ↔
    g.Blocked g.before PRIVATE_KEY_FILE ∨
      (g.Unhindered PRIVATE_KEY_FILE "SECURE SUDOERS PRIVATE KEY" g.signingKey ∧
        ¬g.Blocked g.before PUBLIC_KEY_FILE ∧
          g.Unhindered PUBLIC_KEY_FILE "SECURE SUDOERS PUBLIC KEY" (g.verifyingKey g.signingKey)) := by
  by_cases hblocked : g.Blocked g.before PRIVATE_KEY_FILE
  · obtain ⟨e, hwrite⟩ := @writeKeyFile_blocked g _ _ "SECURE SUDOERS PRIVATE KEY" g.signingKey 0o600 hblocked
    have hst : g.cmdGenKeys.2 = g.before := by rw [cmdGenKeys, hwrite]
    rw [hst]
    exact iff_of_true (.inl ⟨rfl, rfl⟩) (.inl hblocked)
  · rw [or_iff_right hblocked]
    by_cases hall : g.Unhindered PRIVATE_KEY_FILE "SECURE SUDOERS PRIVATE KEY" g.signingKey
    · obtain ⟨hnot, hpair⟩ := cmdGenKeys_public hblocked hall
      rw [or_iff_right hnot, hpair, and_iff_right hall]
    · obtain ⟨hnot, hpair⟩ := cmdGenKeys_private_unfinished hblocked hall
      exact iff_of_false (not_or.mpr ⟨hnot, hpair⟩) fun hok => hall hok.1

end KeyRun

/-! ## An older public key -/

/-- A directory with a public key in it. -/
def homeEntries : List (List Str × Object) := [(["home"], .directory), (["home", PUBLIC_KEY_FILE], .file 5)]

theorem homeEntries_unused {q : List Bytes} {o : Object} (h : (Tree.ofList homeEntries).object q = some o) :
    o.stat.identity ≠ ⟨0, 6⟩ ∧ o.stat.identity ≠ ⟨0, 7⟩ := by
  have hall : ∀ e ∈ ([], Object.directory) :: homeEntries, e.2.stat.identity ≠ ⟨0, 6⟩ ∧ e.2.stat.identity ≠ ⟨0, 7⟩ := by
    decide
  by_cases hq : q = []
  · subst hq
    cases h
    exact hall _ List.mem_cons_self
  · obtain ⟨e, he, -, rfl⟩ := Tree.mem_of_object_ofList hq h
    exact hall e (List.mem_cons_of_mem _ he)

/-- `gen-keys` in it, where nothing fails. -/
def genKeysAgain : KeyRun where
  engine := base64Standard
  before := { tree := .ofList homeEntries, flags := fun _ => 0, content := fun _ => [] }
  cwd := [Utf8.encode "home"]
  euid := 0
  umask := 0o022
  signingKey := List.replicate 32 1
  verifyingKey key := key.map (· + 1)
  fails _ _ := none
  written _ := 0
  newInode path := if path = PRIVATE_KEY_FILE then ⟨0, 6⟩ else ⟨0, 7⟩
  unused {path q o} ho := by
    obtain ⟨hprivate, hpublic⟩ := homeEntries_unused ho
    split
    · exact hprivate
    · exact hpublic
  distinct := by decide

/-- **A new private key next to an older public key.** -/
theorem stale_public_key : ¬∀ g : KeyRun, g.AsBefore g.cmdGenKeys.2 ∨ g.NewPair g.cmdGenKeys.2 := by
  intro hall
  have hfree : ¬genKeysAgain.Blocked genKeysAgain.before PRIVATE_KEY_FILE := KeyRun.blocked_iff.mpr ⟨rfl, rfl, rfl⟩
  have hentry : genKeysAgain.before.tree.entry genKeysAgain.cwd (Utf8.encode PUBLIC_KEY_FILE) = some (.file 5) := rfl
  have hfound : genKeysAgain.Blocked genKeysAgain.before PUBLIC_KEY_FILE := .inr (.inr (by simp [hentry]))
  obtain ⟨hnot, hpair⟩ := KeyRun.cmdGenKeys_public hfree ⟨rfl, .inl rfl⟩
  rcases hall genKeysAgain with hsame | hnew
  · exact hnot hsame
  · exact (hpair.mp hnew).1 hfound

end SecureSudoers
