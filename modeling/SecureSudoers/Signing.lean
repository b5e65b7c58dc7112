/-
Signed policies: how `sign` makes the signature file (`main.rs` of the utilities,
`keys.rs`), and how the wrapper reads both (`helpers/policy.rs`).

`sign` creates or empties `<policy>.sig` before it writes it, so that a run that
fails may leave a part of the signature there. It is no harm: a part is shorter
than a signature, and the wrapper refuses it (`sign_fails_closed`).
`signed_policy_loads` is the way from the generated keys to the loaded policy.
-/
import SecureSudoers.KeyFiles
import SecureSudoers.PolicyValidation
import SecureSudoers.EntryPoint

namespace SecureSudoers

/-! ## The code -/

/-- `ed25519_dalek`. -/
structure SignatureScheme where
  /-- `SigningKey::verifying_key`. -/
  verifyingKey : Bytes → Bytes
  sign (key message : Bytes) : Bytes
  /-- `VerifyingKey::from_bytes`. -/
  fromBytes : Bytes → Except Str Unit
  verify (key message sig : Bytes) : Except Str Unit

/-- What its documentation says of keys and signatures. -/
structure SignatureScheme.Ed25519 (scheme : SignatureScheme) : Prop where
  sign_length {key message : Bytes} : (scheme.sign key message).length = 64
  key_length {key : Bytes} : (scheme.verifyingKey key).length = 32
  fromBytes {key : Bytes} : scheme.fromBytes (scheme.verifyingKey key) = .ok ()
  verify {key message : Bytes} : scheme.verify (scheme.verifyingKey key) message (scheme.sign key message) = .ok ()

/-- What signing and loading depend on, besides the storage. -/
structure SigningHost where
  engine : Base64Engine
  scheme : SignatureScheme
  reader : ReadHost
  cwd : List Bytes
  euid : Nat
  umask : Nat
  /-- `openat` for writing is refused for reasons of its own. -/
  refusesWrite : Storage → List Bytes → Bytes → Option Errno
  /-- `std::fs::read` is refused. -/
  refusesRead : Str → Option Errno
  /-- The inode a new file gets. -/
  newInode : Storage → ExecutableIdentity
  /-- Why `write_all` fails, and how much it has written then. -/
  fails : Option (Errno × Nat)
  fromSlice : Bytes → Except Str SecureSudoersPolicy
  regexNew : Str → Option Regex

namespace SigningHost

variable (host : SigningHost)

/-- `load_signing_key`. -/
def loadSigningKey (st : Storage) (path : Str) : Except ReadError Bytes := do
  let bytes ← readPemBytes host.engine host.reader st path "SECURE SUDOERS PRIVATE KEY"
  if bytes.length = 32 then .ok bytes
  else .error (.error (.validation ("Private key must be 32 bytes (got " ++ Nat.toDigits 10 bytes.length ++ ")")))

/-- `load_verifying_key`. -/
def loadVerifyingKey (st : Storage) (path : Str) : Except ReadError Bytes := do
  let bytes ← readPemBytes host.engine host.reader st path "SECURE SUDOERS PUBLIC KEY"
  if bytes.length = 32 then
    match host.scheme.fromBytes bytes with
    | .ok () => .ok bytes
    | .error e => .error (.error (.validation ("Invalid public key in " ++ path ++ ": " ++ e)))
  else .error (.error (.validation ("Public key must be 32 bytes (got " ++ Nat.toDigits 10 bytes.length ++ ")")))

/-- `open_path_securely_for_read`, and the inode it opens. -/
def openPathSecurelyForRead (st : Storage) (path : Str) : Except Error (SecurePath (List Bytes)) :=
  match absolutePathStr host.reader path with
  | .error e => .error e
  | .ok absolutePath =>
    (checkPath st.tree.fs absolutePath .positional []).mapError fun e =>
      .validation ("Cannot read " ++ path ++ ": " ++ e.display)

/-- `read_op` of `read_file_bytes_securely`, on the descriptor. -/
def readFd (st : Storage) (fd : List Bytes) (path : Str) : Except Error Bytes :=
  let inode := (st.tree.fs.stat fd).identity
  match host.reader.refuses inode with
  | some e => .error (.ioContext ("Cannot read " ++ path) e)
  | none =>
    if st.tree.kindAt fd = .dir then .error (.ioContext ("Cannot read " ++ path) EISDIR)
    else .ok (st.content inode)

/-- `resolve_absolute_path` for writing, and `to_str` of the parent: the working
directory is part of it. -/
def absolutePathForWriting (path : Str) : Except Error Str :=
  if Path.isAbsolute path then .ok path
  else match host.reader.currentDir with
    | .error e => .error (.ioContext ("Cannot resolve current directory while writing " ++ path) e)
    | .ok cwd =>
      let absolutePath := if cwd = [] ∨ cwd.getLast? = some slash then cwd ++ Utf8.encode path
        else cwd ++ slash :: Utf8.encode path
      match Utf8.decode? absolutePath with
      | some absolutePath => .ok absolutePath
      | none => .error (.validation ("Path contains invalid UTF-8: " ++ Path.pop (Utf8.lossy absolutePath)))

/-- A new file. -/
def newFile (st : Storage) : Object :=
  let inode := host.newInode st
  { Object.file inode.ino with
    stat := { dev := inode.dev, ino := inode.ino, uid := host.euid, mode := 0o666 ^^^ (0o666 &&& host.umask) } }

/-- `openat` with `O_WRONLY | O_CREAT | O_TRUNC | O_NOFOLLOW`: the inode, which is empty. -/
def openForWriting (st : Storage) (dir : List Bytes) (name : Bytes) : Except Errno (ExecutableIdentity × Storage) :=
  match host.refusesWrite st dir name with
  | some e => .error e
  | none =>
    if st.tree.kindAt dir ≠ .dir then .error .ENOTDIR
    else match st.tree.entry dir name with
      | none => .ok (host.newInode st, (st.withTree (st.tree.set dir name (some (host.newFile st)))).write (host.newInode st) [])
      | some o =>
        match o.kind with
        | .symlink _ => .error .ELOOP
        | .dir => .error EISDIR
        | .file =>
          if st.immutable o.stat.identity then .error EPERM
          else .ok (o.stat.identity, st.write o.stat.identity [])

/-- `write_all`. -/
def writeAll (st : Storage) (inode : ExecutableIdentity) (bytes : Bytes) (path : Str) : Except Error Unit × Storage :=
  match host.fails with
  | none => (.ok (), st.write inode bytes)
  | some (e, written) =>
    -- it fails only while there is something left to write
    if bytes.length ≤ written then (.ok (), st.write inode bytes)
    else (.error (.ioContext ("Failed to write " ++ path) e), st.write inode (bytes.take written))

/-- `write_file_securely_without_following_symlinks`. -/
def writeFileSecurelyWithoutFollowingSymlinks (st : Storage) (path : Str) (bytes : Bytes) :
    Except Error Unit × Storage :=
  match host.absolutePathForWriting path with
  | .error e => (.error e, st)
  | .ok absolutePath =>
    match Path.parent absolutePath with
    | none =>
      (.error (.system ("Cannot securely write " ++ path ++ ": missing parent directory for " ++ absolutePath)), st)
    | some parent =>
      match checkPath st.tree.fs parent .positional [] with
      | .error e =>
        (.error (.validation ("Cannot securely open parent directory of " ++ path ++ ": " ++ e.display)), st)
      | .ok secureParent =>
        match Path.fileName absolutePath with
        | none => (.error (.system ("Cannot securely write " ++ path ++ ": missing file name in " ++ absolutePath)), st)
        | some fileName =>
          if '\x00' ∈ fileName then (.error (.system ("Path contains NUL byte in file name: " ++ path)), st)
          else match host.openForWriting st secureParent.fd (Utf8.encode fileName) with
            | .error e => (.error (.ioContext ("Failed to securely open " ++ path ++ " for writing") e), st)
            | .ok (inode, st) => host.writeAll st inode bytes path

/-- `cmd_sign_with_before_read`. -/
def cmdSignWithBeforeRead (beforeRead : Storage → Storage) (st : Storage) (policyPath keyPath : Str) :
    Except ReadError Unit × Storage :=
  match host.loadSigningKey st keyPath with
  | .error e => (.error e, st)
  | .ok signingKey =>
    match host.openPathSecurelyForRead st policyPath with
    | .error e => (.error (.error e), st)
    | .ok securePath =>
      let st' := beforeRead st
      -- the inode is the one that was opened
      match host.readFd { st with content := st'.content } securePath.fd policyPath with
      | .error e => (.error (.error e), st')
      | .ok policyBytes =>
        let sig := host.scheme.sign signingKey policyBytes
        let (r, st') := host.writeFileSecurelyWithoutFollowingSymlinks st' (policyPath ++ ".sig") sig
        (r.mapError .error, st')

/-- `cmd_sign`. -/
def cmdSign (st : Storage) (policyPath keyPath : Str) : Except ReadError Unit × Storage :=
  host.cmdSignWithBeforeRead id st policyPath keyPath

/-- `std::fs::read`. -/
def read (st : Storage) (path : Str) : Except Errno Bytes :=
  if '\x00' ∈ path then .error .nulInPath
  else match host.refusesRead path with
    | some e => .error e
    | none =>
      match st.tree.fs.openPath host.cwd (Utf8.encode path) with
      | .error e => .error e
      | .ok fd =>
        match st.tree.kindAt fd with
        | .dir => .error EISDIR
        | _ => .ok (st.content (st.tree.fs.stat fd).identity)

/-- `load_policy_with_pubkey`, up to the parsing of what is verified. -/
def verifiedPolicy (st : Storage) (path pubkeyPath : Str) : Except ReadError Bytes := do
  let policyBytes ← (host.read st path).mapError fun e => .error (.ioContext ("Failed to read policy " ++ path) e)
  let pubkey ← readPemBytes host.engine host.reader st pubkeyPath "SECURE SUDOERS PUBLIC KEY"
  if pubkey.length ≠ 32 then .error (.error (.validation "Integrity failure: public key must be 32 bytes"))
  else do
    (host.scheme.fromBytes pubkey).mapError fun e =>
      .error (.validation ("Integrity failure: invalid public key: " ++ e))
    let sigPath := path ++ ".sig"
    let sig ← (host.read st sigPath).mapError fun e =>
      .error (.ioContext ("Integrity failure: policy signature file " ++ sigPath ++ " missing or unreadable") e)
    if sig.length ≠ 64 then
      .error (.error (.validation ("Integrity failure: signature must be 64 bytes (got " ++
        Nat.toDigits 10 sig.length ++ ")")))
    else do
      (host.scheme.verify pubkey policyBytes sig).mapError fun e =>
        .error (.security ("Integrity failure: policy signature verification failed for " ++ path ++ ": " ++ e))
      .ok policyBytes

/-- `load_policy_with_pubkey`. -/
def loadPolicyWithPubkey (st : Storage) (path pubkeyPath : Str) : Except ReadError SecureSudoersPolicy := do
  let policyBytes ← host.verifiedPolicy st path pubkeyPath
  let policy ← (host.fromSlice policyBytes).mapError fun e =>
    .error (.parse ("Failed to parse validated policy JSON: " ++ e))
  (policy.validate st.tree.fs host.regexNew).mapError fun e =>
    .error (.validation ("Policy validation failed: " ++ e.display))

end SigningHost

/-! ## The path of the signature -/

theorem split_last {p : Str} (habs : Path.isAbsolute p = true) : ∃ front last, p = front ++ '/' :: last ∧ '/' ∉ last := by
  have hmem : '/' ∈ p.reverse := by
    rw [List.mem_reverse]
    exact List.mem_of_mem_head? (beq_iff_eq.mp habs)
  obtain ⟨back, rest, hsplit, hnot⟩ := List.eq_append_cons_of_mem hmem
  refine ⟨rest.reverse, back.reverse, ?_, by simpa using hnot⟩
  have hp := congrArg List.reverse hsplit
  rw [List.reverse_reverse] at hp
  rw [hp]
  simp

/-- The name of the signature file, and the directory it is in. -/
structure SigFile (path parent name : Str) : Prop where
  fileName : Path.fileName (path ++ ".sig") = some name
  parent_eq : Path.parent (path ++ ".sig") = some parent
  entryName : IsEntryName (Utf8.encode name)
  no_nul : '\x00' ∉ name
  absolute : Path.isAbsolute parent = true
  segments_eq : segments (Utf8.encode (path ++ ".sig")) = segments (Utf8.encode parent) ++ [.name (Utf8.encode name)]
  file : namesDirectory (Utf8.encode (path ++ ".sig")) = false

theorem isName_sig {last : Str} (h : '/' ∉ last) : Path.IsName (last ++ ".sig") := by
  have hfour : ".sig".toList.length = 4 := by decide
  have hlong : ∀ s : Str, s.length < 4 → last ++ ".sig".toList ≠ s := by
    intro s hs he
    rw [← he, List.length_append, hfour] at hs
    omega
  refine ⟨hlong _ (by decide), hlong _ (by decide), hlong _ (by decide), ?_⟩
  rw [List.mem_append, not_or]
  exact ⟨h, by decide⟩

theorem sigFile {path : Str} (habs : Path.isAbsolute path = true) (hnul : '\x00' ∉ path) :
    ∃ parent name, SigFile path parent name := by
  obtain ⟨front, last, rfl, hlast⟩ := split_last habs
  generalize hname : last ++ ".sig".toList = name
  have hn : Path.IsName name := hname ▸ isName_sig hlast
  have hnul : '\x00' ∉ name := by
    rw [List.mem_append, List.mem_cons, not_or, not_or] at hnul
    rw [← hname, List.mem_append, not_or]
    exact ⟨hnul.2.2, by decide⟩
  have hentry : IsEntryName (Utf8.encode name) := isEntryName_encode.mpr ⟨hn, hnul⟩
  have hpath : front ++ '/' :: last ++ ".sig".toList = front ++ '/' :: name := by simp [← hname]
  have hinner : ∀ c ∈ Path.body front, Path.Inner c := fun c hc => Path.inner_of_mem_body hc
  have hbody : Path.body (front ++ '/' :: name) = Path.body front ++ [.normal name] := by
    rw [Path.body_append_slash, Path.body_singleton hn.no_slash, Path.component?_name hn]
    rfl
  have habs' : Path.isAbsolute (front ++ '/' :: name) = true := hpath ▸ Path.isAbsolute_append habs
  have hcomponents : Path.components (front ++ '/' :: name) =
      (.rootDir :: Path.body front) ++ [.normal name] := by
    rw [Path.components_abs habs', hbody]
    rfl
  obtain ⟨hparent, hsame⟩ := @Path.body_foldl_push (Path.body front) ['/'] rfl hinner
  have hsplit : (Utf8.encode (front ++ '/' :: name)).splitOn slash =
      (Utf8.encode front).splitOn slash ++ [Utf8.encode name] := by
    have henc : Utf8.encode (front ++ '/' :: name) = Utf8.encode front ++ slash :: Utf8.encode name := by
      rw [Utf8.encode_append]
      rfl
    rw [henc, List.splitOn_append_cons_self, List.splitOn_eq_singleton hentry.no_slash]
  refine ⟨Path.collect (.rootDir :: Path.body front), name, ?_, ?_, hentry, hnul, hparent, ?_, ?_⟩
  · rw [hpath, Path.fileName, hcomponents, List.getLast?_concat]
  · rw [hpath, Path.parent, hcomponents, List.getLast?_concat, List.dropLast_concat]
  · rw [hpath, segments_encode, segments_encode, hbody, List.filterMap_append]
    exact congrArg (fun cs => cs.filterMap Component.segment? ++ _) hsame.symm
  · rw [hpath, namesDirectory, hsplit, List.getLast?_concat]
    simp [hentry.ne_nil, hentry.ne_dot]

/-! ## More entries -/

/-- What is in `t` is in `t'`. -/
def Tree.Extends (t t' : Tree) : Prop := ∀ ⦃q o⦄, t.object q = some o → t'.object q = some o

namespace Tree.Extends

variable {t t' : Tree}

theorem kindAt (h : t.Extends t') {q : List Bytes} (hq : t.kindAt q ≠ .file) : t'.kindAt q = t.kindAt q := by
  cases ho : t.object q with
  | none => simp [Tree.kindAt, ho] at hq
  | some o => simp [Tree.kindAt, ho, h ho]

theorem lookupAt (h : t.Extends t') {cur d : List Bytes} {n : Bytes} (hl : t.lookupAt cur n = some d) :
    t'.lookupAt cur n = some d ∧ t'.kindAt d = t.kindAt d := by
  obtain ⟨⟨o, ho⟩, rfl⟩ := lookupAt_some.mp hl
  obtain ⟨hcur, hn, hobj⟩ := entry_some.mp ho
  have hcur' : t'.kindAt cur = .dir := (h.kindAt (by simp [hcur])).trans hcur
  refine ⟨lookupAt_some.mpr ⟨⟨o, entry_some.mpr ⟨hcur', hn, h hobj⟩⟩, rfl⟩, ?_⟩
  simp [Tree.kindAt, hobj, h hobj]

/-- A way in `t` is one in `t'`. -/
theorem resolves (h : t.Extends t') {cur e : List Bytes} {segs : List Segment} {targets : List Bytes}
    {visited : List (List Bytes)} (hr : Resolves t.fs cur segs targets visited e) :
    Resolves t'.fs cur segs targets visited e := by
  induction hr with
  | done => exact .done
  | @parent cur _ _ _ _ hk _ ih =>
    have hk : t.kindAt cur = .dir := hk
    exact .parent ((h.kindAt (by simp [hk])).trans hk) ih
  | @name cur d _ _ _ _ _ hl hs _ ih =>
    obtain ⟨hl', hk'⟩ := h.lookupAt hl
    have hs' : t'.fs.isSymlink d = false := by
      have hkind : t'.fs.kind d = t.fs.kind d := hk'
      rw [FileSystem.isSymlink, hkind]
      exact hs
    exact .name hl' hs' ih
  | link hl hk _ ih =>
    obtain ⟨hl', hk'⟩ := h.lookupAt hl
    exact .link hl' (hk'.trans hk) ih

theorem follow (h : t.Extends t') {left : Nat} {cur e : List Bytes} {segs : List Segment}
    (he : t.fs.follow left cur segs = .ok e) : t'.fs.follow left cur segs = .ok e := by
  have hdir : ∀ {d}, t.fs.kind d = .dir → t'.fs.kind d = .dir := fun {d} hd => by
    have hd : t.kindAt d = .dir := hd
    exact (h.kindAt (by simp [hd])).trans hd
  exact @followIn_mono _ t.fs _ t'.fs rfl rfl hdir (fun hl => h.lookupAt hl) _ _ _ _ he

end Tree.Extends

/-! ## What is written -/

/-- A file in a directory holds these octets, and nothing else is changed. -/
structure WrittenTo (st st' : Storage) (dir : List Bytes) (name : Bytes) (inode : ExecutableIdentity) (bytes : Bytes) :
    Prop where
  entry : ∃ o, st'.tree.entry dir name = some o ∧ o.kind = .file ∧ o.stat.identity = inode
  grows : st.tree.Extends st'.tree
  others : ∀ q, q ≠ dir ++ [name] → st'.tree.object q = st.tree.object q
  content : st'.content = Function.update st.content inode bytes

theorem WrittenTo.write {st st' : Storage} {dir : List Bytes} {name : Bytes} {inode : ExecutableIdentity}
    {bytes bytes' : Bytes} (h : WrittenTo st st' dir name inode bytes) :
    WrittenTo st (st'.write inode bytes') dir name inode bytes' where
  entry := h.entry
  grows := h.grows
  others := h.others
  content := by
    show Function.update st'.content inode bytes' = _
    rw [h.content, Function.update_idem]

theorem WrittenTo.file {st st' : Storage} {dir : List Bytes} {name : Bytes} {inode : ExecutableIdentity} {bytes : Bytes}
    (h : WrittenTo st st' dir name inode bytes) : st'.tree.kindAt (dir ++ [name]) = .file ∧
      (st'.tree.fs.stat (dir ++ [name])).identity = inode := by
  obtain ⟨o, ho, hkind, hinode⟩ := h.entry
  have hobj := (Tree.entry_some.mp ho).2.2
  refine ⟨by simp [Tree.kindAt, hobj, hkind], ?_⟩
  have hstat : st'.tree.fs.stat (dir ++ [name]) = o.stat := congrArg (·.elim {} Object.stat) hobj
  rw [hstat, hinode]

namespace SigningHost

variable {host : SigningHost} {st st' : Storage}

/-- Through a link nothing is written. -/
theorem openForWriting_ok {dir : List Bytes} {name : Bytes} {inode : ExecutableIdentity} (hname : IsEntryName name)
    (h : host.openForWriting st dir name = .ok (inode, st')) : WrittenTo st st' dir name inode [] := by
  unfold openForWriting at h
  split at h
  · cases h
  · split at h
    · cases h
    · next hdir =>
      have hdir := not_not.mp hdir
      split at h
      · next hnone =>
        cases h
        have hobj : st.tree.object (dir ++ [name]) = none := by
          rwa [Tree.entry, if_pos ⟨hdir, hname⟩] at hnone
        refine ⟨⟨host.newFile st, (Tree.entry_set hdir hname).trans (if_pos rfl), rfl, rfl⟩, ?_, ?_, rfl⟩
        · intro q o ho
          refine (if_neg ?_).trans ho
          rintro rfl
          simp [hobj] at ho
        · exact fun q hq => if_neg hq
      · next o ho =>
        split at h
        · cases h
        · cases h
        · next hkind =>
          split at h
          · cases h
          · cases h
            exact ⟨⟨o, ho, hkind, rfl⟩, fun _ _ hq => hq, fun _ _ => rfl, rfl⟩

/-- **The signature file, or a part of it, or nothing at all is written.** -/
theorem writeFile_cases {path parent name : Str} (hsig : SigFile path parent name)
    (habs : Path.isAbsolute path = true) {bytes : Bytes} {r : Except Error Unit}
    (h : host.writeFileSecurelyWithoutFollowingSymlinks st (path ++ ".sig") bytes = (r, st')) :
    (st' = st ∧ ∃ e, r = .error e) ∨
    ∃ p dir inode written, checkPath st.tree.fs parent .positional [] = .ok ⟨p, dir⟩ ∧
      WrittenTo st st' dir (Utf8.encode name) inode written ∧
      ((r = .ok () ∧ written = bytes) ∨ ((∃ e, r = .error e) ∧ written.length < bytes.length)) := by
  have habs' : host.absolutePathForWriting (path ++ ".sig") = .ok (path ++ ".sig") :=
    if_pos (Path.isAbsolute_append habs)
  unfold writeFileSecurelyWithoutFollowingSymlinks at h
  simp only [habs', hsig.parent_eq, hsig.fileName, if_neg hsig.no_nul] at h
  cases hcheck : checkPath st.tree.fs parent .positional [] with
  | error e =>
    simp only [hcheck] at h
    cases h
    exact .inl ⟨rfl, _, rfl⟩
  | ok secureParent =>
    obtain ⟨p, dir⟩ := secureParent
    simp only [hcheck] at h
    cases hopen : host.openForWriting st dir (Utf8.encode name) with
    | error e =>
      simp only [hopen] at h
      cases h
      exact .inl ⟨rfl, _, rfl⟩
    | ok opened =>
      obtain ⟨inode, st₁⟩ := opened
      simp only [hopen] at h
      have hw := openForWriting_ok hsig.entryName hopen
      unfold writeAll at h
      split at h
      · cases h
        exact .inr ⟨p, dir, inode, bytes, rfl, hw.write, .inl ⟨rfl, rfl⟩⟩
      · next e written _ =>
        split at h
        · cases h
          exact .inr ⟨p, dir, inode, bytes, rfl, hw.write, .inl ⟨rfl, rfl⟩⟩
        · next hlen =>
          cases h
          refine .inr ⟨p, dir, inode, bytes.take written, rfl, hw.write, .inr ⟨⟨_, rfl⟩, ?_⟩⟩
          rw [List.length_take]
          omega

/-- What is followed is opened, if the path is not too long. -/
theorem openPath_of_follow {t : Tree} {path : Str} {cwd fd : List Bytes} (habs : Path.isAbsolute path = true)
    (hfile : namesDirectory (Utf8.encode path) = false)
    (hfollow : t.fs.follow MAXSYMLINKS t.fs.root (segments (Utf8.encode path)) = .ok fd) :
    t.fs.openPath cwd (Utf8.encode path) =
      if PATH_MAX ≤ (Utf8.encode path).length then .error ENAMETOOLONG else .ok fd := by
  have hhead := head?_encode_slash.mpr habs
  have hne : Utf8.encode path ≠ [] := by
    intro he
    simp [he] at hhead
  have hbase : t.fs.base cwd (Utf8.encode path) = t.fs.root := if_pos hhead
  rw [openPath_eq, if_neg hne, hbase, hfollow]
  simp [hfile]

/-- What was opened is opened where there is more. -/
theorem openPath_extends {t t' : Tree} (hext : t.Extends t') {path : Str} {cwd fd : List Bytes}
    (hopen : t.fs.openPath cwd (Utf8.encode path) = .ok fd) : t'.fs.openPath cwd (Utf8.encode path) = .ok fd := by
  unfold FileSystem.openPath at hopen ⊢
  split at hopen
  · cases hopen
  · split at hopen
    · cases hopen
    · next hne hshort =>
      obtain ⟨hfollow, hdir⟩ := walkTo_ok.mp hopen
      rw [if_neg hne, if_neg hshort]
      refine walkTo_ok.mpr ⟨hext.follow hfollow, fun hnames => ?_⟩
      have hdir : t.kindAt fd = .dir := hdir hnames
      exact (hext.kindAt (by simp [hdir])).trans hdir

theorem read_of_openPath {path : Str} {fd : List Bytes}
    (hopen : st.tree.fs.openPath host.cwd (Utf8.encode path) = .ok fd) (hfile : st.tree.kindAt fd ≠ .dir) :
    (∃ e, host.read st path = .error e) ∨ host.read st path = .ok (st.content (st.tree.fs.stat fd).identity) := by
  unfold read
  split
  · exact .inl ⟨_, rfl⟩
  · split
    · exact .inl ⟨_, rfl⟩
    · rw [hopen]
      dsimp only
      split
      · next hdir => exact absurd hdir hfile
      · exact .inr rfl

theorem read_ok {path : Str} {bytes : Bytes} (hnul : '\x00' ∉ path) (hread : host.refusesRead path = none) :
    host.read st path = .ok bytes ↔ ∃ fd, st.tree.fs.openPath host.cwd (Utf8.encode path) = .ok fd ∧
      st.tree.kindAt fd ≠ .dir ∧ st.content (st.tree.fs.stat fd).identity = bytes := by
  unfold read
  rw [if_neg hnul, hread]
  dsimp only
  cases hopen : st.tree.fs.openPath host.cwd (Utf8.encode path) with
  | error e => simp
  | ok fd => cases hkind : st.tree.kindAt fd <;> simp [hkind]

/-- What is written is where the wrapper looks for it. -/
theorem openPath_written {path parent name p : Str} {dir : List Bytes} {inode : ExecutableIdentity} {bytes : Bytes}
    (hsig : SigFile path parent name) (habs : Path.isAbsolute path = true)
    (hcheck : checkPath st.tree.fs parent .positional [] = .ok ⟨p, dir⟩)
    (hw : WrittenTo st st' dir (Utf8.encode name) inode bytes) :
    st'.tree.fs.openPath host.cwd (Utf8.encode (path ++ ".sig")) =
        (if PATH_MAX ≤ (Utf8.encode (path ++ ".sig")).length then .error ENAMETOOLONG
        else .ok (dir ++ [Utf8.encode name])) ∧
      st'.tree.kindAt (dir ++ [Utf8.encode name]) ≠ .dir ∧
      st'.content (st'.tree.fs.stat (dir ++ [Utf8.encode name])).identity = bytes := by
  obtain ⟨-, targets, visited, hr, hlen, -⟩ := checkPath_accepts.mp hcheck
  obtain ⟨hfile, hstat⟩ := hw.file
  obtain ⟨o, ho, -⟩ := hw.entry
  have hlookup : st'.tree.fs.lookup dir (Utf8.encode name) = some (dir ++ [Utf8.encode name]) :=
    Tree.lookupAt_some.mpr ⟨⟨o, ho⟩, rfl⟩
  have hlink : st'.tree.fs.isSymlink (dir ++ [Utf8.encode name]) = false := by
    have hkind' : st'.tree.fs.kind (dir ++ [Utf8.encode name]) = .file := hfile
    rw [FileSystem.isSymlink, hkind']
  have hfollow := (hw.grows.resolves hr).follow_entry hlookup hlink
    (Nat.le_trans hlen (by decide : MAX_SYMLINK_DEPTH ≤ MAXSYMLINKS))
  rw [← hsig.segments_eq] at hfollow
  refine ⟨openPath_of_follow (Path.isAbsolute_append habs) hsig.file hfollow, by simp [hfile], ?_⟩
  rw [hstat, hw.content, Function.update_self]

/-- A signature of another length is refused, whatever the key. -/
theorem verifiedPolicy_short {path pubkeyPath : Str}
    (h : ∀ sig, host.read st (path ++ ".sig") = .ok sig → sig.length ≠ 64) :
    ∃ e, host.verifiedPolicy st path pubkeyPath = .error e := by
  cases hrun : host.verifiedPolicy st path pubkeyPath with
  | error e => exact ⟨e, rfl⟩
  | ok bytes =>
    unfold verifiedPolicy at hrun
    obtain ⟨_, -, hrun⟩ := bind_ok.mp hrun
    obtain ⟨pubkey, -, hrun⟩ := bind_ok.mp hrun
    split at hrun
    · cases hrun
    · obtain ⟨_, -, hrun⟩ := bind_ok.mp hrun
      obtain ⟨sig, hsig, hrun⟩ := bind_ok.mp hrun
      split at hrun
      · cases hrun
      · next hlength => exact absurd (not_not.mp hlength) (h sig (mapError_ok.mp hsig))

end SigningHost

/-- Where the signature of a policy is. -/
def SigPlace (st : Storage) (policyPath : Str) (dir : List Bytes) (name : Bytes) : Prop :=
  ∃ p parent fileName, SigFile policyPath parent fileName ∧ Utf8.encode fileName = name ∧
    checkPath st.tree.fs parent .positional [] = .ok ⟨p, dir⟩

/-- **What a run of `sign` leaves**: nothing, or under the signature's name the
signature, or a shorter text and an error. -/
theorem cmdSign_cases {host : SigningHost} {st st' : Storage} {beforeRead : Storage → Storage}
    {policyPath keyPath : Str} {r : Except ReadError Unit} (habs : Path.isAbsolute policyPath = true)
    (hnul : '\x00' ∉ policyPath) (hrun : host.cmdSignWithBeforeRead beforeRead st policyPath keyPath = (r, st')) :
    ((∃ e, r = .error e) ∧ (st' = st ∨ st' = beforeRead st)) ∨
    ∃ key securePath policyBytes dir name inode written, host.loadSigningKey st keyPath = .ok key ∧
      host.openPathSecurelyForRead st policyPath = .ok securePath ∧
      host.readFd { st with content := (beforeRead st).content } securePath.fd policyPath = .ok policyBytes ∧
      SigPlace (beforeRead st) policyPath dir name ∧ WrittenTo (beforeRead st) st' dir name inode written ∧
      ((r = .ok () ∧ written = host.scheme.sign key policyBytes) ∨
        ((∃ e, r = .error e) ∧ written.length < (host.scheme.sign key policyBytes).length)) := by
  obtain ⟨parent, name, hsig⟩ := sigFile habs hnul
  unfold SigningHost.cmdSignWithBeforeRead at hrun
  cases hkey : host.loadSigningKey st keyPath with
  | error e =>
    simp only [hkey] at hrun
    cases hrun
    exact .inl ⟨⟨_, rfl⟩, .inl rfl⟩
  | ok key =>
    simp only [hkey] at hrun
    cases hopen : host.openPathSecurelyForRead st policyPath with
    | error e =>
      simp only [hopen] at hrun
      cases hrun
      exact .inl ⟨⟨_, rfl⟩, .inl rfl⟩
    | ok securePath =>
      simp only [hopen] at hrun
      cases hread : host.readFd { st with content := (beforeRead st).content } securePath.fd policyPath with
      | error e =>
        simp only [hread] at hrun
        cases hrun
        exact .inl ⟨⟨_, rfl⟩, .inr rfl⟩
      | ok policyBytes =>
        simp only [hread] at hrun
        cases hwrite : host.writeFileSecurelyWithoutFollowingSymlinks (beforeRead st) (policyPath ++ ".sig")
            (host.scheme.sign key policyBytes) with
        | mk r' st'' =>
          rw [hwrite] at hrun
          cases hrun
          obtain ⟨rfl, e, rfl⟩ | ⟨p, dir, inode, written, hcheck, hw, hr⟩ := SigningHost.writeFile_cases hsig habs hwrite
          · exact .inl ⟨⟨_, rfl⟩, .inr rfl⟩
          · refine .inr ⟨key, securePath, policyBytes, dir, Utf8.encode name, inode, written, rfl, rfl, hread,
              ⟨p, parent, name, hsig, rfl, hcheck⟩, hw, ?_⟩
            obtain ⟨rfl, hwritten⟩ | ⟨⟨e, rfl⟩, hlen⟩ := hr
            · exact .inl ⟨rfl, hwritten⟩
            · exact .inr ⟨⟨_, rfl⟩, hlen⟩

/-! ## A policy and its keys -/

/-- A policy with the one tool `apt`. -/
def policyText : Str :=
  "\x7b\"version\":\"1.0\",\"serial\":7,\"global_settings\":\x7b\"blocked_paths\":[]\x7d,\"tools\":".toList ++
    "\x7b\"apt\":\x7b\"real_binary\":\"/usr/bin/apt\",\"help_description\":\"apt\"\x7d\x7d\x7d".toList

def signedPolicy : SecureSudoersPolicy where
  serial := 7
  globalSettings := { blockedPaths := [] }
  tools := .single "apt" { realBinary := "/usr/bin/apt", helpDescription := "apt" }

def signingKey : Bytes := (List.range 32).map UInt8.ofNat

def verifyingKey : Bytes :=
  [3, 161, 7, 191, 243, 206, 16, 190, 29, 112, 221, 24, 231, 75, 192, 153, 103, 228, 214, 48, 155, 165, 13, 95, 29,
    220, 134, 100, 18, 85, 49, 184]

/-- The signature of `policyText` with `signingKey`. -/
def policySignature : Bytes :=
  [116, 154, 4, 35, 9, 153, 70, 25, 214, 207, 222, 183, 166, 119, 89, 86, 140, 13, 199, 234, 45, 159, 71, 169, 146,
    193, 130, 145, 245, 197, 109, 144, 230, 175, 171, 87, 223, 155, 51, 85, 131, 81, 27, 171, 182, 139, 179, 87, 104,
    29, 162, 234, 84, 164, 166, 78, 152, 200, 19, 222, 210, 32, 132, 4]

/-- For other keys and texts, a key and a signature of the right length. -/
def padded (n : Nat) (bytes : Bytes) : Bytes := (bytes ++ List.replicate n 0).take n

theorem padded_length {n : Nat} {bytes : Bytes} : (padded n bytes).length = n := by
  rw [padded, List.length_take, List.length_append, List.length_replicate]
  omega

def policyScheme : SignatureScheme where
  verifyingKey key := if key = signingKey then verifyingKey else padded 32 key
  sign key message := if key = signingKey ∧ message = Utf8.encode policyText then policySignature else padded 64 message
  fromBytes _ := .ok ()
  verify key message sig :=
    if (key = verifyingKey ∧ message = Utf8.encode policyText ∧ sig = policySignature) ∨ sig = padded 64 message then .ok ()
    else .error "signature error"

theorem policyScheme_ed25519 : policyScheme.Ed25519 where
  sign_length {key message} := by
    show (if _ then _ else _ : Bytes).length = 64
    split
    · rfl
    · exact padded_length
  key_length {key} := by
    show (if _ then _ else _ : Bytes).length = 32
    split
    · rfl
    · exact padded_length
  fromBytes := rfl
  verify {key message} := by
    refine if_pos ?_
    dsimp only [policyScheme]
    by_cases h : key = signingKey ∧ message = Utf8.encode policyText
    · exact .inl ⟨if_pos h.1, h.2, if_pos h⟩
    · exact .inr (if_neg h)

/-- The policy `/p.json`, and the keys beside it. -/
def policyStorage : Storage where
  tree := .ofList [(["p.json"], .file 1), (["key.pem"], .file 2), (["pub.pem"], .file 3)]
  flags _ := 0
  content inode :=
    if inode.ino = 1 then Utf8.encode policyText
    else if inode.ino = 2 then Utf8.encode (keyFileContent base64Standard "SECURE SUDOERS PRIVATE KEY" signingKey)
    else if inode.ino = 3 then Utf8.encode (keyFileContent base64Standard "SECURE SUDOERS PUBLIC KEY" verifyingKey)
    else []

/-- `fails` is why a write ends, and where. -/
def policyHost (fails : Option (Errno × Nat)) : SigningHost where
  engine := base64Standard
  scheme := policyScheme
  reader := rootHost
  cwd := []
  euid := 0
  umask := 0o22
  refusesWrite _ _ _ := none
  refusesRead _ := none
  newInode _ := { dev := 0, ino := 9 }
  fails
  fromSlice bytes :=
    if bytes = Utf8.encode policyText then .ok signedPolicy else .error "expected value at line 1 column 1"
  regexNew := defaultRegexNew

theorem run_eq {α β : Type} {p : α × β} {a : α} (h : p.1 = a) : p = (a, p.2) := by rw [← h]

def signPolicy (fails : Option (Errno × Nat)) : Except ReadError Unit × Storage :=
  (policyHost fails).cmdSign policyStorage "/p.json" "/key.pem"

/-! ## Signing and loading -/

/-- **Signing fails closed.** A run that fails has changed nothing, or has left a
text that is no signature, and then the policy does not load, whatever the
public key. And no run changes any file but that under the signature's name in
the policy's directory, or writes where a link there leads. -/
theorem sign_fails_closed {host : SigningHost} (hscheme : host.scheme.Ed25519) {st st' : Storage}
    {beforeRead : Storage → Storage} {policyPath keyPath : Str} {r : Except ReadError Unit}
    (habs : Path.isAbsolute policyPath = true) (hnul : '\x00' ∉ policyPath)
    (hrun : host.cmdSignWithBeforeRead beforeRead st policyPath keyPath = (r, st')) :
    ((∃ e, r = .error e) → (st' = st ∨ st' = beforeRead st) ∨
      ∀ pubkeyPath, ∃ e, host.loadPolicyWithPubkey st' policyPath pubkeyPath = .error e) ∧
    ((st' = st ∨ st' = beforeRead st) ∨ ∃ dir name inode bytes, SigPlace (beforeRead st) policyPath dir name ∧
      WrittenTo (beforeRead st) st' dir name inode bytes) := by
  obtain ⟨-, hsame⟩ | ⟨key, _, bytes, dir, name, inode, written, -, -, -, hplace, hw, hr⟩ := cmdSign_cases habs hnul hrun
  · exact ⟨fun _ => .inl hsame, .inl hsame⟩
  · refine ⟨fun hfails => .inr fun pubkeyPath => ?_, .inr ⟨dir, name, inode, written, hplace, hw⟩⟩
    obtain ⟨rfl, -⟩ | ⟨-, hlen⟩ := hr
    · obtain ⟨e, he⟩ := hfails
      cases he
    · obtain ⟨p, parent, fileName, hsig, rfl, hcheck⟩ := hplace
      obtain ⟨hopen, hfile, hcontent⟩ := @SigningHost.openPath_written host _ _ _ _ _ _ _ _ _ hsig habs hcheck hw
      have hshort : ∀ sig, host.read st' (policyPath ++ ".sig") = .ok sig → sig.length ≠ 64 := by
        intro sig hsig
        split at hopen
        · unfold SigningHost.read at hsig
          rw [hopen] at hsig
          split at hsig
          · cases hsig
          · split at hsig <;> cases hsig
        · obtain ⟨e, he⟩ | hok := SigningHost.read_of_openPath hopen hfile
          · rw [he] at hsig
            cases hsig
          · rw [hok, hcontent] at hsig
            cases hsig
            rw [hscheme.sign_length] at hlen
            omega
      obtain ⟨e, he⟩ := @SigningHost.verifiedPolicy_short host st' policyPath pubkeyPath hshort
      rw [SigningHost.loadPolicyWithPubkey, he]
      exact ⟨e, rfl⟩

/-- The write ends after ten octets. -/
theorem sign_fails_closed_full : (signPolicy (some (.other 28, 10))).2 ≠ policyStorage ∧
    ∀ pubkeyPath, ∃ e, (policyHost (some (.other 28, 10))).loadPolicyWithPubkey (signPolicy (some (.other 28, 10))).2
      "/p.json" pubkeyPath = .error e := by
  have hwritten : (signPolicy (some (.other 28, 10))).2 ≠ policyStorage := by
    intro he
    have hsame := congrArg (fun st => (st.tree.object [Utf8.encode "p.json.sig"]).isSome) he
    exact absurd hsame (by decide +kernel)
  have hfails : (signPolicy (some (.other 28, 10))).1 =
      .error (.error (.ioContext "Failed to write /p.json.sig" (.other 28))) := by decide +kernel
  have hrun : (policyHost (some (.other 28, 10))).cmdSignWithBeforeRead id policyStorage "/p.json" "/key.pem" =
      (_, (signPolicy (some (.other 28, 10))).2) := run_eq hfails
  refine ⟨hwritten, ?_⟩
  obtain hsame | hrefused := (@sign_fails_closed (policyHost (some (.other 28, 10))) policyScheme_ed25519 policyStorage
    _ id "/p.json" "/key.pem" _ (by decide) (by decide) hrun).1 ⟨_, rfl⟩
  · exact absurd (hsame.elim id id) hwritten
  · exact hrefused

/-- A file of a key as `gen-keys` writes it. -/
theorem readPemBytes_keyFile {engine : Base64Engine} (hengine : engine.Standard) {reader : ReadHost} {st : Storage}
    {path label : Str} {key : Bytes} (hlabel : '\n' ∉ label) (hkey : key.length = 32)
    (hread : readFileToStringSecurely reader id st path = .ok (keyFileContent engine label key)) :
    readPemBytes engine reader st path label = .ok key := by
  have hne : key ≠ [] := by
    rintro rfl
    cases hkey
  refine (readPemBytes_section hengine).2 key [] [] hlabel hne (.inl rfl) List.not_mem_nil ?_
  rw [hread, List.nil_append, List.append_nil]

namespace SigningHost

variable {host : SigningHost} {st : Storage}

/-- The key that `sign` uses. -/
theorem loadSigningKey_keyFile (hengine : host.engine.Standard) {path : Str} {key : Bytes} (hkey : key.length = 32)
    (hread : readFileToStringSecurely host.reader id st path =
      .ok (keyFileContent host.engine "SECURE SUDOERS PRIVATE KEY" key)) :
    host.loadSigningKey st path = .ok key := by
  rw [loadSigningKey, readPemBytes_keyFile hengine (by decide) hkey hread]
  exact if_pos hkey

theorem openPathSecurelyForRead_ok {path : Str} (habs : Path.isAbsolute path = true) {securePath : SecurePath (List Bytes)}
    (h : host.openPathSecurelyForRead st path = .ok securePath) :
    checkPath st.tree.fs path .positional [] = .ok securePath := by
  have hpath : absolutePathStr host.reader path = .ok path := if_pos habs
  unfold openPathSecurelyForRead at h
  simp only [hpath] at h
  exact mapError_ok.mp h

theorem readFd_ok {fd : List Bytes} {path : Str} {bytes : Bytes} (h : host.readFd st fd path = .ok bytes) :
    st.tree.kindAt fd ≠ .dir ∧ st.content (st.tree.fs.stat fd).identity = bytes := by
  unfold readFd at h
  dsimp only at h
  split at h
  · cases h
  · split at h
    · cases h
    · next hfile =>
      cases h
      exact ⟨hfile, rfl⟩

/-- With a signature of its text a policy is verified. -/
theorem verifiedPolicy_signed (hengine : host.engine.Standard) (hscheme : host.scheme.Ed25519)
    {path pubkeyPath : Str} {key bytes : Bytes}
    (hpublic : readFileToStringSecurely host.reader id st pubkeyPath =
      .ok (keyFileContent host.engine "SECURE SUDOERS PUBLIC KEY" (host.scheme.verifyingKey key)))
    (hread : host.read st path = .ok bytes)
    (hsig : host.read st (path ++ ".sig") = .ok (host.scheme.sign key bytes)) :
    host.verifiedPolicy st path pubkeyPath = .ok bytes := by
  have hpubkey := readPemBytes_keyFile hengine (by decide) hscheme.key_length hpublic
  unfold verifiedPolicy
  refine bind_ok.mpr ⟨bytes, mapError_ok.mpr hread, bind_ok.mpr ⟨_, hpubkey, ?_⟩⟩
  rw [if_neg (not_not.mpr hscheme.key_length)]
  refine bind_ok.mpr ⟨(), mapError_ok.mpr hscheme.fromBytes, bind_ok.mpr ⟨_, mapError_ok.mpr hsig, ?_⟩⟩
  rw [if_neg (not_not.mpr hscheme.sign_length)]
  exact bind_ok.mpr ⟨(), mapError_ok.mpr hscheme.verify, rfl⟩

theorem loadPolicyWithPubkey_ok {path pubkeyPath : Str} {bytes : Bytes} {policy : SecureSudoersPolicy}
    (h : host.verifiedPolicy st path pubkeyPath = .ok bytes) :
    host.loadPolicyWithPubkey st path pubkeyPath = .ok policy ↔
      ∃ parsed, host.fromSlice bytes = .ok parsed ∧ parsed.validate st.tree.fs host.regexNew = .ok policy := by
  rw [loadPolicyWithPubkey, bind_ok]
  simp only [h, bind_ok, mapError_ok, Except.ok.injEq, exists_eq_left']

end SigningHost

/-- **A policy that has just been signed is verified**, with the keys as
`gen-keys` writes them: what loads is the text that was signed, parsed and
validated. -/
theorem signed_policy_loads {host : SigningHost} (hengine : host.engine.Standard) (hscheme : host.scheme.Ed25519)
    {st st' : Storage} {policyPath keyPath pubkeyPath : Str} {key : Bytes} (hkey : key.length = 32)
    (habs : Path.isAbsolute policyPath = true) (hnul : '\x00' ∉ policyPath)
    (hopens : ∃ fd, st.tree.fs.openPath host.cwd (Utf8.encode policyPath) = .ok fd)
    (hlength : (Utf8.encode (policyPath ++ ".sig")).length < PATH_MAX)
    (hreads : host.refusesRead policyPath = none ∧ host.refusesRead (policyPath ++ ".sig") = none)
    (hprivate : readFileToStringSecurely host.reader id st keyPath =
      .ok (keyFileContent host.engine "SECURE SUDOERS PRIVATE KEY" key))
    (hpublic : readFileToStringSecurely host.reader id st' pubkeyPath =
      .ok (keyFileContent host.engine "SECURE SUDOERS PUBLIC KEY" (host.scheme.verifyingKey key)))
    (hlinks : ∀ fd sig, st'.tree.fs.openPath host.cwd (Utf8.encode policyPath) = .ok fd →
      st'.tree.fs.openPath host.cwd (Utf8.encode (policyPath ++ ".sig")) = .ok sig →
      (st'.tree.fs.stat fd).identity ≠ (st'.tree.fs.stat sig).identity)
    (hrun : host.cmdSign st policyPath keyPath = (.ok (), st')) :
    ∃ bytes, host.read st policyPath = .ok bytes ∧ ∀ policy,
      host.loadPolicyWithPubkey st' policyPath pubkeyPath = .ok policy ↔
        ∃ parsed, host.fromSlice bytes = .ok parsed ∧ parsed.validate st'.tree.fs host.regexNew = .ok policy := by
  obtain ⟨⟨e, he⟩, -⟩ | ⟨key', securePath, bytes, dir, name, inode, written, hkey', hsecure, hpolicy, hplace, hw, hr⟩ :=
    cmdSign_cases habs hnul hrun
  · cases he
  obtain ⟨-, rfl⟩ | ⟨⟨e, he⟩, -⟩ := hr
  · cases hkey'.symm.trans (SigningHost.loadSigningKey_keyFile hengine hkey hprivate)
    obtain ⟨hfile', hcontent⟩ := SigningHost.readFd_ok hpolicy
    obtain ⟨p, parent, fileName, hsig, rfl, hcheck⟩ := hplace
    -- the policy is opened where it was, before the signature is written and after
    obtain ⟨-, _, _, hway, -⟩ := checkPath_accepts.mp (SigningHost.openPathSecurelyForRead_ok habs hsecure)
    obtain ⟨fd, hopen⟩ := hopens
    obtain rfl := hway.opened habs hopen
    have hopen' := SigningHost.openPath_extends hw.grows hopen
    obtain ⟨hsigOpen, hsigFile, hsigContent⟩ := @SigningHost.openPath_written host _ _ _ _ _ _ _ _ _ hsig habs hcheck hw
    rw [if_neg (Nat.not_le.mpr hlength)] at hsigOpen
    have hdistinct := hlinks _ _ hopen' hsigOpen
    have hother : securePath.fd ≠ dir ++ [Utf8.encode fileName] := by
      intro he
      exact hdistinct (by rw [he])
    have hobject := hw.others _ hother
    have hsame : st'.tree.fs.stat securePath.fd = st.tree.fs.stat securePath.fd :=
      congrArg (·.elim {} Object.stat) hobject
    have hkind : st'.tree.kindAt securePath.fd = st.tree.kindAt securePath.fd :=
      congrArg (·.elim Kind.file Object.kind) hobject
    have hinode : (st'.tree.fs.stat securePath.fd).identity ≠ inode := by
      intro he
      exact hdistinct (he.trans hw.file.2.symm)
    have hsigNul : '\x00' ∉ policyPath ++ ".sig".toList := by
      rw [List.mem_append, not_or]
      exact ⟨hnul, by decide⟩
    have hread : host.read st policyPath = .ok bytes :=
      (SigningHost.read_ok hnul hreads.1).mpr ⟨_, hopen, hfile', hcontent⟩
    have hread' : host.read st' policyPath = .ok bytes := by
      refine (SigningHost.read_ok hnul hreads.1).mpr ⟨_, hopen', hkind ▸ hfile', ?_⟩
      rw [hw.content, Function.update_of_ne hinode, hsame]
      exact hcontent
    have hsigRead := (SigningHost.read_ok hsigNul hreads.2).mpr ⟨_, hsigOpen, hsigFile, hsigContent⟩
    exact ⟨bytes, hread, fun policy => SigningHost.loadPolicyWithPubkey_ok
      (SigningHost.verifiedPolicy_signed hengine hscheme hpublic hread' hsigRead)⟩
  · cases he

/-- The policy of the text above is loaded. -/
theorem signed_policy_loads_policy : ∃ policy,
    (policyHost none).loadPolicyWithPubkey (signPolicy none).2 "/p.json" "/pub.pem" = .ok policy := by
  have hrun : signPolicy none = (.ok (), (signPolicy none).2) := run_eq (by decide +kernel)
  have hopen : (signPolicy none).2.tree.fs.openPath [] (Utf8.encode "/p.json") = .ok _ := eq_ok_get (by decide +kernel)
  have hopenSig : (signPolicy none).2.tree.fs.openPath [] (Utf8.encode "/p.json.sig") = .ok _ :=
    eq_ok_get (by decide +kernel)
  obtain ⟨bytes, hread, hload⟩ := @signed_policy_loads (policyHost none) base64Standard_standard policyScheme_ed25519
    policyStorage (signPolicy none).2 "/p.json" "/key.pem" "/pub.pem" signingKey (by decide) (by decide) (by decide)
    ⟨_, eq_ok_get (by decide +kernel)⟩ (by decide) ⟨rfl, rfl⟩ (by decide +kernel) (by decide +kernel)
    (by
      intro fd sig hfd hsig
      obtain rfl := Except.ok.inj (hopen.symm.trans hfd)
      obtain rfl := Except.ok.inj (hopenSig.symm.trans hsig)
      decide +kernel) hrun
  have htext : (policyHost none).read policyStorage "/p.json" = .ok (Utf8.encode policyText) := by decide +kernel
  obtain rfl := Except.ok.inj (htext.symm.trans hread)
  have hparsed : (policyHost none).fromSlice (Utf8.encode policyText) = .ok signedPolicy := by
    dsimp only [policyHost]
    exact if_pos rfl
  exact ⟨_, (hload _).mpr ⟨_, hparsed, rfl⟩⟩

end SecureSudoers
