/-
The entry points of the tools (`path_security.rs`, `installer/links.rs`,
`installer/sudoers_io.rs`): each is made a hard link of the managed binary, and
sudo is told to run it as root.

`linkTools_linked` says that they are links of the managed binary when all is
done, for tools none of which is a later one's backup.
-/
import SecureSudoers.Tree

namespace SecureSudoers

/-! ## Directories only root can change -/

/-- `{:03o}`. -/
def octal3 (n : Nat) : Str := List.leftpad 3 '0' (Nat.toDigits 8 n)

/-- `ensure_directory_is_hardened`, run as `euid`. -/
def ensureDirectoryIsHardened {D : Type} (fs : FileSystem D) (euid : Nat) (secureDir : SecurePath D) (label : Str) :
    Except Error Unit :=
  let st := fs.stat secureDir.fd
  let mode := st.mode % 0o1000
  if fs.kind secureDir.fd ≠ .dir then
    .error (.security ("Security violation: " ++ label ++ " " ++ secureDir.path ++ " is not a directory"))
  else if euid = 0 ∧ st.uid ≠ 0 then
    .error (.security ("Security violation: " ++ label ++ " " ++ secureDir.path ++
      " must be owned by root (uid 0), found uid " ++ Nat.toDigits 10 st.uid))
  else if euid = 0 ∧ mode &&& 0o022 ≠ 0 then
    .error (.security ("Security violation: " ++ label ++ " " ++ secureDir.path ++
      " must not be writable by group/others (mode " ++ octal3 mode ++ ")"))
  else .ok ()

def secureDirectory {D : Type} (fs : FileSystem D) (euid : Nat) (path label : Str) : Except Error (SecurePath D) := do
  let secureDir ← checkPath fs path .positional []
  ensureDirectoryIsHardened fs euid secureDir label
  .ok secureDir

def secureParentDirectory {D : Type} (fs : FileSystem D) (euid : Nat) (target label : Str) :
    Except Error (SecurePath D) :=
  match Path.parent target with
  | none => .error (.system ("Cannot validate " ++ label ++ ": missing parent directory for " ++ target))
  | some parent => secureDirectory fs euid parent label

/-! ## The links -/

/-- What the loop over the tools is given. -/
structure LinkContext where
  binary : Str
  binaryDir : List Bytes
  binaryName : Bytes
  expectedIdentity : ExecutableIdentity
  entryPointDir : Str
  entryDir : List Bytes

variable (k : Refusals)

/-- `install_tool_links_to` before its loop. -/
def prepareLinks (euid : Nat) (t : Tree) (binary entryPointDir : Str) : Except Str LinkContext :=
  match secureParentDirectory t.fs euid binary "managed binary parent directory" with
  | .error e => .error ("Cannot securely resolve managed binary " ++ binary ++ ": " ++ e.display)
  | .ok secureBinaryParent =>
    match Path.fileName binary with
    | none => .error ("Cannot determine managed binary name from path " ++ binary)
    | some binaryName =>
      if '\x00' ∈ binaryName then .error ("Managed binary path contains interior NUL byte: " ++ binary)
      else match t.fstatat k secureBinaryParent.fd (Utf8.encode binaryName) with
        | .error e => .error ("Cannot stat managed binary " ++ binary ++ ": " ++ e.display)
        | .ok binaryStat =>
          if binaryStat.kind ≠ .file then .error ("Managed binary " ++ binary ++ " is not a regular file")
          else match secureDirectory t.fs euid entryPointDir "entry-point directory" with
            | .error e => .error ("Cannot securely resolve entry-point directory " ++ entryPointDir ++ ": " ++ e.display)
            | .ok secureEntryDir => .ok
              { binary
                binaryDir := secureBinaryParent.fd
                binaryName := Utf8.encode binaryName
                expectedIdentity := binaryStat.stat.identity
                entryPointDir
                entryDir := secureEntryDir.fd }

/-- The name a tool's file is moved to. -/
def backupName (tool : Str) : Str := tool ++ ".bak"

/-- What is under the tool's name makes room, unless it is the link already. -/
def clearEntry (ctx : LinkContext) (t : Tree) (tool linkPath : Str) : Except Str (Tree × Bool) :=
  let name := Utf8.encode tool
  match t.fstatat k ctx.entryDir name with
  | .error .ENOENT => .ok (t, false)
  | .error e => .error ("Cannot stat " ++ linkPath ++ ": " ++ e.display)
  | .ok stat =>
    match stat.kind with
    | .symlink _ =>
      match t.unlinkat k ctx.entryDir name with
      | .ok t => .ok (t, false)
      | .error e => .error ("Cannot remove old symlink " ++ linkPath ++ ": " ++ e.display)
    | .file =>
      if stat.stat.identity = ctx.expectedIdentity then .ok (t, true)
      else match t.renameat k ctx.entryDir name (Utf8.encode (backupName tool)) with
        | .ok t => .ok (t, false)
        | .error e => .error ("Cannot back up " ++ linkPath ++ ": " ++ e.display)
    | .dir => .error ("Skipping " ++ linkPath ++ ": not a regular file or symlink")

/-- One tool of the loop: the file system after it, and the error it leaves if it fails. -/
def linkTool (ctx : LinkContext) (t : Tree) (tool : Str) : Tree × Except Str Unit :=
  let linkPath := Path.push ctx.entryPointDir tool
  if !isValidToolName tool then (t, .error ("Invalid tool name '" ++ tool ++ "'"))
  else if '\x00' ∈ tool then (t, .error ("Invalid tool name '" ++ tool ++ "': contains interior NUL byte"))
  else match clearEntry k ctx t tool linkPath with
    | .error e => (t, .error e)
    | .ok (t, true) => (t, .ok ())
    | .ok (t, false) =>
      match t.linkat k ctx.binaryDir ctx.binaryName ctx.entryDir (Utf8.encode tool) with
      | .ok t => (t, .ok ())
      | .error e =>
        if e = EXDEV then
          (t, .error ("Cannot create hard link " ++ linkPath ++ " to " ++ ctx.binary ++
            ": filesystems differ (EXDEV). " ++
            "Place the managed binary and entry-point directory on the same filesystem."))
        else (t, .error ("Cannot create hard link " ++ linkPath ++ " to " ++ ctx.binary ++ ": " ++ e.display))

/-- What a loop over the tools leaves: the file system, the tools that succeeded and the errors. -/
structure Links where
  tree : Tree
  successful : List Str
  errors : List Str

/-- The loop over the tools. -/
def linkTools (ctx : LinkContext) : Tree → List Str → Links
  | t, [] => ⟨t, [], []⟩
  | t, tool :: rest =>
    match linkTool k ctx t tool with
    | (t, .ok ()) =>
      let links := linkTools ctx t rest
      { links with successful := tool :: links.successful }
    | (t, .error e) =>
      let links := linkTools ctx t rest
      { links with errors := e :: links.errors }

def installToolLinksTo (euid : Nat) (t : Tree) (tools : List Str) (binary entryPointDir : Str) : Links :=
  match prepareLinks k euid t binary entryPointDir with
  | .error e => ⟨t, [], [e]⟩
  | .ok ctx => linkTools k ctx t tools

/-! ## What the loop leaves -/

theorem isName_tool {tool : Str} (h : isValidToolName tool = true) : Path.IsName tool := by
  unfold isValidToolName at h
  split at h
  · cases h
  · next hne =>
    simp only [not_or] at hne
    exact ⟨hne.1, hne.2.1, hne.2.2, fun hs => absurd (List.all_eq_true.mp h _ hs) (by decide)⟩

/-- A tool's name and its backup's are names a directory can hold. -/
theorem isEntryName_tool {tool : Str} (h : isValidToolName tool = true) (hnul : '\x00' ∉ tool) :
    IsEntryName (Utf8.encode tool) ∧ IsEntryName (Utf8.encode (backupName tool)) := by
  have hn := isName_tool h
  refine ⟨isEntryName_encode.mpr ⟨hn, hnul⟩, isEntryName_encode.mpr ⟨⟨?_, ?_, ?_, ?_⟩, ?_⟩⟩
  · exact List.append_ne_nil_of_left_ne_nil hn.ne_nil _
  · exact fun he => absurd (congrArg List.length he) (by simp [backupName])
  · exact fun he => absurd (congrArg List.length he) (by simp [backupName])
  · exact fun hm => (List.mem_append.mp hm).elim hn.no_slash (by decide)
  · exact fun hm => (List.mem_append.mp hm).elim hnul (by decide)

variable {k} {ctx : LinkContext} {t t' : Tree} {tool : Str}

namespace LinkContext

/-- Where the managed binary is. -/
def managed (ctx : LinkContext) : List Bytes := ctx.binaryDir ++ [ctx.binaryName]

def entryOf (ctx : LinkContext) (name : Str) : List Bytes := ctx.entryDir ++ [Utf8.encode name]

/-- At `q` there is a link of the managed binary. -/
def IsLink (ctx : LinkContext) (t : Tree) (q : List Bytes) : Prop :=
  ∃ o, t.object q = some o ∧ o.kind = .file ∧ o.stat.identity = ctx.expectedIdentity

end LinkContext

theorem entryOf_inj {a b : Str} : ctx.entryOf a = ctx.entryOf b ↔ a = b := by
  unfold LinkContext.entryOf
  rw [List.append_cancel_left_eq, List.cons.injEq, Utf8.encode_inj, and_iff_left rfl]

/-- What one tool can change: what is under its name and its backup's, and never a directory. -/
structure Touches (ctx : LinkContext) (tool : Str) (t t' : Tree) : Prop where
  only {q : List Bytes} : q ≠ ctx.entryOf tool → q ≠ ctx.entryOf (backupName tool) → t'.object q = t.object q
  dirs : t.KeepsDirs t'

theorem Touches.refl : Touches ctx tool t t := ⟨fun _ _ => rfl, fun h _ => h⟩

theorem Touches.trans {t'' : Tree} (h : Touches ctx tool t t') (h' : Touches ctx tool t' t'') :
    Touches ctx tool t t'' :=
  ⟨fun hq hb => (h'.only hq hb).trans (h.only hq hb), fun ho hk => h'.dirs (h.dirs ho hk) hk⟩

/-- Changing an entry that is no directory, under one of the two names. -/
theorem Touches.set {name : Str} {o : Option Object} (hname : name = tool ∨ name = backupName tool)
    (hdir : ∀ o, t.object (ctx.entryOf name) = some o → o.kind ≠ .dir) :
    Touches ctx tool t (t.set ctx.entryDir (Utf8.encode name) o) where
  only hq hb := by
    rw [Tree.object_set, if_neg]
    rcases hname with rfl | rfl
    · exact hq
    · exact hb
  dirs {q o'} ho hk := by
    rw [Tree.object_set, if_neg]
    · exact ho
    · intro he
      subst he
      exact hdir o' ho hk

/-- The tool's file becomes its backup, in the place of a file of that name. -/
theorem renameat_backup {stat : Object} (hbak : IsEntryName (Utf8.encode (backupName tool)))
    (hobj : t.object (ctx.entryOf tool) = some stat) (hkind : stat.kind ≠ .dir)
    (h : t.renameat k ctx.entryDir (Utf8.encode tool) (Utf8.encode (backupName tool)) = .ok t') :
    Touches ctx tool t t' := by
  obtain ⟨hnew, o, ho, -, ⟨rfl, -⟩ | rfl⟩ := Tree.renameat_ok h
  · exact .refl
  · have hfirst : Touches ctx tool t (t.set ctx.entryDir (Utf8.encode tool) none) :=
      .set (.inl rfl) fun o' ho' => Option.some.inj (hobj.symm.trans ho') ▸ hkind
    refine hfirst.trans (.set (.inr rfl) fun o' ho' => ?_)
    have hne : ctx.entryOf (backupName tool) ≠ ctx.entryOf tool := fun he =>
      absurd (congrArg List.length (entryOf_inj.mp he)) (by simp [backupName])
    have hold : t.object (ctx.entryOf (backupName tool)) = some o' := (if_neg hne).symm.trans ho'
    exact hnew o' (Tree.entry_some.mpr ⟨(Tree.entry_some.mp ho).1, hbak, hold⟩)

/-- Clearing a tool's name finds the link already there, or touches the two names. -/
theorem clearEntry_ok {linkPath : Str} {done : Bool} (hvalid : isValidToolName tool = true) (hnul : '\x00' ∉ tool)
    (h : clearEntry k ctx t tool linkPath = .ok (t', done)) :
    Touches ctx tool t t' ∧ (t' = t ∨ ¬ctx.IsLink t (ctx.entryOf tool)) ∧
      (done = true → ctx.IsLink t' (ctx.entryOf tool)) := by
  unfold clearEntry at h
  extract_lets name at h
  split at h
  · cases h
    exact ⟨.refl, .inl rfl, nofun⟩
  · cases h
  · next stat hstat =>
    obtain ⟨-, -, hobj⟩ := Tree.entry_some.mp (Tree.fstatat_ok hstat)
    have hnot : ∀ {o'}, t.object (ctx.entryOf tool) = some o' → o' = stat := fun ho =>
      Option.some.inj (ho.symm.trans hobj)
    split at h
    · next target hkind =>
      split at h
      · next hun =>
        cases h
        obtain ⟨-, rfl⟩ := Tree.unlinkat_ok hun
        refine ⟨.set (.inl rfl) fun o' ho' => ?_, .inr ?_, nofun⟩
        · rw [hnot ho', hkind]
          nofun
        · rintro ⟨o', ho', hfile, -⟩
          rw [hnot ho', hkind] at hfile
          cases hfile
      · cases h
    · next hkind =>
      split at h
      · next hid =>
        cases h
        exact ⟨.refl, .inl rfl, fun _ => ⟨stat, hobj, hkind, hid⟩⟩
      · next hid =>
        split at h
        · next hren =>
          cases h
          have hdir : stat.kind ≠ .dir := by
            rw [hkind]
            nofun
          refine ⟨renameat_backup (isEntryName_tool hvalid hnul).2 hobj hdir hren, .inr ?_, nofun⟩
          rintro ⟨o', ho', -, hid'⟩
          exact hid (hnot ho' ▸ hid')
        · cases h
    · cases h

/-- Links stay, unless they are under the backup's name. -/
theorem Touches.isLink (ht : Touches ctx tool t t') (hsame : t' = t ∨ ¬ctx.IsLink t (ctx.entryOf tool))
    {q : List Bytes} (hq : q ≠ ctx.entryOf (backupName tool)) (h : ctx.IsLink t q) : ctx.IsLink t' q := by
  rcases hsame with rfl | hnot
  · exact h
  · have hne : q ≠ ctx.entryOf tool := fun he => hnot (he ▸ h)
    obtain ⟨o, ho, hk, hid⟩ := h
    exact ⟨o, (ht.only hne hq).trans ho, hk, hid⟩

/-- The new link: the name was free, and it now stands for what the managed binary does. -/
theorem linkat_entryOf (hname : IsEntryName (Utf8.encode tool))
    (h : t.linkat k ctx.binaryDir ctx.binaryName ctx.entryDir (Utf8.encode tool) = .ok t') :
    Touches ctx tool t t' ∧ t.object (ctx.entryOf tool) = none ∧
      t'.object (ctx.entryOf tool) = t.object ctx.managed := by
  obtain ⟨o, ho, hk, hnone, hdir, rfl⟩ := Tree.linkat_ok h
  have hfree : t.object (ctx.entryOf tool) = none := by
    cases hobj : t.object (ctx.entryOf tool) with
    | none => rfl
    | some o' =>
      have := Tree.entry_some.mpr ⟨hdir, hname, hobj⟩
      rw [hnone] at this
      cases this
  have hset : Touches ctx tool t (t.set ctx.entryDir (Utf8.encode tool) (some o)) := by
    refine .set (.inl rfl) fun o' ho' => ?_
    rw [hfree] at ho'
    cases ho'
  exact ⟨hset, hfree, (if_pos rfl).trans (Tree.entry_some.mp ho).2.2.symm⟩

/-- **One tool**: a link of the managed binary stays one unless it is under the
backup's name, directories stay, and a tool that succeeds has become a link. -/
theorem linkTool_step {r : Except Str Unit} (h : linkTool k ctx t tool = (t', r)) :
    (∀ {q}, q ≠ ctx.entryOf (backupName tool) → ctx.IsLink t q → ctx.IsLink t' q) ∧
      t.KeepsDirs t' ∧
      (r = .ok () → ctx.managed ≠ ctx.entryOf (backupName tool) → ctx.IsLink t ctx.managed →
        ctx.IsLink t' (ctx.entryOf tool)) := by
  have same : ∀ {e : Str}, (t, Except.error e) = (t', r) → t' = t ∧ r = .error e := fun h => by
    cases h
    exact ⟨rfl, rfl⟩
  unfold linkTool at h
  extract_lets linkPath at h
  split at h
  · obtain ⟨rfl, rfl⟩ := same h
    exact ⟨fun _ h => h, fun h _ => h, nofun⟩
  · next hvalid =>
    split at h
    · obtain ⟨rfl, rfl⟩ := same h
      exact ⟨fun _ h => h, fun h _ => h, nofun⟩
    · next hnul =>
      have hvalid : isValidToolName tool = true := by simpa using hvalid
      split at h
      · obtain ⟨rfl, rfl⟩ := same h
        exact ⟨fun _ h => h, fun h _ => h, nofun⟩
      · next t₁ hclear =>
        obtain ⟨ht, hsame, hdone⟩ := clearEntry_ok hvalid hnul hclear
        cases h
        exact ⟨ht.isLink hsame, ht.dirs, fun _ _ _ => hdone rfl⟩
      · next t₁ hclear =>
        obtain ⟨ht, hsame, -⟩ := clearEntry_ok hvalid hnul hclear
        split at h
        · next t₂ hlink =>
          cases h
          obtain ⟨hset, hfree, hnew⟩ := linkat_entryOf (isEntryName_tool hvalid hnul).1 hlink
          have hno : ¬ctx.IsLink t (ctx.entryOf tool) := by
            rcases hsame with rfl | hno
            · rintro ⟨o', ho', -⟩
              rw [hfree] at ho'
              cases ho'
            · exact hno
          refine ⟨(ht.trans hset).isLink (.inr hno), (ht.trans hset).dirs, fun _ hne hman => ?_⟩
          obtain ⟨o, ho, hk, hid⟩ := ht.isLink hsame hne hman
          exact ⟨o, hnew.trans ho, hk, hid⟩
        · split at h
          · cases h
            exact ⟨ht.isLink hsame, ht.dirs, nofun⟩
          · cases h
            exact ⟨ht.isLink hsame, ht.dirs, nofun⟩

/-- No tool is a later one's, or the backup of a later one. -/
def Apart (tools : List Str) : Prop := tools.Pairwise fun a b => a ≠ b ∧ a ≠ backupName b

/-- **The loop**: links of the managed binary that no tool backs up onto stay
links, directories stay, and the tools that succeed are links when it ends. -/
theorem linkTools_linked : ∀ {tools : List Str} {t : Tree},
    (∀ {q}, (∀ tool ∈ tools, q ≠ ctx.entryOf (backupName tool)) → ctx.IsLink t q →
        ctx.IsLink (linkTools k ctx t tools).tree q) ∧
      t.KeepsDirs (linkTools k ctx t tools).tree ∧
      (Apart tools → (∀ tool ∈ tools, ctx.managed ≠ ctx.entryOf (backupName tool)) → ctx.IsLink t ctx.managed →
        ∀ tool ∈ (linkTools k ctx t tools).successful,
          tool ∈ tools ∧ ctx.IsLink (linkTools k ctx t tools).tree (ctx.entryOf tool))
  | [], t => ⟨fun _ h => h, fun h _ => h, fun _ _ _ _ h => nomatch h⟩
  | tool :: rest, t => by
    obtain ⟨t', r, hstep⟩ : ∃ t' r, linkTool k ctx t tool = (t', r) := ⟨_, _, rfl⟩
    obtain ⟨hkeep, hdirs, hok⟩ := linkTool_step hstep
    obtain ⟨ihKeep, ihDirs, ihOk⟩ := @linkTools_linked rest t'
    have htree : (linkTools k ctx t (tool :: rest)).tree = (linkTools k ctx t' rest).tree := by
      rw [linkTools, hstep]
      cases r <;> rfl
    rw [htree]
    refine ⟨fun hq hl => ?_, fun ho hk => ihDirs (hdirs ho hk) hk, fun hapart hman hl u hu => ?_⟩
    · rw [List.forall_mem_cons] at hq
      exact ihKeep hq.2 (hkeep hq.1 hl)
    · rw [List.forall_mem_cons] at hman
      obtain ⟨hfirst, hrest⟩ := List.pairwise_cons.mp hapart
      have hl' := hkeep hman.1 hl
      rcases r with e | ⟨⟩
      · rw [linkTools, hstep] at hu
        exact (ihOk hrest hman.2 hl' u hu).imp_left (List.mem_cons_of_mem tool)
      · rw [linkTools, hstep] at hu
        rcases List.mem_cons.mp hu with rfl | hu
        · refine ⟨List.mem_cons_self, ihKeep (fun v hv he => ?_) (hok rfl hman.1 hl)⟩
          exact (hfirst v hv).2 (entryOf_inj.mp he)
        · exact (ihOk hrest hman.2 hl' u hu).imp_left (List.mem_cons_of_mem tool)

/-- Only valid names are linked. -/
theorem linkTools_valid : ∀ {tools : List Str} {t : Tree}, ∀ tool ∈ (linkTools k ctx t tools).successful,
    isValidToolName tool = true ∧ '\x00' ∉ tool
  | [], _ => nofun
  | tool :: rest, t => by
    intro u hu
    obtain ⟨t', r, hstep⟩ : ∃ t' r, linkTool k ctx t tool = (t', r) := ⟨_, _, rfl⟩
    rw [linkTools, hstep] at hu
    rcases r with e | ⟨⟩
    · exact linkTools_valid u hu
    · rcases List.mem_cons.mp hu with rfl | hu
      · unfold linkTool at hstep
        extract_lets linkPath at hstep
        split at hstep
        · cases hstep
        · next hvalid =>
          split at hstep
          · cases hstep
          · next hnul => exact ⟨by simpa using hvalid, hnul⟩
      · exact linkTools_valid u hu

theorem secureDirectory_ok {D : Type} {fs : FileSystem D} {euid : Nat} {path label : Str} {p : SecurePath D}
    (h : secureDirectory fs euid path label = .ok p) : checkPath fs path .positional [] = .ok p ∧ fs.kind p.fd = .dir := by
  obtain ⟨p', hcheck, h⟩ := bind_ok.mp h
  obtain ⟨⟨⟩, hhard, h⟩ := bind_ok.mp h
  cases h
  refine ⟨hcheck, ?_⟩
  unfold ensureDirectoryIsHardened at hhard
  extract_lets st mode at hhard
  split at hhard
  · cases hhard
  · next hdir => exact not_not.mp hdir

/-- The context of the loop: the managed binary is a link of itself, and the
entry-point directory is what its path resolves to. -/
theorem prepareLinks_ok {euid : Nat} {binary entryPointDir : Str}
    (h : prepareLinks k euid t binary entryPointDir = .ok ctx) :
    ctx.IsLink t ctx.managed ∧ t.kindAt ctx.entryDir = .dir ∧
      (∃ path, checkPath t.fs entryPointDir .positional [] = .ok ⟨path, ctx.entryDir⟩) ∧
      ∃ name, Path.fileName binary = some name ∧ ctx.binaryName = Utf8.encode name := by
  unfold prepareLinks at h
  split at h
  · cases h
  · split at h
    · cases h
    · next name hname =>
      split at h
      · cases h
      · split at h
        · cases h
        · next stat hstat =>
          split at h
          · cases h
          · next hkind =>
            split at h
            · cases h
            · next dir hdir =>
              cases h
              obtain ⟨hcheck, hk⟩ := secureDirectory_ok hdir
              have hobj := (Tree.entry_some.mp (Tree.fstatat_ok hstat)).2.2
              exact ⟨⟨stat, hobj, not_not.mp hkind, rfl⟩, hk, ⟨dir.path, hcheck⟩, name, hname, rfl⟩

/-! ## The drop-in -/

/-- Where sudo is told to find a tool. -/
def entryPath (entryPointDir tool : Str) : Str := entryPointDir ++ '/' :: tool

/-- The order of `sort_unstable` on strings. -/
def strLe (a b : Str) : Bool := !List.lex (Utf8.encode b) (Utf8.encode a)

/-- The commands the drop-in grants. -/
def grantedPaths (tools : List Str) (entryPointDir : Str) : List Str :=
  (tools.mergeSort strLe).map (entryPath entryPointDir)

def newline : Str := ['\n']

def generateSudoersContentWithDir (tools : List Str) (entryPointDir : Str) : Str :=
  if tools = [] then "# No tools authorized in policy. This file is intentionally empty." ++ newline
  else
    "# Managed by secure-sudoers-utils - do not edit manually." ++ newline ++
    "Defaults secure_path=" ++ [doubleQuote] ++ "/usr/local/bin:/usr/sbin:/usr/bin:/sbin:/bin" ++ [doubleQuote] ++
    newline ++ "ALL ALL=(root) " ++ List.intercalate (", " : Str) (grantedPaths tools entryPointDir) ++ newline

/-- The drop-in grants the entry points of its tools and nothing else. -/
theorem mem_grantedPaths {tools : List Str} {entryPointDir path : Str} :
    path ∈ grantedPaths tools entryPointDir ↔ ∃ tool ∈ tools, path = entryPath entryPointDir tool := by
  simp [grantedPaths, eq_comm]

end SecureSudoers
