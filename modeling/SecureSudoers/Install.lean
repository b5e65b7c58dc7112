/-
The whole installation (`install_with_paths_and_pubkey` in `installer.rs`): the
signed policy is read, its tools become links of the managed binary in the order
of their names, and the drop-in grants those that could be made.

`install_grants`: every path the drop-in grants is an entry of the managed
binary's file when it is written, and its command list reads back as the tools.
-/
import SecureSudoers.EntryPoint

namespace SecureSudoers

structure InstallPaths where
  policyPath : Str := "/etc/secure-sudoers/policy.json"
  publicKeyPath : Str := "/etc/secure-sudoers/secure_sudoers_public_key.pem"
  binary : Str := "/usr/local/bin/secure-sudoers"
  utilsBinary : Str := "/usr/local/bin/secure-sudoers-utils"
  sudoersPath : Str := "/etc/sudoers.d/secure-sudoers"
  entryPointDir : Str := "/usr/local/bin"

/-- What an installation depends on, besides the tree it changes. -/
structure InstallHost where
  refusals : Refusals
  euid : Nat
  read : Str → Except Errno Bytes
  loadVerifyingKey : Str → Except Error Bytes
  /-- Is it the key's signature of the message, or how is it said that it is not? -/
  verify (key message sig : Bytes) : Except Str Unit
  fromSlice : Bytes → Except Str SecureSudoersPolicy
  regexNew : Str → Option Regex
  /-- How `write_sudoers_file_to` ends when it is to write this. -/
  writeSudoersFileTo : Tree → Str → Except Error Unit
  /-- Why `chattr_op` cannot make the file immutable. -/
  chattr : Str → Option Str

/-- The drop-in that is written, the tools it is made from, and the tree at that moment. -/
structure WrittenDropIn where
  tree : Tree
  tools : List Str
  content : Str

variable (host : InstallHost)

def verifyPolicySignature (policyPath : Str) (policyBytes : Bytes) (publicKeyPath : Str) : Except Error Unit := do
  let verifyingKey ← host.loadVerifyingKey publicKeyPath
  let sigPath := policyPath ++ ".sig"
  let sigBytes ← (host.read sigPath).mapError (.ioContext ("Cannot read policy signature " ++ sigPath))
  if sigBytes.length ≠ 64 then
    .error (.validation ("Policy signature must be 64 bytes (got " ++ Nat.toDigits 10 sigBytes.length ++ ")"))
  else
    (host.verify verifyingKey policyBytes sigBytes).mapError fun e =>
      .security ("Policy signature verification failed for " ++ policyPath ++ ": " ++ e)

def loadPolicyWithVerifiedSignature (t : Tree) (policyPath publicKeyPath : Str) : Except Error SecureSudoersPolicy := do
  let policyBytes ← (host.read policyPath).mapError (.ioContext ("Cannot read " ++ policyPath))
  verifyPolicySignature host policyPath policyBytes publicKeyPath
  let policy ← (host.fromSlice policyBytes).mapError fun e =>
    .system ("Invalid policy JSON at " ++ policyPath ++ ": " ++ e)
  policy.validate t.fs host.regexNew

def managedTargets (paths : InstallPaths) (tools : List Str) : List Str :=
  let targets := [paths.binary, paths.utilsBinary, paths.policyPath, paths.publicKeyPath, paths.policyPath ++ ".sig",
    paths.sudoersPath] ++ tools.map (Path.push paths.entryPointDir)
  (targets.mergeSort strLe).eraseReps

/-- How the run ends once the drop-in is written. -/
def installErrors (linkErrors lockErrors : List Str) : Except Error Unit :=
  let errorSections : List Str :=
    (if linkErrors = [] then [] else ["entry-point setup errors:" ++ newline ++ List.intercalate newline linkErrors]) ++
    (if lockErrors = [] then [] else
      ["failed to secure managed files with chattr +i:" ++ newline ++ List.intercalate newline lockErrors])
  if errorSections = [] then .ok ()
  else .error (.system ("Installation completed with errors:" ++ newline ++
    List.intercalate (newline ++ newline) errorSections))

/-- The drop-in, if the run gets as far as writing it, and how the run ends. -/
def installWithPathsAndPubkey (t : Tree) (paths : InstallPaths) (publicKeyPath : Str) :
    Option WrittenDropIn × Except Error Unit :=
  match loadPolicyWithVerifiedSignature host t paths.policyPath publicKeyPath with
  | .error e => (none, .error e)
  | .ok policy =>
    let toolNames := policy.tools.keys.mergeSort strLe
    let links := installToolLinksTo host.refusals host.euid t toolNames paths.binary paths.entryPointDir
    let content := generateSudoersContentWithDir links.successful paths.entryPointDir
    (some ⟨links.tree, links.successful, content⟩, do
      host.writeSudoersFileTo links.tree content
      installErrors links.errors ((managedTargets paths links.successful).filterMap host.chattr))

def installWithPaths (t : Tree) (paths : InstallPaths) : Option WrittenDropIn × Except Error Unit :=
  installWithPathsAndPubkey host t paths paths.publicKeyPath

/-! ## The order of the names -/

theorem strLe_iff {a b : Str} : strLe a b = true ↔ Utf8.encode a ≤ Utf8.encode b := by
  rw [strLe, Bool.not_eq_true', List.lex_eq_false_iff_ge]

theorem strLe_trans (a b c : Str) (hab : strLe a b = true) (hbc : strLe b c = true) : strLe a c = true :=
  strLe_iff.mpr (List.le_trans (strLe_iff.mp hab) (strLe_iff.mp hbc))

theorem strLe_total (a b : Str) : (strLe a b || strLe b a) = true := by
  rw [Bool.or_eq_true, strLe_iff, strLe_iff]
  exact List.le_total ..

theorem sorted_mergeSort (names : List Str) : (names.mergeSort strLe).Pairwise (strLe · · = true) :=
  List.pairwise_mergeSort strLe_trans strLe_total names

/-- A backup's name comes after the tool's. -/
theorem not_strLe_backupName (tool : Str) : ¬strLe (backupName tool) tool = true := by
  rw [strLe_iff, backupName, Utf8.encode_append, List.not_le]
  have hlt : Utf8.encode tool ++ [] < Utf8.encode tool ++ Utf8.encode ".bak" :=
    List.append_left_lt (by decide)
  rwa [List.append_nil] at hlt

/-- In the order of the names, no tool is the backup of a later one. -/
theorem apart_sorted {names : List Str} (h : names.Nodup) : Apart (names.mergeSort strLe) := by
  have hnodup : (names.mergeSort strLe).Nodup := (List.mergeSort_perm names strLe).nodup_iff.mpr h
  refine (hnodup.and (sorted_mergeSort names)).imp fun {a b} hab => ⟨hab.1, ?_⟩
  rintro rfl
  exact not_strLe_backupName b hab.2

/-- The tools that succeed stay in the order they are given in. -/
theorem linkTools_sublist {k : Refusals} {ctx : LinkContext} : ∀ {tools : List Str} {t : Tree},
    (linkTools k ctx t tools).successful.Sublist tools
  | [], t => .slnil
  | tool :: rest, t => by
    unfold linkTools
    split
    · exact linkTools_sublist.cons_cons tool
    · exact linkTools_sublist.cons tool

/-! ## Ways that stay -/

/-- What is new or changed in `t'` is a file. -/
structure Tree.AddsFiles (t t' : Tree) : Prop where
  only {q : List Bytes} : t'.kindAt q ≠ .file → t'.object q = t.object q

namespace Tree.AddsFiles

variable {t t' : Tree}

theorem refl : t.AddsFiles t := ⟨fun _ => rfl⟩

theorem trans {t'' : Tree} (h : t.AddsFiles t') (h' : t'.AddsFiles t'') : t.AddsFiles t'' := by
  refine ⟨fun {q} hq => ?_⟩
  have hq' : t''.object q = t'.object q := h'.only hq
  rw [hq']
  refine h.only ?_
  rwa [kindAt, ← hq']

theorem set {d : List Bytes} {n : Bytes} {o : Option Object} (ho : ∀ o', o = some o' → o'.kind = .file) :
    t.AddsFiles (t.set d n o) := by
  refine ⟨fun {q} hq => ?_⟩
  rw [object_set]
  rw [kindAt, object_set] at hq
  split
  · next he =>
    rw [if_pos he] at hq
    cases o with
    | none => exact absurd rfl hq
    | some o' => exact absurd (ho o' rfl) hq
  · rfl

theorem kindAt_eq (h : t.AddsFiles t') {q : List Bytes} (hq : t'.kindAt q ≠ .file) : t.kindAt q = t'.kindAt q := by
  rw [kindAt, kindAt, h.only hq]

theorem kindAt_dir (h : t.AddsFiles t') {q : List Bytes} (hq : t'.kindAt q = .dir) : t.kindAt q = .dir := by
  have hne : t'.kindAt q ≠ .file := by simp [hq]
  rw [h.kindAt_eq hne, hq]

theorem lookupAt_eq (h : t.AddsFiles t') {cur d : List Bytes} {n : Bytes} (hl : t'.lookupAt cur n = some d)
    (hd : t'.kindAt d ≠ .file) : t.lookupAt cur n = some d := by
  obtain ⟨⟨o, ho⟩, rfl⟩ := lookupAt_some.mp hl
  obtain ⟨hcur, hn, hobj⟩ := entry_some.mp ho
  rw [h.only hd] at hobj
  exact lookupAt_some.mpr ⟨⟨o, entry_some.mpr ⟨h.kindAt_dir hcur, hn, hobj⟩⟩, rfl⟩

end Tree.AddsFiles

/-- Nothing is below a file. -/
theorem FileSystem.followWith_file {D : Type} {fs : FileSystem D} {far : D → Bytes → Bool}
    {again : Option (D → List Segment → Except Errno D)} {cur e : D} (hk : fs.kind cur = .file) {segs : List Segment}
    (h : fs.followWith far again cur segs = .ok e) : e = cur := by
  have hdir : fs.kind cur ≠ .dir := by simp [hk]
  cases segs with
  | nil =>
    cases h
    rfl
  | cons seg segs =>
    cases seg with
    | parent => exact absurd (followWith_parent.mp h).1 hdir
    | name n =>
      obtain ⟨-, d, hl, -⟩ := followWith_name h
      exact absurd (fs.lookup_dir hl) hdir

/-- A walk of `t'` that ends at no file is one of `t`. -/
theorem Tree.AddsFiles.followWith {t t' : Tree} (h : t.AddsFiles t') {far : List Bytes → Bytes → Bool}
    {again again' : Option (List Bytes → List Segment → Except Errno (List Bytes))}
    (hagain : ∀ walk', again' = some walk' → ∃ walk, again = some walk ∧ ∀ {cur segs e}, walk' cur segs = .ok e →
      t'.kindAt e ≠ .file → walk cur segs = .ok e) : ∀ {segs : List Segment} {cur e : List Bytes},
    t'.fs.followWith far again' cur segs = .ok e → t'.kindAt e ≠ .file → t.fs.followWith far again cur segs = .ok e
  | [], cur, e => fun hf _ => hf
  | .parent :: segs, cur, e => by
    intro hf he
    obtain ⟨hk, hrest⟩ := followWith_parent.mp hf
    exact followWith_parent.mpr ⟨h.kindAt_dir hk, h.followWith hagain hrest he⟩
  | .name n :: segs, cur, e => by
    intro hf he
    obtain ⟨-, d, hl, -⟩ := followWith_name hf
    cases hs : t'.fs.isSymlink d with
    | false =>
      obtain ⟨hfar, hrest⟩ := (followWith_entry hl hs).mp hf
      by_cases hd : t'.kindAt d = .file
      · have hed : e = d := FileSystem.followWith_file hd hrest
        exact absurd (hed ▸ hd) he
      · have hkind : t.fs.kind d = t'.fs.kind d := h.kindAt_eq hd
        have hs' : t.fs.isSymlink d = false := by
          rw [← hs, FileSystem.isSymlink, FileSystem.isSymlink, hkind]
        exact (followWith_entry (h.lookupAt_eq hl hd) hs').mpr ⟨hfar, h.followWith hagain hrest he⟩
    | true =>
      obtain ⟨target, hk⟩ := isSymlink_iff.mp hs
      have hd : t'.kindAt d ≠ .file := fun hd => by
        have hk : t'.kindAt d = .symlink target := hk
        simp [hd] at hk
      have hk' : t.fs.kind d = .symlink target := (h.kindAt_eq hd).trans hk
      obtain ⟨hfar, walk', hwalk', hrest, hend⟩ := (followWith_link hl hk).mp hf
      obtain ⟨walk, hwalk, hsame⟩ := hagain walk' hwalk'
      exact (followWith_link (h.lookupAt_eq hl hd) hk').mpr
        ⟨hfar, walk, hwalk, hsame hrest he, fun hr ht => h.kindAt_dir (hend hr ht)⟩

theorem Tree.AddsFiles.follow {t t' : Tree} (h : t.AddsFiles t') : ∀ {left : Nat} {cur e : List Bytes}
    {segs : List Segment}, t'.fs.follow left cur segs = .ok e → t'.kindAt e ≠ .file → t.fs.follow left cur segs = .ok e
  | 0, _, _, _ => h.followWith fun _ hw => by cases hw
  | left + 1, _, _, _ => h.followWith fun walk' hw => by
    cases hw
    exact ⟨_, rfl, h.follow⟩

/-! ## The loop, and the paths it makes -/

variable {k : Refusals} {ctx : LinkContext} {t t' : Tree} {tool : Str}

theorem clearEntry_addsFiles {linkPath : Str} {done : Bool} (h : clearEntry k ctx t tool linkPath = .ok (t', done)) :
    t.AddsFiles t' := by
  unfold clearEntry at h
  extract_lets name at h
  split at h
  · cases h
    exact .refl
  · cases h
  · next stat hstat =>
    split at h
    · split at h
      · next hun =>
        cases h
        obtain ⟨-, rfl⟩ := Tree.unlinkat_ok hun
        exact .set fun o' ho' => by cases ho'
      · cases h
    · next hkind =>
      split at h
      · cases h
        exact .refl
      · split at h
        · next hren =>
          cases h
          obtain ⟨-, o, ho, -, ⟨rfl, -⟩ | rfl⟩ := Tree.renameat_ok hren
          · exact .refl
          · rw [Tree.fstatat_ok hstat] at ho
            cases ho
            refine Tree.AddsFiles.trans (.set fun o' ho' => by cases ho') (.set fun o' ho' => ?_)
            cases ho'
            exact hkind
        · cases h
    · cases h

/-- One tool adds files only, as long as the managed binary is one. -/
theorem linkTool_addsFiles {r : Except Str Unit} (hne : ctx.managed ≠ ctx.entryOf (backupName tool))
    (hman : ctx.IsLink t ctx.managed) (h : linkTool k ctx t tool = (t', r)) : t.AddsFiles t' := by
  unfold linkTool at h
  extract_lets linkPath at h
  split at h
  · cases h
    exact .refl
  · next hvalid =>
    split at h
    · cases h
      exact .refl
    · next hnul =>
      have hvalid : isValidToolName tool = true := by simpa using hvalid
      split at h
      · cases h
        exact .refl
      · next hclear =>
        cases h
        exact clearEntry_addsFiles hclear
      · next t₁ hclear =>
        have hfiles := clearEntry_addsFiles hclear
        split at h
        · next t₂ hlink =>
          cases h
          obtain ⟨ht, hsame, -⟩ := clearEntry_ok hvalid hnul hclear
          obtain ⟨o, ho, -, -, -, rfl⟩ := Tree.linkat_ok hlink
          obtain ⟨o', ho', hfile, -⟩ := ht.isLink hsame hne hman
          have hoo : o = o' := Option.some.inj ((Tree.entry_some.mp ho).2.2.symm.trans ho')
          refine hfiles.trans (.set fun o'' ho'' => ?_)
          cases ho''
          rw [hoo, hfile]
        · split at h
          all_goals
            cases h
            exact hfiles

theorem linkTools_addsFiles : ∀ {tools : List Str} {t : Tree},
    (∀ tool ∈ tools, ctx.managed ≠ ctx.entryOf (backupName tool)) → ctx.IsLink t ctx.managed →
      t.AddsFiles (linkTools k ctx t tools).tree
  | [], t => fun _ _ => .refl
  | tool :: rest, t => by
    intro hne hman
    rw [List.forall_mem_cons] at hne
    obtain ⟨t', r, hstep⟩ : ∃ t' r, linkTool k ctx t tool = (t', r) := ⟨_, _, rfl⟩
    have htree : (linkTools k ctx t (tool :: rest)).tree = (linkTools k ctx t' rest).tree := by
      rw [linkTools, hstep]
      cases r <;> rfl
    rw [htree]
    have hman' : ctx.IsLink t' ctx.managed := (linkTool_step hstep).1 hne.1 hman
    exact (linkTool_addsFiles hne.1 hman hstep).trans (linkTools_addsFiles hne.2 hman')

theorem FileSystem.follow_entry {D : Type} {fs : FileSystem D} {d e : D} {n : Bytes} (hl : fs.lookup d n = some e)
    (hk : fs.kind e = .file) : ∀ left, fs.follow left d [.name n] = .ok e := by
  have hs : fs.isSymlink e = false := by rw [isSymlink, hk]
  intro left
  exact (Resolves.done.follow_entry hl hs (Nat.zero_le left))

/-- The directory a path led to is the one it leads to, if it still leads to a directory. -/
theorem follow_checked {path p : Str} {dir d : List Bytes} (hcheck : checkPath t.fs path .positional [] = .ok ⟨p, dir⟩)
    (hfiles : t.AddsFiles t') (hf : t'.fs.follow MAXSYMLINKS [] (segments (Utf8.encode path)) = .ok d)
    (hd : t'.kindAt d = .dir) : d = dir := by
  obtain ⟨-, targets, visited, hres, -⟩ := checkPath_accepts.mp hcheck
  have hbefore : t.fs.follow MAXSYMLINKS [] (segments (Utf8.encode path)) = .ok d := hfiles.follow hf (by simp [hd])
  obtain ⟨_, _, hres', -⟩ := followIn_resolves hbefore
  exact (hres.unique hres').2.2

/-- A tool's path leads to its entry where the way to the directory is still
there, and to nothing where it is not or the path is too long. -/
theorem openPath_entry {entryPointDir p : Str} (hvalid : isValidToolName tool = true) (hnul : '\x00' ∉ tool)
    (hcheck : checkPath t.fs entryPointDir .positional [] = .ok ⟨p, ctx.entryDir⟩) (hfiles : t.AddsFiles t')
    (hdir : t'.kindAt ctx.entryDir = .dir) (hlink : ctx.IsLink t' (ctx.entryOf tool)) {cwd e : List Bytes} :
    t'.fs.openPath cwd (Utf8.encode (entryPath entryPointDir tool)) = .ok e ↔ e = ctx.entryOf tool ∧
      (Utf8.encode (entryPath entryPointDir tool)).length < PATH_MAX ∧
      t'.fs.follow MAXSYMLINKS [] (segments (Utf8.encode entryPointDir)) = .ok ctx.entryDir := by
  obtain ⟨hlookup, hkind⟩ := hlink.found hdir hvalid hnul
  obtain ⟨left, happend⟩ := @follow_append _ t'.fs (.name (Utf8.encode tool)) [] MAXSYMLINKS []
    (segments (Utf8.encode entryPointDir))
  rw [openPath_entryPath_iff (checkPath_accepts.mp hcheck).1 hvalid hnul, happend e, and_left_comm,
    and_congr_right_iff]
  intro _
  have hentry := FileSystem.follow_entry hlookup hkind left
  constructor
  · rintro ⟨d, hf, he⟩
    obtain rfl : d = ctx.entryDir := follow_checked hcheck hfiles hf (dir_of_follow_cons he)
    rw [hentry] at he
    exact ⟨(Except.ok.inj he).symm, hf⟩
  · rintro ⟨rfl, hf⟩
    exact ⟨_, hf, hentry⟩

/-! ## Reading the drop-in -/

/-- The commands of a comma-separated list, without the blanks before them. -/
def commandList (list : Str) : List Str := (list.splitOn ',').map (·.dropWhile (· == ' '))

/-- What a line of a sudoers file lets everybody run as root, anywhere. -/
def lineCommands (line : Str) : List Str :=
  match List.dropPrefix? line "ALL ALL=(root) ".toList with
  | none => []
  | some list => commandList list

def dropInCommands (content : Str) : List Str := (content.splitOn '\n').flatMap lineCommands

/-- The tool of each command, if it is below the entry-point directory. -/
def dropInTools (entryPointDir content : Str) : List (Option Str) :=
  (dropInCommands content).map (List.dropPrefix? · (entryPointDir ++ ['/']))

/-- The text stands for itself in a command list. -/
def PlainCommand (path : Str) : Prop := path.head? ≠ some ' ' ∧ ',' ∉ path ∧ '\n' ∉ path

theorem commandList_blank (list : Str) : commandList (' ' :: list) = commandList list := by
  obtain ⟨first, rest, hsplit⟩ : ∃ first rest, list.splitOn ',' = first :: rest :=
    List.exists_cons_of_ne_nil (List.splitOn_ne_nil ',' list)
  have hblank : (' ' :: list).splitOn ',' = (' ' :: first) :: rest := by
    rw [List.splitOn_cons_eq_if_modifyHead, if_neg (by decide), hsplit]
    rfl
  rw [commandList, commandList, hblank, hsplit, List.map_cons, List.map_cons]
  rfl

theorem commandList_single {path : Str} (h : PlainCommand path) : commandList path = [path] := by
  rw [commandList, List.splitOn_eq_singleton h.2.1, List.map_singleton]
  cases path with
  | nil => rfl
  | cons c cs =>
    have hc : (c == ' ') = false := beq_false_of_ne fun he => h.1 (congrArg some he)
    rw [List.dropWhile_cons_of_neg (by simp [hc])]

/-- A list of plain commands reads back. -/
theorem commandList_intercalate : ∀ {paths : List Str}, paths ≠ [] → (∀ path ∈ paths, PlainCommand path) →
    commandList (List.intercalate (", " : Str) paths) = paths
  | [], hne, _ => absurd rfl hne
  | [path], _, h => by
    rw [List.intercalate_singleton]
    exact commandList_single (h path List.mem_cons_self)
  | path :: next :: rest, _, h => by
    rw [List.forall_mem_cons] at h
    have ih := commandList_intercalate (List.cons_ne_nil next rest) h.2
    have hlist : List.intercalate (", " : Str) (path :: next :: rest) =
        path ++ ',' :: ' ' :: List.intercalate (", " : Str) (next :: rest) := by
      rw [List.intercalate_cons_cons, List.append_assoc]
      rfl
    have hfirst := commandList_single h.1
    have hrest := (commandList_blank _).trans ih
    rw [commandList] at hfirst hrest
    rw [hlist, commandList, List.splitOn_append_cons_self, List.map_append, hfirst, hrest]
    rfl

theorem plainCommand_entryPath {entryPointDir tool : Str} (hdir : PlainCommand entryPointDir)
    (hne : entryPointDir ≠ []) (hvalid : isValidToolName tool = true) : PlainCommand (entryPath entryPointDir tool) := by
  have hout : ∀ c, isToolNameChar c = false → c ≠ '/' → c ∉ entryPointDir → c ∉ entryPath entryPointDir tool := by
    intro c hc hslash hdir hmem
    rcases List.mem_append.mp hmem with hmem | hmem
    · exact hdir hmem
    · rcases List.mem_cons.mp hmem with rfl | hmem
      · exact hslash rfl
      · unfold isValidToolName at hvalid
        split at hvalid
        · cases hvalid
        · have hchar := List.all_eq_true.mp hvalid c hmem
          rw [hc] at hchar
          cases hchar
  refine ⟨?_, hout _ (by decide) (by decide) hdir.2.1, hout _ (by decide) (by decide) hdir.2.2⟩
  rw [entryPath, List.head?_append_of_ne_nil _ hne]
  exact hdir.1

theorem dropInCommands_append (a b : Str) :
    dropInCommands (a ++ '\n' :: b) = dropInCommands a ++ dropInCommands b := by
  rw [dropInCommands, List.splitOn_append_cons_self, List.flatMap_append]
  rfl

theorem not_mem_intercalate {c : Char} {sep : Str} (hsep : c ∉ sep) : ∀ {parts : List Str},
    (∀ part ∈ parts, c ∉ part) → c ∉ List.intercalate sep parts
  | [], _ => by simp
  | [part], h => by
    rw [List.intercalate_singleton]
    exact h part List.mem_cons_self
  | part :: next :: rest, h => by
    rw [List.forall_mem_cons] at h
    rw [List.intercalate_cons_cons, List.mem_append, List.mem_append, not_or, not_or]
    exact ⟨⟨h.1, hsep⟩, not_mem_intercalate hsep h.2⟩

/-- A line with the grant of a list of plain commands. -/
theorem dropInCommands_grant {paths : List Str} (hne : paths ≠ []) (h : ∀ path ∈ paths, PlainCommand path) :
    dropInCommands ("ALL ALL=(root) " ++ List.intercalate (", " : Str) paths) = paths := by
  have hlist : '\n' ∉ List.intercalate (", " : Str) paths :=
    not_mem_intercalate (by decide) fun path hpath => (h path hpath).2.2
  have hline : '\n' ∉ "ALL ALL=(root) " ++ List.intercalate (", " : Str) paths := by
    rw [List.mem_append, not_or]
    exact ⟨by decide, hlist⟩
  rw [dropInCommands, List.splitOn_eq_singleton hline, List.flatMap_singleton, lineCommands,
    List.dropPrefix?_append_of_beq _ (beq_self_eq_true _)]
  exact commandList_intercalate hne h

/-- The drop-in grants the paths of its tools and nothing else. -/
theorem dropInCommands_generate {tools : List Str} {entryPointDir : Str} (hdir : PlainCommand entryPointDir)
    (hne : entryPointDir ≠ []) (hvalid : ∀ tool ∈ tools, isValidToolName tool = true) :
    dropInCommands (generateSudoersContentWithDir tools entryPointDir) = grantedPaths tools entryPointDir := by
  have hplain : ∀ path ∈ grantedPaths tools entryPointDir, PlainCommand path := by
    intro path hpath
    obtain ⟨tool, htool, rfl⟩ := mem_grantedPaths.mp hpath
    exact plainCommand_entryPath hdir hne (hvalid tool htool)
  by_cases htools : tools = []
  · subst htools
    have hgranted : grantedPaths [] entryPointDir = [] := by simp [grantedPaths]
    rw [hgranted, generateSudoersContentWithDir, if_pos rfl]
    decide
  · have hpaths : grantedPaths tools entryPointDir ≠ [] := by
      obtain ⟨tool, htool⟩ := List.exists_mem_of_ne_nil tools htools
      exact List.ne_nil_of_mem (mem_grantedPaths.mpr ⟨tool, htool, rfl⟩)
    have hcontent : generateSudoersContentWithDir tools entryPointDir =
        "# Managed by secure-sudoers-utils - do not edit manually." ++ '\n' ::
        (("Defaults secure_path=" ++ [doubleQuote] ++ "/usr/local/bin:/usr/sbin:/usr/bin:/sbin:/bin" ++ [doubleQuote]) ++
        '\n' :: (("ALL ALL=(root) " ++ List.intercalate (", " : Str) (grantedPaths tools entryPointDir)) ++ '\n' :: [])) := by
      rw [generateSudoersContentWithDir, if_neg htools]
      simp [newline]
    rw [hcontent, dropInCommands_append, dropInCommands_append, dropInCommands_append,
      dropInCommands_grant hpaths hplain]
    have hheader : dropInCommands "# Managed by secure-sudoers-utils - do not edit manually." = [] := by decide
    have hdefaults : dropInCommands ("Defaults secure_path=" ++ [doubleQuote] ++
        "/usr/local/bin:/usr/sbin:/usr/bin:/sbin:/bin" ++ [doubleQuote]) = [] := by decide
    have hend : dropInCommands [] = [] := by decide
    rw [hheader, hdefaults, hend, List.nil_append, List.nil_append, List.append_nil]

/-! ## What is granted -/

variable {host}

theorem installWithPaths_written {paths : InstallPaths} {w : WrittenDropIn} :
    (installWithPaths host t paths).1 = some w ↔ ∃ policy,
      loadPolicyWithVerifiedSignature host t paths.policyPath paths.publicKeyPath = .ok policy ∧
        let links := installToolLinksTo host.refusals host.euid t (policy.tools.keys.mergeSort strLe) paths.binary
          paths.entryPointDir
        w = ⟨links.tree, links.successful, generateSudoersContentWithDir links.successful paths.entryPointDir⟩ := by
  unfold installWithPaths installWithPathsAndPubkey
  cases loadPolicyWithVerifiedSignature host t paths.policyPath paths.publicKeyPath with
  | error e => simp
  | ok policy => simp [eq_comm]

theorem installToolLinksTo_eq {euid : Nat} {tools : List Str} {binary entryPointDir : Str} :
    (∃ e, installToolLinksTo k euid t tools binary entryPointDir = ⟨t, [], [e]⟩) ∨
      ∃ ctx, prepareLinks k euid t binary entryPointDir = .ok ctx ∧
        installToolLinksTo k euid t tools binary entryPointDir = linkTools k ctx t tools := by
  unfold installToolLinksTo
  split
  · exact .inl ⟨_, rfl⟩
  · next ctx hctx => exact .inr ⟨ctx, hctx, rfl⟩

/-- The tools that succeed stay in the order of their names. -/
theorem linkTools_sorted {names : List Str} :
    (linkTools k ctx t (names.mergeSort strLe)).successful.mergeSort strLe =
      (linkTools k ctx t (names.mergeSort strLe)).successful :=
  List.mergeSort_of_pairwise ((sorted_mergeSort names).sublist linkTools_sublist)

/-- The tool of an entry point's path. -/
theorem dropPrefix?_entryPath {entryPointDir : Str} :
    List.dropPrefix? (entryPath entryPointDir tool) (entryPointDir ++ ['/']) = some tool := by
  have happend : entryPath entryPointDir tool = (entryPointDir ++ ['/']) ++ tool := by simp [entryPath]
  rw [happend]
  exact List.dropPrefix?_append_of_beq _ (beq_self_eq_true _)

/-- What the path of a tool is in the tree `t'` that the loop leaves: the path
of an entry of the managed binary's file, in the directory that was checked.
Opening it leads to nothing else, and does lead there where no link was on the
way to the directory. -/
structure LinkContext.Granted (ctx : LinkContext) (t t' : Tree) (entryPointDir tool : Str) : Prop where
  managed : ctx.IsLink t' ctx.managed
  entry : ctx.IsLink t' (ctx.entryOf tool)
  leads {cwd e : List Bytes} :
    t'.fs.openPath cwd (Utf8.encode (entryPath entryPointDir tool)) = .ok e → e = ctx.entryOf tool
  found : (∃ visited e, Resolves t.fs [] (segments (Utf8.encode entryPointDir)) [] visited e) →
    (Utf8.encode (entryPath entryPointDir tool)).length < PATH_MAX →
    ∀ cwd, t'.fs.openPath cwd (Utf8.encode (entryPath entryPointDir tool)) = .ok (ctx.entryOf tool)

/-- The tools of a loop over apart names are granted. -/
theorem linkTools_granted {euid : Nat} {tools : List Str} {binary entryPointDir : Str} (hapart : Apart tools)
    (hbinary : ∀ tool ∈ tools, Path.fileName binary ≠ some (backupName tool))
    (hctx : prepareLinks k euid t binary entryPointDir = .ok ctx)
    (htool : tool ∈ (linkTools k ctx t tools).successful) :
    ctx.Granted t (linkTools k ctx t tools).tree entryPointDir tool := by
  obtain ⟨hman, hdir, ⟨p, hcheck⟩, name, hname, hbinaryName⟩ := prepareLinks_ok hctx
  obtain ⟨hvalid, hnul⟩ := linkTools_valid tool htool
  have hne : ∀ tool ∈ tools, ctx.managed ≠ ctx.entryOf (backupName tool) := by
    intro tool htool he
    have henc : ctx.binaryName = Utf8.encode (backupName tool) := (List.cons.inj (List.append_inj' he rfl).2).1
    rw [hbinaryName, Utf8.encode_inj] at henc
    exact hbinary tool htool (henc ▸ hname)
  obtain ⟨hkeep, hdirs, hlinked⟩ := @linkTools_linked k ctx tools t
  have hentry := (hlinked hapart hne hman tool htool).2
  have hopen := fun {cwd e} => @openPath_entry ctx t _ tool entryPointDir p hvalid hnul hcheck
    (linkTools_addsFiles hne hman) (Tree.KeepsDirs.kindAt hdirs hdir) hentry cwd e
  refine ⟨hkeep hne hman, hentry, fun h => (hopen.mp h).1, fun hway hlength cwd => ?_⟩
  obtain ⟨visited, e, hres⟩ := hway
  obtain ⟨-, targets, visited', hres', -⟩ := checkPath_accepts.mp hcheck
  obtain ⟨-, -, rfl⟩ := hres'.unique hres
  exact hopen.mpr ⟨rfl, hlength, (Tree.KeepsDirs.resolves hdirs hres rfl hdir).1.follow (.inr (by simp)) (Nat.zero_le _)⟩

theorem defaultEntryPointDir_plain : PlainCommand "/usr/local/bin" := ⟨by decide, by decide, by decide⟩

/-- **What the drop-in grants.** With the default paths, its command list reads
back as the tools that succeeded, and each path in it is an entry of the managed
binary's file when the drop-in is written. -/
theorem install_grants {w : WrittenDropIn} (h : (installWithPaths host t {}).1 = some w) :
    let paths : InstallPaths := {}
    dropInTools paths.entryPointDir w.content = w.tools.map some ∧
      ∀ path ∈ dropInCommands w.content, ∃ tool ∈ w.tools, path = entryPath paths.entryPointDir tool ∧
        ∃ ctx, prepareLinks host.refusals host.euid t paths.binary paths.entryPointDir = .ok ctx ∧
          ctx.Granted t w.tree paths.entryPointDir tool := by
  intro paths
  obtain ⟨policy, -, hw⟩ := installWithPaths_written.mp h
  rcases @installToolLinksTo_eq host.refusals t host.euid (policy.tools.keys.mergeSort strLe) paths.binary
    paths.entryPointDir with ⟨e, he⟩ | ⟨ctx, hctx, hlinks⟩
  · rw [he] at hw
    subst hw
    rw [dropInTools, dropInCommands_generate defaultEntryPointDir_plain (by decide) (by simp)]
    simp [grantedPaths]
  · rw [hlinks] at hw
    subst hw
    have hvalid := @linkTools_valid host.refusals ctx (policy.tools.keys.mergeSort strLe) t
    rw [dropInTools, dropInCommands_generate defaultEntryPointDir_plain (by decide) fun tool h => (hvalid tool h).1]
    refine ⟨?_, fun path hpath => ?_⟩
    · rw [grantedPaths, linkTools_sorted, List.map_map]
      exact List.map_congr_left fun tool _ => dropPrefix?_entryPath
    · obtain ⟨tool, htool, rfl⟩ := mem_grantedPaths.mp hpath
      refine ⟨tool, htool, rfl, ctx, hctx, linkTools_granted (apart_sorted policy.tools.nodup) (fun tool _ he => ?_) hctx htool⟩
      have hname : Path.fileName paths.binary = some "secure-sudoers".toList := by decide
      rw [hname] at he
      have hlast := congrArg List.getLast? (Option.some.inj he)
      simp [backupName] at hlast

/-- A signed policy with the tools `apt` and `apt.bak` on a host that has an `apt` in the entry-point directory. -/
def aptInstall : InstallHost where
  refusals _ _ := none
  euid := 0
  read path := .ok (if Str.startsWith path.reverse "gis.".toList then List.replicate 64 0 else [])
  loadVerifyingKey _ := .ok []
  verify _ _ _ := .ok ()
  fromSlice _ := .ok { globalSettings := {}, tools := ⟨[("apt", { realBinary := "/usr/bin/apt", verbs := ["update"] }),
    ("apt.bak", { realBinary := "/usr/bin/apt" })], by decide⟩ }
  regexNew := defaultRegexNew
  writeSudoersFileTo _ _ := .ok ()
  chattr _ := none

/-- A host with an `apt` of its own in the entry-point directory. -/
def aptForeign : Tree :=
  .ofList [(["usr"], .directory), (["usr", "local"], .directory), (["usr", "local", "bin"], .directory),
    (["usr", "local", "bin", "apt"], .file 30), (["usr", "local", "bin", "secure-sudoers"], .file 10)]

/-- Its `apt` is moved onto `apt.bak`, then both names become links. -/
theorem install_grants_apt : ∃ w, (installWithPaths aptInstall aptForeign {}).1 = some w ∧
    w.tools = ["apt".toList, "apt.bak".toList] ∧
    dropInTools "/usr/local/bin" w.content = w.tools.map some ∧
    ∀ path ∈ dropInCommands w.content, ∃ tool ∈ w.tools, path = entryPath "/usr/local/bin" tool ∧
      ∃ ctx, prepareLinks aptInstall.refusals 0 aptForeign "/usr/local/bin/secure-sudoers" "/usr/local/bin" = .ok ctx ∧
        ctx.Granted aptForeign w.tree "/usr/local/bin" tool := by
  let paths : InstallPaths := {}
  have hkeys : (loadPolicyWithVerifiedSignature aptInstall aptForeign paths.policyPath paths.publicKeyPath).toOption.map
      (·.tools.keys) = some ["apt".toList, "apt.bak".toList] := by decide +kernel
  obtain ⟨policy, hpolicy, hkeys⟩ := Option.map_eq_some_iff.mp hkeys
  have hload : loadPolicyWithVerifiedSignature aptInstall aptForeign paths.policyPath paths.publicKeyPath =
      .ok policy := by
    generalize loadPolicyWithVerifiedSignature aptInstall aptForeign paths.policyPath paths.publicKeyPath = l at hpolicy
    cases l <;> cases hpolicy
    rfl
  have hw := installWithPaths_written.mpr ⟨policy, hload, rfl⟩
  refine ⟨_, hw, ?_, install_grants hw⟩
  have hsorted : (["apt".toList, "apt.bak".toList] : List Str).mergeSort strLe = ["apt".toList, "apt.bak".toList] :=
    List.mergeSort_of_pairwise (by decide)
  dsimp only
  rw [hkeys, hsorted]
  decide +kernel

end SecureSudoers
