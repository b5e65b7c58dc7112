/-
The installed entry point of a tool, run through sudo: the installer makes it a
link of the managed binary, the invocation takes the tool from `SUDO_COMMAND`,
and the binding check compares the file `SUDO_COMMAND` leads to with the tool's
real binary.

The last two do not fit together. The entry point is a link of the managed
binary, so that the check asks whether the tool's real binary is the managed
binary itself: `delegated_iff`.
-/
import SecureSudoers.Installer
import SecureSudoers.PolicyValidation
import SecureSudoers.Validator

namespace SecureSudoers

/-- What sudo sets `SUDO_COMMAND` to. -/
def sudoCommand (entryPointDir tool : Str) (args : List Str) : Str :=
  entryPath entryPointDir tool ++ args.flatMap (' ' :: ·)

/-- A tool of an accepted policy whose entry point has been installed, and a
command line of it that the policy allows. -/
structure Delegation where
  k : Refusals
  euid : Nat
  before : Tree
  tools : List Str
  binary : Str
  entryPointDir : Str
  tool : Str
  installed : tool ∈ (installToolLinksTo k euid before tools binary entryPointDir).successful
  regexNew : Str → Option Regex
  loaded : SecureSudoersPolicy
  policy : SecureSudoersPolicy
  args : List Str
  result : ValidationResult (List Bytes)
  cwd : List Bytes
  env : Str → Option Str
  env_sudo : env "SUDO_COMMAND" = some (sudoCommand entryPointDir tool args)
  accepted : loaded.validate (installToolLinksTo k euid before tools binary entryPointDir).tree.fs regexNew = .ok policy
  allowed : validateCommand (checkPath (installToolLinksTo k euid before tools binary entryPointDir).tree.fs) regexNew
    policy tool args = .ok result

namespace Delegation

variable (d : Delegation)

/-- The file system the installer leaves. -/
def after : Tree := (installToolLinksTo d.k d.euid d.before d.tools d.binary d.entryPointDir).tree

def os : Descriptors (List Bytes) := d.after.fs.descriptors d.cwd

/-- The file the policy runs. -/
def realBinary : ExecutableIdentity := (d.after.fs.stat d.result.command.binary.fd).identity

/-- Called by its path or by its name, the tool and its arguments are recognised and not refused. -/
def Delegated : Prop :=
  (∀ argv0 ∈ [entryPath d.entryPointDir d.tool, d.tool],
    parseInvocationInternal (argv0 :: d.args) d.env = .ok (d.tool, d.args)) ∧
  verifySudoCommandBindingInternal d.os d.tool d.result.command.binary d.env = .ok ()

end Delegation

/-! ## Names -/

theorem isPlain_alphanum {c : Char} (h : (48 ≤ c.toNat ∧ c.toNat ≤ 57) ∨ (65 ≤ c.toNat ∧ c.toNat ≤ 90) ∨
    (97 ≤ c.toNat ∧ c.toNat ≤ 122)) : IsPlain c := by
  refine ⟨?_, ?_, ?_, ?_⟩
  · exact graphic_not_whitespace (by omega) (by omega)
  all_goals
    intro he
    subst he
    revert h
    decide

theorem isPlain_toolNameChar {c : Char} (h : isToolNameChar c = true) : IsPlain c := by
  delta isToolNameChar Char.isAlphanum Char.isAlpha Char.isUpper Char.isLower Char.isDigit at h
  simp only [Bool.or_eq_true, Bool.and_eq_true, decide_eq_true_eq, beq_iff_eq, UInt32.le_iff_toNat_le] at h
  rcases h with (((((h | h) | h) | rfl) | rfl) | rfl) | rfl
  · exact isPlain_alphanum (.inr (.inl h))
  · exact isPlain_alphanum (.inr (.inr h))
  · exact isPlain_alphanum (.inl h)
  all_goals decide

theorem isPlain_tool {tool : Str} (h : isValidToolName tool = true) : ∀ c ∈ tool, IsPlain c := by
  unfold isValidToolName at h
  split at h
  · cases h
  · exact fun c hc => isPlain_toolNameChar (List.all_eq_true.mp h c hc)

theorem segments_entryPath {entryPointDir tool : Str} (h : isValidToolName tool = true) :
    segments (Utf8.encode (entryPath entryPointDir tool)) =
      segments (Utf8.encode entryPointDir) ++ [.name (Utf8.encode tool)] := by
  have hbody : Path.body tool = [.normal tool] := Path.body_asOsStr (c := .normal tool) (isName_tool h)
  rw [segments_encode, segments_encode, entryPath, Path.body_append_slash, hbody, List.filterMap_append]
  rfl

theorem namesDirectory_entryPath {entryPointDir tool : Str} (h : isValidToolName tool = true) (hnul : '\x00' ∉ tool) :
    namesDirectory (Utf8.encode (entryPath entryPointDir tool)) = false := by
  have hn := (isEntryName_tool h hnul).1
  have hsplit : (Utf8.encode (entryPath entryPointDir tool)).splitOn slash =
      (Utf8.encode entryPointDir).splitOn slash ++ [Utf8.encode tool] := by
    have henc : Utf8.encode (entryPath entryPointDir tool) =
        Utf8.encode entryPointDir ++ slash :: Utf8.encode tool := by
      rw [entryPath, Utf8.encode_append]
      rfl
    rw [henc, List.splitOn_append_cons_self, List.splitOn_eq_singleton hn.no_slash]
  rw [namesDirectory, hsplit, List.getLast?_concat]
  simp [hn.ne_nil, hn.ne_dot]

/-- A tool's path, unless it is too long, opens what its names lead to from the root. -/
theorem openPath_entryPath_iff {t : Tree} {entryPointDir tool : Str} (habs : Path.isAbsolute entryPointDir = true)
    (hvalid : isValidToolName tool = true) (hnul : '\x00' ∉ tool) {cwd e : List Bytes} :
    t.fs.openPath cwd (Utf8.encode (entryPath entryPointDir tool)) = .ok e ↔
      (Utf8.encode (entryPath entryPointDir tool)).length < PATH_MAX ∧
        t.fs.follow MAXSYMLINKS [] (segments (Utf8.encode entryPointDir) ++ [.name (Utf8.encode tool)]) = .ok e := by
  have hbase : t.fs.base cwd (Utf8.encode (entryPath entryPointDir tool)) = [] :=
    if_pos (head?_encode_slash.mpr (Path.isAbsolute_append habs))
  have hne : Utf8.encode (entryPath entryPointDir tool) ≠ [] :=
    Utf8.encode_eq_nil.not.mpr (List.append_ne_nil_of_right_ne_nil _ (List.cons_ne_nil _ _))
  rw [openPath_eq, if_neg hne]
  by_cases hlength : PATH_MAX ≤ (Utf8.encode (entryPath entryPointDir tool)).length
  · rw [if_pos hlength]
    exact iff_of_false (by simp) fun h => absurd h.1 (Nat.not_lt.mpr hlength)
  · rw [if_neg hlength, hbase, segments_entryPath hvalid, namesDirectory_entryPath hvalid hnul,
      and_iff_right (Nat.not_le.mp hlength)]
    cases t.fs.follow MAXSYMLINKS [] (segments (Utf8.encode entryPointDir) ++ [.name (Utf8.encode tool)]) <;> simp

/-- A link under a tool's name is found in the directory. -/
theorem LinkContext.IsLink.found {ctx : LinkContext} {t : Tree} {tool : Str} (h : ctx.IsLink t (ctx.entryOf tool))
    (hdir : t.kindAt ctx.entryDir = .dir) (hvalid : isValidToolName tool = true) (hnul : '\x00' ∉ tool) :
    t.fs.lookup ctx.entryDir (Utf8.encode tool) = some (ctx.entryOf tool) ∧ t.fs.kind (ctx.entryOf tool) = .file := by
  obtain ⟨o, hobj, hkind, -⟩ := h
  refine ⟨Tree.lookupAt_some.mpr ⟨⟨o, Tree.entry_some.mpr ⟨hdir, (isEntryName_tool hvalid hnul).1, hobj⟩⟩, rfl⟩, ?_⟩
  show (t.object _).elim _ _ = _
  rw [hobj]
  exact hkind

theorem endsWord_args {args : List Str} : EndsWord (args.flatMap (' ' :: ·)) := by
  cases args with
  | nil => exact .inl rfl
  | cons arg args => exact .inr ⟨_, rfl⟩

namespace Delegation

variable (d : Delegation)

/-- The installer got as far as its loop, and the tool succeeded in it. -/
theorem linked : ∃ ctx, prepareLinks d.k d.euid d.before d.binary d.entryPointDir = .ok ctx ∧
    d.after = (linkTools d.k ctx d.before d.tools).tree ∧
    d.tool ∈ (linkTools d.k ctx d.before d.tools).successful := by
  have h := d.installed
  unfold after
  unfold installToolLinksTo at h ⊢
  split at h
  · cases h
  · next ctx hctx =>
    rw [hctx]
    exact ⟨ctx, rfl, rfl, h⟩

theorem valid : isValidToolName d.tool = true ∧ '\x00' ∉ d.tool := by
  obtain ⟨ctx, -, -, hmem⟩ := d.linked
  exact linkTools_valid d.tool hmem

theorem isAbsolute_entryPointDir : Path.isAbsolute d.entryPointDir = true := by
  obtain ⟨ctx, hctx, -, -⟩ := d.linked
  obtain ⟨-, -, ⟨path, hcheck⟩, -⟩ := prepareLinks_ok hctx
  exact (checkPath_accepts.mp hcheck).1

theorem fileName_argv0 {argv0 : Str} (h : argv0 ∈ [entryPath d.entryPointDir d.tool, d.tool]) :
    Path.fileName argv0 = some d.tool := by
  have hname := isName_tool d.valid.1
  rcases List.mem_cons.mp h with rfl | h
  · exact Path.fileName_below d.isAbsolute_entryPointDir hname
  · rw [List.mem_singleton.mp h]
    exact Path.fileName_name hname

theorem basename_argv0 {argv0 : Str} (h : argv0 ∈ [entryPath d.entryPointDir d.tool, d.tool]) :
    basename argv0 = d.tool := by
  rw [basename, d.fileName_argv0 h]
  rfl

/-- `SUDO_COMMAND` names the tool, and a path in it leads to the file the policy runs. -/
def NamesRealBinary : Prop :=
  ∃ token, delegatedCommandTokenFromSudoCommand (sudoCommand d.entryPointDir d.tool d.args) = .ok token ∧
    basename token = d.tool ∧ ('/' ∈ token → executableIdentityFromPath d.os token = .ok d.realBinary)

variable {d}

theorem parse_argv0 {argv0 : Str} (h : argv0 ∈ [entryPath d.entryPointDir d.tool, d.tool]) :
    parseInvocationInternal (argv0 :: d.args) d.env = .ok (d.tool, d.args) ↔ isWrapper d.tool = false ∧
      ∃ token, delegatedCommandTokenFromSudoCommand (sudoCommand d.entryPointDir d.tool d.args) = .ok token ∧
        basename token = d.tool := by
  have hne := (isName_tool d.valid.1).ne_nil
  have hnil : basename [] = [] := rfl
  have htool : ∀ {token}, basename token = d.tool → token ≠ [] := fun hb h => hne (by rw [← hb, h, hnil])
  rw [parseInvocationInternal_ok d.env_sudo]
  unfold argvTool
  extract_lets exeName
  have hexe : exeName = d.tool := by
    show (Path.fileName argv0).getD [] = d.tool
    rw [d.fileName_argv0 h]
    rfl
  rw [hexe]
  by_cases hw : isWrapper d.tool = true
  · rw [if_pos hw, hw]
    refine iff_of_false ?_ fun h => nomatch h.1
    intro ⟨token, _, _, hbase, hname, hargs⟩
    cases hd : d.args with
    | nil =>
      rw [hd] at hbase
      exact hne (hname ▸ hbase)
    | cons arg rest =>
      rw [hd] at hargs
      exact absurd (congrArg List.length hargs) (by simp)
  · rw [if_neg hw, Bool.not_eq_true] at *
    dsimp only
    rw [d.basename_argv0 h]
    constructor
    · exact fun ⟨token, htok, _, _, hname, _⟩ => ⟨hw, token, htok, hname⟩
    · exact fun ⟨_, token, htok, hname⟩ => ⟨token, htok, htool hname, hname, hname, rfl⟩

/-- A command is recognised when the tool has not the program's own name and
`SUDO_COMMAND` leads to its real binary. -/
theorem delegated_names : d.Delegated ↔ isWrapper d.tool = false ∧ d.NamesRealBinary := by
  have hbase : basename d.tool = d.tool := d.basename_argv0 (List.mem_cons_of_mem _ (List.mem_singleton_self _))
  have hfd : executableIdentityFromFd d.os d.result.command.binary.fd = .ok d.realBinary := rfl
  unfold Delegated NamesRealBinary
  rw [verifySudoCommandBindingInternal_ok d.env_sudo, hbase, hfd]
  constructor
  · intro ⟨hparse, token, htok, _, hname, hpath⟩
    refine ⟨((parse_argv0 List.mem_cons_self).mp (hparse _ List.mem_cons_self)).1, token, htok, hname, fun hs => ?_⟩
    obtain ⟨id, hid, hreal⟩ := hpath hs
    cases hreal
    exact hid
  · intro ⟨hw, token, htok, hname, hpath⟩
    refine ⟨fun argv0 h => (parse_argv0 h).mpr ⟨hw, token, htok, hname⟩, token, htok, ?_, hname,
      fun hs => ⟨_, hpath hs, rfl⟩⟩
    intro hnil
    rw [hnil] at hname
    exact (isName_tool d.valid.1).ne_nil hname.symm

/-! ## An ordinary installation -/

variable (d) in
/-- What the managed binary is when its links are made. -/
def managedBinary : Option ExecutableIdentity :=
  (prepareLinks d.k d.euid d.before d.binary d.entryPointDir).toOption.map (·.expectedIdentity)

variable (d) in
/-- The entry-point directory is spelled with plain characters and without
links, the entry point's path is not too long for the kernel, and no tool or
binary is the backup of a tool that is linked later. -/
structure Regular : Prop where
  plain : ∀ c ∈ d.entryPointDir, IsPlain c ∧ c ≠ '\x00'
  noLinks : ∃ visited e, Resolves d.before.fs [] (segments (Utf8.encode d.entryPointDir)) [] visited e
  length : (Utf8.encode (entryPath d.entryPointDir d.tool)).length < PATH_MAX
  apart : Apart d.tools
  binary : ∀ tool ∈ d.tools, Path.fileName d.binary ≠ some (backupName tool)

/-- The command names the entry point. -/
theorem token_regular (hr : d.Regular) (hw : isWrapper d.tool = false) :
    delegatedCommandTokenFromSudoCommand (sudoCommand d.entryPointDir d.tool d.args) =
      .ok (entryPath d.entryPointDir d.tool) := by
  refine delegatedCommandToken_word ?_ ?_ endsWord_args ?_
  · exact List.append_ne_nil_of_right_ne_nil _ (List.cons_ne_nil _ _)
  · intro c hc
    rcases List.mem_append.mp hc with hc | hc
    · exact (hr.plain c hc).1
    · rcases List.mem_cons.mp hc with rfl | hc
      · decide
      · exact isPlain_tool d.valid.1 c hc
  · rw [d.basename_argv0 List.mem_cons_self]
    exact hw

/-- In a regular installation the tool's entry is a link of the managed binary. -/
theorem object_entryOf (hr : d.Regular) {ctx : LinkContext}
    (hctx : prepareLinks d.k d.euid d.before d.binary d.entryPointDir = .ok ctx) :
    ctx.IsLink d.after (ctx.entryOf d.tool) := by
  obtain ⟨ctx', hctx', hafter, hmem⟩ := d.linked
  rw [hctx] at hctx'
  cases hctx'
  obtain ⟨hman, -, -, name, hname, hbinary⟩ := prepareLinks_ok hctx
  obtain ⟨-, -, hlinked⟩ := @linkTools_linked d.k ctx d.tools d.before
  rw [hafter]
  refine (hlinked hr.apart (fun tool htool he => ?_) hman d.tool hmem).2
  have henc : ctx.binaryName = Utf8.encode (backupName tool) := (List.cons.inj (List.append_inj' he rfl).2).1
  rw [hbinary, Utf8.encode_inj] at henc
  exact hr.binary tool htool (henc ▸ hname)

/-- Its directory is found where it was before the links were made. -/
theorem resolves_entryDir (hr : d.Regular) {ctx : LinkContext}
    (hctx : prepareLinks d.k d.euid d.before d.binary d.entryPointDir = .ok ctx) :
    ∃ visited, Resolves d.after.fs [] (segments (Utf8.encode d.entryPointDir)) [] visited ctx.entryDir ∧
      d.after.kindAt ctx.entryDir = .dir := by
  obtain ⟨ctx', hctx', hafter, -⟩ := d.linked
  rw [hctx] at hctx'
  cases hctx'
  obtain ⟨-, hdir, ⟨path, hcheck⟩, -⟩ := prepareLinks_ok hctx
  obtain ⟨visited, e, hres⟩ := hr.noLinks
  obtain ⟨-, _, _, hres', -⟩ := checkPath_accepts.mp hcheck
  obtain ⟨-, -, he⟩ := hres.unique hres'
  subst he
  have hkeeps : d.before.KeepsDirs d.after := fun ho hk =>
    hafter ▸ (@linkTools_linked d.k ctx d.tools d.before).2.1 ho hk
  exact ⟨visited, (hkeeps.resolves hres rfl hdir).1, hkeeps.kindAt hdir⟩

/-- The path in `SUDO_COMMAND` opens the tool's entry. -/
theorem openPath_entryPath (hr : d.Regular) {ctx : LinkContext}
    (hctx : prepareLinks d.k d.euid d.before d.binary d.entryPointDir = .ok ctx) :
    d.os.openPath (entryPath d.entryPointDir d.tool) = .ok (ctx.entryOf d.tool) := by
  obtain ⟨visited, hres, hdir⟩ := resolves_entryDir hr hctx
  obtain ⟨hlookup, hkind⟩ := (object_entryOf hr hctx).found hdir d.valid.1 d.valid.2
  have hsym : d.after.fs.isSymlink (ctx.entryOf d.tool) = false := by rw [FileSystem.isSymlink, hkind]
  have hfollow : d.after.fs.follow MAXSYMLINKS [] (segments (Utf8.encode d.entryPointDir) ++
      [.name (Utf8.encode d.tool)]) = .ok (ctx.entryOf d.tool) :=
    (hres.snoc hlookup hsym).follow (.inr (by simp)) (Nat.zero_le _)
  exact (openPath_entryPath_iff d.isAbsolute_entryPointDir d.valid.1 d.valid.2).mpr ⟨hr.length, hfollow⟩

/-- **The entry point of a regular installation leads to the managed binary.** -/
theorem identity_entryPath (hr : d.Regular) : ∃ id, d.managedBinary = some id ∧
    executableIdentityFromPath d.os (entryPath d.entryPointDir d.tool) = .ok id := by
  obtain ⟨ctx, hctx, -, -⟩ := d.linked
  obtain ⟨o, hobj, -, hid⟩ := object_entryOf hr hctx
  have hnul : '\x00' ∉ entryPath d.entryPointDir d.tool := by
    intro hc
    rcases List.mem_append.mp hc with hc | hc
    · exact (hr.plain _ hc).2 rfl
    · rcases List.mem_cons.mp hc with hc | hc
      · exact absurd hc (by decide)
      · exact d.valid.2 hc
  refine ⟨ctx.expectedIdentity, by rw [managedBinary, hctx]; rfl, ?_⟩
  rw [executableIdentityFromPath, if_neg hnul, openPath_entryPath hr hctx]
  show Except.ok ((d.after.object _).elim {} (·.stat)).identity = _
  rw [hobj, ← hid]
  rfl

/-- **When a delegated command is not refused.** The tool must not have the
program's own name, and `SUDO_COMMAND` must lead to the real binary; in a
regular installation it leads to the managed binary, so that the real binary
must be the managed binary itself. -/
theorem delegated_iff (d : Delegation) :
    (d.Delegated ↔ isWrapper d.tool = false ∧ d.NamesRealBinary) ∧
      (d.Regular → (d.Delegated ↔ isWrapper d.tool = false ∧ d.managedBinary = some d.realBinary)) := by
  refine ⟨delegated_names, fun hr => delegated_names.trans (and_congr_right fun hw => ?_)⟩
  obtain ⟨id, hman, hid⟩ := identity_entryPath hr
  have hslash : '/' ∈ entryPath d.entryPointDir d.tool :=
    List.mem_append_right _ List.mem_cons_self
  unfold NamesRealBinary
  rw [token_regular hr hw, hman]
  constructor
  · intro ⟨token, htok, _, hpath⟩
    cases htok
    rw [hid] at hpath
    rw [Except.ok.inj (hpath hslash)]
  · intro h
    exact ⟨_, rfl, d.basename_argv0 List.mem_cons_self, fun _ => hid.trans (congrArg _ (Option.some.inj h))⟩

end Delegation

/-! ## `apt` through sudo -/

/-- A host with `apt` and the managed binary. -/
def aptHost : Tree :=
  .ofList [(["usr"], .directory), (["usr", "bin"], .directory), (["usr", "bin", "apt"], .file 20),
    (["usr", "local"], .directory), (["usr", "local", "bin"], .directory),
    (["usr", "local", "bin", "secure-sudoers"], .file 10)]

/-- The installation with the default paths. -/
def aptLinks : Links :=
  installToolLinksTo (fun _ _ => none) 0 aptHost ["apt"] "/usr/local/bin/secure-sudoers" "/usr/local/bin"

def aptTools : SecureSudoersPolicy :=
  { globalSettings := {}, tools := .single "apt" { realBinary := "/usr/bin/apt", verbs := ["update"] } }

/-- `sudo apt update` after it. -/
def aptUpdate : Delegation where
  k := fun _ _ => none
  euid := 0
  before := aptHost
  tools := ["apt"]
  binary := "/usr/local/bin/secure-sudoers"
  entryPointDir := "/usr/local/bin"
  tool := "apt"
  installed := by decide +kernel
  regexNew := defaultRegexNew
  loaded := aptTools
  policy := (aptTools.validate aptLinks.tree.fs defaultRegexNew).toOption.get (by decide +kernel)
  args := ["update"]
  result :=
    { command :=
        { binary := ⟨"/usr/bin/apt", [Utf8.encode "usr", Utf8.encode "bin", Utf8.encode "apt"]⟩
          args := [.string "update"]
          isolation := {}
          envWhitelist := defaultCommonEnvWhitelist }
      ruleId := "apt" }
  cwd := []
  env := fun v => if v = "SUDO_COMMAND".toList then some "/usr/local/bin/apt update".toList else none
  env_sudo := by decide +kernel
  accepted := eq_ok_get _
  allowed := by decide +kernel

theorem aptUpdate_regular : aptUpdate.Regular where
  plain c hc := by
    have hall : (aptUpdate.entryPointDir.all fun c => decide (IsPlain c ∧ c ≠ '\x00')) = true := by decide +kernel
    exact of_decide_eq_true (List.all_eq_true.mp hall c hc)
  noLinks := by
    let dir : List Bytes := [Utf8.encode "usr", Utf8.encode "local", Utf8.encode "bin"]
    have hsegs : segments (Utf8.encode aptUpdate.entryPointDir) = dir.map .name := by decide +kernel
    have hres : Resolves aptUpdate.before.fs [] (dir.map .name) [] [dir.take 1, dir.take 2, dir] dir :=
      .name (by decide +kernel) (by decide +kernel) (.name (by decide +kernel) (by decide +kernel)
        (.name (by decide +kernel) (by decide +kernel) .done))
    rw [hsegs]
    exact ⟨_, _, hres⟩
  length := by decide +kernel
  apart := List.pairwise_singleton _ _
  binary := by decide +kernel

/-- It is refused: `apt` is not the managed binary. -/
theorem delegated_iff_apt : ¬aptUpdate.Delegated := by
  rw [(Delegation.delegated_iff aptUpdate).2 aptUpdate_regular]
  decide +kernel

/-- Not every command is delegated. -/
theorem aptUpdate_refused : ¬∀ d : Delegation, d.Delegated := by
  intro h
  have hverify := (h aptUpdate).2
  have hrefused : (verifySudoCommandBindingInternal aptUpdate.os aptUpdate.tool aptUpdate.result.command.binary
      aptUpdate.env).isOk = false := by decide +kernel
  rw [hverify] at hrefused
  cases hrefused

end SecureSudoers
