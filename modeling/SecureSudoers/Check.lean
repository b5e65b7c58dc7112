/-
`check`: what the command says of a policy before it is signed and installed, and
what the wrapper makes of the same policy (`SecureSudoersPolicy::lint`, `cmd_check`).

`lint` follows the path of each binary as the kernel does; the wrapper resolves it
step by step, over fewer links and past the blocked paths. `check_predicts` relates
the two.
-/
import SecureSudoers.PolicyForm
import SecureSudoers.Start

namespace SecureSudoers

/-! ## The code -/

/-- What `lint` looks at of `std::fs::Metadata`. -/
structure Metadata where
  kind : Kind
  mode : Nat
  deriving DecidableEq, Repr

/-- One round of the loop of `lint`. -/
def inspectBinary (metadata : Str → Except Errno Metadata) (name : Str) (tool : ToolPolicy) : Option Str :=
  let start : Str := "Tool '" ++ name ++ "': "
  match metadata tool.realBinary with
  | .error .ENOENT => some (start ++ "real_binary '" ++ tool.realBinary ++ "' does not exist on the filesystem")
  | .error e => some (start ++ "cannot inspect real_binary '" ++ tool.realBinary ++ "': " ++ e.display)
  | .ok m =>
    if m.kind ≠ .file then some (start ++ "real_binary '" ++ tool.realBinary ++ "' exists but is not a file")
    else if m.mode &&& 0o111 = 0 then
      some (start ++ "real_binary '" ++ tool.realBinary ++ "' exists but is not executable")
    else none

/-- `SecureSudoersPolicy::lint`, the tools in the order of the map. -/
def SecureSudoersPolicy.lint {D : Type} (fs : FileSystem D) (regexNew : Str → Option Regex)
    (metadata : Str → Except Errno Metadata) (policy : SecureSudoersPolicy) : List Str :=
  match policy.validate fs regexNew with
  | .error e => ["Validation failed: " ++ e.display]
  | .ok policy => policy.tools.entries.filterMap fun entry => inspectBinary metadata entry.1 entry.2

namespace SigningHost

variable (host : SigningHost)

/-- `std::fs::metadata`. -/
def metadata (st : Storage) (path : Str) : Except Errno Metadata :=
  if '\x00' ∈ path then .error .nulInPath
  else (st.tree.fs.openPath host.cwd (Utf8.encode path)).map fun fd => ⟨st.tree.kindAt fd, (st.tree.fs.stat fd).mode⟩

/-- `read_file_to_string_securely` of the command line. -/
def readFileToStringSecurelyForCheck (st : Storage) (path : Str) : Except ReadError Str := do
  let securePath ← (host.openPathSecurelyForRead st path).mapError .error
  let bytes ← (host.readFd st securePath.fd path).mapError .error
  match Utf8.decode? bytes with
  | none => .error (.notUtf8 ("Cannot read " ++ path))
  | some content => .ok content

/-- `cmd_check`; `fromStr` is `serde_json::from_str`. -/
def cmdCheck (fromStr : Str → Except Str SecureSudoersPolicy) (st : Storage) (policyPath : Str) : Except ReadError Unit := do
  let content ← host.readFileToStringSecurelyForCheck st policyPath
  let policy ← (fromStr content).mapError fun e => .error (.parse ("Failed to parse policy JSON: " ++ e))
  let issues := policy.lint st.tree.fs host.regexNew (host.metadata st)
  if issues = [] then .ok () else .error (.error (.validation "Policy check failed"))

end SigningHost

variable {D : Type} {fs : FileSystem D}

/-! ## What is checked -/

/-- A regular file that someone may execute. -/
def Executable (t : Tree) (fd : List Bytes) : Prop := t.kindAt fd = .file ∧ (t.fs.stat fd).mode &&& 0o111 ≠ 0

variable {host : SigningHost} {st : Storage} {fromStr : Str → Except Str SecureSudoersPolicy} {policyPath : Str}

theorem inspectBinary_none {name : Str} {tool : ToolPolicy} :
    inspectBinary (host.metadata st) name tool = none ↔ '\x00' ∉ tool.realBinary ∧
      ∃ fd, st.tree.fs.openPath host.cwd (Utf8.encode tool.realBinary) = .ok fd ∧ Executable st.tree fd := by
  unfold inspectBinary SigningHost.metadata
  by_cases hnul : '\x00' ∈ tool.realBinary
  · simp [hnul]
  · rw [if_neg hnul]
    cases hopen : st.tree.fs.openPath host.cwd (Utf8.encode tool.realBinary) with
    | error e => cases e <;> simp [Except.map]
    | ok fd =>
      dsimp only [Except.map]
      by_cases hfile : st.tree.kindAt fd = .file
      · by_cases hmode : (st.tree.fs.stat fd).mode &&& 0o111 = 0
        · simp [hfile, hmode, Executable]
        · simp [hfile, hmode, Executable, hnul]
      · simp [hfile, Executable]

theorem lint_nil {D : Type} {fs : FileSystem D} {regexNew : Str → Option Regex} {metadata : Str → Except Errno Metadata}
    {policy : SecureSudoersPolicy} : policy.lint fs regexNew metadata = [] ↔
      ∃ policy', policy.validate fs regexNew = .ok policy' ∧
        ∀ entry ∈ policy'.tools.entries, inspectBinary metadata entry.1 entry.2 = none := by
  unfold SecureSudoersPolicy.lint
  cases policy.validate fs regexNew with
  | error e => simp
  | ok policy' => simp only [List.filterMap_eq_nil_iff, Except.ok.injEq, exists_eq_left']

/-- **A check succeeds exactly on a policy** that is a valid text and whose binaries
are executable files, as far as the kernel follows their paths. -/
theorem cmdCheck_ok : host.cmdCheck fromStr st policyPath = .ok () ↔ ∃ content parsed policy,
    host.readFileToStringSecurelyForCheck st policyPath = .ok content ∧ fromStr content = .ok parsed ∧
      parsed.validate st.tree.fs host.regexNew = .ok policy ∧ ∀ entry ∈ policy.tools.entries,
        '\x00' ∉ entry.2.realBinary ∧
          ∃ fd, st.tree.fs.openPath host.cwd (Utf8.encode entry.2.realBinary) = .ok fd ∧ Executable st.tree fd := by
  unfold SigningHost.cmdCheck
  simp only [bind_ok, mapError_ok]
  constructor
  · intro h
    obtain ⟨content, hread, parsed, hparsed, h⟩ := h
    split at h
    · next hissues =>
      obtain ⟨policy, hvalid, hall⟩ := lint_nil.mp hissues
      exact ⟨content, parsed, policy, hread, hparsed, hvalid, fun entry hentry => inspectBinary_none.mp (hall entry hentry)⟩
    · cases h
  · intro h
    obtain ⟨content, parsed, policy, hread, hparsed, hvalid, hall⟩ := h
    refine ⟨content, hread, parsed, hparsed, if_pos (lint_nil.mpr ⟨policy, hvalid, ?_⟩)⟩
    exact fun entry hentry => inspectBinary_none.mpr (hall entry hentry)

/-! ## What the wrapper makes of it -/

/-- Why `check_path` refuses a path the kernel follows: it leads over more links than are
counted, one of them is no text, it meets a blocked path, or the object's own path is too
long to be read back. -/
def Barred (fs : FileSystem D) (blockedPaths : List Str) (path : Str) (fd : D) : Prop :=
  ∃ targets visited, Resolves fs fs.root (segments (Utf8.encode path)) targets visited fd ∧
    (MAX_SYMLINK_DEPTH < targets.length ∨ ¬TextTargets targets ∨ ¬Unblocked fs blockedPaths visited ∨ ¬fs.Short fd)

/-- Where the wrapper resolves a path the kernel follows, it is to the same object; and
where it does not, the path is barred. -/
theorem checkPath_opened {cwd fd : D} {path : Str} {context : ValidationContext} {blockedPaths : List Str}
    (habs : Path.isAbsolute path = true) (hopen : fs.openPath cwd (Utf8.encode path) = .ok fd) :
    (∀ p, checkPath fs path context blockedPaths = .ok p → p.fd = fd) ∧
      ∀ e, checkPath fs path context blockedPaths = .error e → Barred fs blockedPaths path fd := by
  have hfollow := openPath_follow habs hopen
  constructor
  · intro p hp
    obtain ⟨-, targets, visited, hr, -⟩ := checkPath_accepts.mp hp
    exact (hr.opened habs hopen).symm
  · intro e he
    obtain ⟨targets, visited, hr, -⟩ := followIn_resolves hfollow
    refine ⟨targets, visited, hr, ?_⟩
    by_contra hnot
    simp only [not_or, not_lt, not_not] at hnot
    obtain ⟨hlen, htext, hunblocked, hshort⟩ := hnot
    have haccepts : checkPath fs path context blockedPaths = .ok ⟨fs.canonicalPath fd, fd⟩ :=
      checkPath_accepts.mpr ⟨habs, targets, visited, hr, hlen, htext, hunblocked, rfl, hshort⟩
    rw [haccepts] at he
    cases he

theorem realBinary_absolute {regexNew : Str → Option Regex} {parsed policy : SecureSudoersPolicy}
    (h : parsed.validate fs regexNew = .ok policy) {entry : Str × ToolPolicy} (hentry : entry ∈ policy.tools.entries) :
    Path.isAbsolute entry.2.realBinary = true := by
  obtain ⟨hok, rfl⟩ := validate_ok.mp h
  obtain ⟨before, hbefore, rfl⟩ := List.mem_map.mp hentry
  exact (hok.tools before hbefore).binary_absolute

/-- **What passes the check, the wrapper can run.** After a check that succeeds, the path
of each tool's binary leads to an executable file; the wrapper's `check_path` resolves it
to no other, and refuses it only where the path is barred. -/
theorem check_predicts (h : host.cmdCheck fromStr st policyPath = .ok ()) : ∃ content parsed policy,
    host.readFileToStringSecurelyForCheck st policyPath = .ok content ∧ fromStr content = .ok parsed ∧
      parsed.validate st.tree.fs host.regexNew = .ok policy ∧ ∀ entry ∈ policy.tools.entries,
        ∃ fd, Executable st.tree fd ∧
          (∀ p, checkPath st.tree.fs entry.2.realBinary .positional policy.globalSettings.blockedPaths = .ok p → p.fd = fd) ∧
            ∀ e, checkPath st.tree.fs entry.2.realBinary .positional policy.globalSettings.blockedPaths = .error e →
              Barred st.tree.fs policy.globalSettings.blockedPaths entry.2.realBinary fd := by
  obtain ⟨content, parsed, policy, hread, hparsed, hvalid, hall⟩ := cmdCheck_ok.mp h
  refine ⟨content, parsed, policy, hread, hparsed, hvalid, fun entry hentry => ?_⟩
  obtain ⟨-, fd, hopen, hexecutable⟩ := hall entry hentry
  exact ⟨fd, hexecutable, checkPath_opened (realBinary_absolute hvalid hentry) hopen⟩

/-! ## The policy of one tool -/

theorem toOpt_length : (Kind.symlink (Utf8.encode "/opt/apt")).targetLength < PATH_MAX := by
  decide

def toOpt : Object := { kind := .symlink (Utf8.encode "/opt/apt"), target_length := toOpt_length }

/-- The policy of `policyText`, with its binary reached over a link. -/
def checkedStorage : Storage where
  tree := .ofList [(["p.json"], .file 1), (["usr"], .directory), (["usr", "bin"], .directory),
    (["usr", "bin", "apt"], toOpt), (["opt"], .directory), (["opt", "apt"], .file 7)]
  flags _ := 0
  content inode := if inode.ino = 1 then Utf8.encode policyText else []

theorem check_predicts_apt : ∃ content parsed policy,
    (policyHost none).readFileToStringSecurelyForCheck checkedStorage "/p.json" = .ok content ∧
      (policyHost none).fromSlice (Utf8.encode content) = .ok parsed ∧
        parsed.validate checkedStorage.tree.fs defaultRegexNew = .ok policy ∧ ∀ entry ∈ policy.tools.entries,
          ∃ fd, Executable checkedStorage.tree fd ∧
            (∀ p, checkPath checkedStorage.tree.fs entry.2.realBinary .positional policy.globalSettings.blockedPaths = .ok p →
              p.fd = fd) ∧
              ∀ e, checkPath checkedStorage.tree.fs entry.2.realBinary .positional policy.globalSettings.blockedPaths =
                .error e → Barred checkedStorage.tree.fs policy.globalSettings.blockedPaths entry.2.realBinary fd :=
  @check_predicts (policyHost none) checkedStorage (fun s => (policyHost none).fromSlice (Utf8.encode s)) "/p.json"
    (by decide +kernel)

end SecureSudoers
