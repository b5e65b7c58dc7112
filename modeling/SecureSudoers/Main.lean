/-
A run of the program once its policy is loaded (`main.rs`, `init_logging`), as
the list of what it does that can be seen from outside. Log records that are no
security event are left out.

`eprintln!` panics when standard error cannot be written, so that what follows
it does not happen. `main_logged_iff` says when a run writes a security event
before it ends or starts the program: the ways round one are a panic (in the
fallback of `init_logging`, on an argument that is no text, in the redaction of
an unknown tool's arguments) and a binary that cannot be hashed.
-/
import SecureSudoers.Validator
import SecureSudoers.Redaction
import SecureSudoers.Binding
import SecureSudoers.Telemetry

namespace SecureSudoers

variable {D : Type}

/-- What a run depends on. -/
structure World (D : Type) where
  process : Process
  accounts : Accounts
  /-- Why the syslog socket cannot be opened, if it cannot. -/
  syslog : Option Str
  stderrFails : Str → Bool
  /-- `rfc3339_now`, at each reading. -/
  clock : Nat → Str
  check : PathCheck D
  regexNew : Str → Option Regex
  os : Descriptors D
  /-- `hash_binary_fd`. -/
  hash : D → Except Error Str
  /-- `run_supervisor`. -/
  supervisor : ValidatedCommand D → Except Error Int

/-- What a run does. -/
inductive Action (D : Type) where
  | event (ev : SecurityEvent)
  | stderr (text : Str)
  | panic
  | exit (code : Int)
  | supervise (cmd : ValidatedCommand D)
  deriving DecidableEq, Repr

/-- `eprintln!`, and what follows it. -/
def eprintln (w : World D) (text : Str) (next : List (Action D)) : List (Action D) :=
  if w.stderrFails text then [.panic] else .stderr text :: next

/-- Some lines on standard error, and the exit. -/
def fail (w : World D) (texts : List Str) : List (Action D) := texts.foldr (eprintln w) [.exit 1]

def syslogUnavailableMsg (e : Str) : Str := "secure-sudoers: syslog unavailable (" ++ e ++ "); falling back to stdout"

/-- `init_logging`, and what follows it. -/
def initLogging (w : World D) (settings : GlobalSettings) (next : List (Action D)) : List (Action D) :=
  if settings.logDestination = "syslog".toList then
    match w.syslog with
    | some e => eprintln w (syslogUnavailableMsg e) next
    | none => next
  else next

/-- The events of a run share who it is about and its transaction. -/
def World.securityEvent (w : World D) (txnId : Str) (reading : Nat) (eventId : EventId) (context : ContextInfo)
    (policy : PolicyInfo) (args : List Str) : SecurityEvent :=
  { eventId, txnId, timestamp := w.clock reading,
    identity := resolveIdentityTriad w.accounts w.process.envVar, context, policy, args }

/-- `hash_path_for_telemetry`. -/
def hashPathForTelemetry (w : World D) (path : Str) : Option Str :=
  if '\x00' ∈ path then none
  else match w.os.openPath path with
    | .error _ => none
    | .ok fd => (w.hash fd).toOption

/-- The branch of `main` after a command was denied. -/
def denied (w : World D) (txnId : Str) (policy : SecureSudoersPolicy) (toolName : Str) (rawArgs : List Str)
    (denial : ValidationDenial) : List (Action D) :=
  match redactArgs rawArgs policy toolName with
  | none => [.panic]
  | some redacted =>
    .event (w.securityEvent txnId 0 .policyViolation { tool := toolName, binaryPath := [], binaryHash := [] }
      { status := "denied", ruleId := denial.ruleId, reason := some denial.reasonSlug } redacted) ::
      fail w ["Access denied: " ++ denial.reason, policy.globalSettings.adminContact]

/-- The branch of `main` after a command was accepted. -/
def accepted (w : World D) (txnId : Str) (policy : SecureSudoersPolicy) (toolName : Str) (rawArgs : List Str)
    (result : ValidationResult D) : List (Action D) :=
  let cmd := result.command
  match verifySudoCommandBindingInternal w.os toolName cmd.binary w.process.envVar with
  | .error e =>
    let binaryHash := (e.observedSudoPath.bind (hashPathForTelemetry w)).getD []
    .event (w.securityEvent txnId 0 .identitySpoofing { tool := toolName, binaryPath := cmd.binary.path, binaryHash }
      { status := "error", ruleId := some result.ruleId, reason := some "invocation_error" } []) ::
      fail w ["FATAL: " ++ e.message]
  | .ok () =>
    match w.hash cmd.binary.fd with
    | .error e => fail w ["FATAL: Cannot compute binary hash: " ++ e.display]
    | .ok binaryHash =>
      match redactArgs rawArgs policy toolName with
      | none => [.panic]
      | some redacted =>
        let context := { tool := toolName, binaryPath := cmd.binary.path, binaryHash }
        .event (w.securityEvent txnId 0 .commandApproved context
          { status := "allowed", ruleId := some result.ruleId, reason := none } redacted) ::
          .supervise cmd ::
          match w.supervisor cmd with
          | .ok exitCode => [.exit exitCode]
          | .error e =>
            .event (w.securityEvent txnId 1 .execFailure context
              { status := "error", ruleId := some result.ruleId, reason := some "execution_failure" } redacted) ::
              fail w ["Execution failed: " ++ e.display]

/-- `main`, from where the policy is loaded. -/
def main (w : World D) (txnId : Str) (policy : SecureSudoersPolicy) : List (Action D) :=
  initLogging w policy.globalSettings <|
    match parseInvocationCurrentProcess w.process with
    | none => [.panic]
    | some (.error e) =>
      .event (w.securityEvent txnId 0 .identitySpoofing { tool := [], binaryPath := [], binaryHash := [] }
        { status := "error", ruleId := none, reason := some "invocation_error" } []) ::
        fail w ["FATAL: " ++ e.display]
    | some (.ok (toolName, rawArgs)) =>
      match validateCommand w.check w.regexNew policy toolName rawArgs with
      | .error denial => denied w txnId policy toolName rawArgs denial
      | .ok result => accepted w txnId policy toolName rawArgs result

/-- The run writes a security event before it ends, panics or starts the program. -/
def Logged : List (Action D) → Prop
  | [] => False
  | .event _ :: _ => True
  | .stderr _ :: rest => Logged rest
  | .panic :: _ | .exit _ :: _ | .supervise _ :: _ => False

/-! ## When a run is logged -/

variable {w : World D} {txnId : Str} {policy : SecureSudoersPolicy}

theorem logged_eprintln {text : Str} {next : List (Action D)} :
    Logged (eprintln w text next) ↔ w.stderrFails text = false ∧ Logged next := by
  unfold eprintln
  cases w.stderrFails text <;> simp [Logged]

theorem not_logged_fail : ∀ {texts : List Str}, ¬Logged (fail w texts)
  | [] => fun h => h
  | _ :: _ => fun h => not_logged_fail (logged_eprintln.mp h).2

theorem logged_initLogging {settings : GlobalSettings} {next : List (Action D)} :
    Logged (initLogging w settings next) ↔
      (settings.logDestination = "syslog".toList → ∀ e, w.syslog = some e →
        w.stderrFails (syslogUnavailableMsg e) = false) ∧ Logged next := by
  unfold initLogging
  by_cases hdest : settings.logDestination = "syslog".toList
  · rw [if_pos hdest]
    cases w.syslog with
    | none => exact ⟨fun h => ⟨fun _ _ => nofun, h⟩, fun h => h.2⟩
    | some e =>
      refine logged_eprintln.trans (and_congr_left' ⟨fun h _ e' he => ?_, fun h => h hdest e rfl⟩)
      cases he
      exact h
  · rw [if_neg hdest]
    exact ⟨fun h => ⟨fun hd => absurd hd hdest, h⟩, fun h => h.2⟩

theorem logged_denied {toolName : Str} {rawArgs : List Str} {denial : ValidationDenial} :
    Logged (denied w txnId policy toolName rawArgs denial) ↔ redactArgs rawArgs policy toolName ≠ none := by
  unfold denied
  cases redactArgs rawArgs policy toolName <;> simp [Logged]

theorem logged_accepted {toolName : Str} {rawArgs : List Str} {result : ValidationResult D} :
    Logged (accepted w txnId policy toolName rawArgs result) ↔
      (verifySudoCommandBindingInternal w.os toolName result.command.binary w.process.envVar = .ok () →
        (∃ hash, w.hash result.command.binary.fd = .ok hash) ∧ redactArgs rawArgs policy toolName ≠ none) := by
  unfold accepted
  extract_lets cmd
  cases verifySudoCommandBindingInternal w.os toolName cmd.binary w.process.envVar with
  | error e => exact iff_of_true trivial nofun
  | ok =>
    cases w.hash cmd.binary.fd with
    | error e => exact iff_of_false not_logged_fail fun h => nomatch (h rfl).1
    | ok hash =>
      cases redactArgs rawArgs policy toolName with
      | none => exact iff_of_false id fun h => (h rfl).2 rfl
      | some redacted => exact iff_of_true trivial fun _ => ⟨⟨hash, rfl⟩, nofun⟩

/-- Only a tool of the policy is accepted. -/
theorem validateCommand_known {check : PathCheck D} {regexNew : Str → Option Regex} {toolName : Str}
    {rawArgs : List Str} {result : ValidationResult D}
    (h : validateCommand check regexNew policy toolName rawArgs = .ok result) : policy.tools.get toolName ≠ none := by
  intro hnone
  rw [validateCommand, hnone] at h
  cases h

/-- The process asks for the tool `toolName` with these arguments. -/
def Invokes (p : Process) (toolName : Str) (rawArgs : List Str) : Prop :=
  ∃ args, p.args = some args ∧ parseInvocationInternal args p.envVar = .ok (toolName, rawArgs)

/-- A run that stays clear of the ways out that write no event. -/
structure Loggable (w : World D) (policy : SecureSudoersPolicy) : Prop where
  /-- That syslog is unavailable can be said on standard error. -/
  syslog : policy.globalSettings.logDestination = "syslog".toList →
    ∀ e, w.syslog = some e → w.stderrFails (syslogUnavailableMsg e) = false
  /-- Every argument is text. -/
  text : ∀ arg ∈ w.process.argv, Utf8.decode? arg ≠ none
  /-- Where only the keys of an unknown tool's arguments are shown, none is cut inside a letter. -/
  letters {toolName : Str} {rawArgs : List Str} : Invokes w.process toolName rawArgs →
    policy.tools.get toolName = none → policy.globalSettings.unauthorizedAuditMode = .keysOnly →
    ∀ arg ∈ rawArgs, ¬CutsLetter arg
  /-- The binary of an accepted command can be hashed. -/
  hashed {toolName : Str} {rawArgs : List Str} {result : ValidationResult D} : Invokes w.process toolName rawArgs →
    validateCommand w.check w.regexNew policy toolName rawArgs = .ok result →
    verifySudoCommandBindingInternal w.os toolName result.command.binary w.process.envVar = .ok () →
    ∃ hash, w.hash result.command.binary.fd = .ok hash

theorem Invokes.unique {p : Process} {toolName toolName' : Str} {rawArgs rawArgs' : List Str}
    (h : Invokes p toolName rawArgs) (h' : Invokes p toolName' rawArgs') :
    toolName' = toolName ∧ rawArgs' = rawArgs := by
  obtain ⟨args, hargs, hparse⟩ := h
  obtain ⟨args', hargs', hparse'⟩ := h'
  rw [hargs] at hargs'
  cases hargs'
  rw [hparse] at hparse'
  cases hparse'
  exact ⟨rfl, rfl⟩

/-- What being loggable asks of a process that invokes a tool. -/
theorem loggable_invokes {toolName : Str} {rawArgs : List Str} (hinv : Invokes w.process toolName rawArgs)
    (htext : ∀ arg ∈ w.process.argv, Utf8.decode? arg ≠ none) :
    Loggable w policy ↔
      (policy.globalSettings.logDestination = "syslog".toList → ∀ e, w.syslog = some e →
        w.stderrFails (syslogUnavailableMsg e) = false) ∧
      redactArgs rawArgs policy toolName ≠ none ∧
      ∀ result, validateCommand w.check w.regexNew policy toolName rawArgs = .ok result →
        verifySudoCommandBindingInternal w.os toolName result.command.binary w.process.envVar = .ok () →
        ∃ hash, w.hash result.command.binary.fd = .ok hash := by
  rw [ne_eq, redactArgs_eq_none]
  constructor
  · intro h
    refine ⟨h.syslog, ?_, fun result => h.hashed hinv⟩
    rintro ⟨hnone, hmode, arg, hmem, hcut⟩
    exact h.letters hinv hnone hmode arg hmem hcut
  · rintro ⟨hsys, hletters, hhash⟩
    refine ⟨hsys, htext, fun hi hnone hmode arg hmem hcut => ?_, fun hi hok hbind => ?_⟩
    · obtain ⟨rfl, rfl⟩ := hinv.unique hi
      exact hletters ⟨hnone, hmode, arg, hmem, hcut⟩
    · obtain ⟨rfl, rfl⟩ := hinv.unique hi
      exact hhash _ hok hbind

/-- The run from the invocation on. -/
theorem logged_invoked {toolName : Str} {rawArgs : List Str} :
    Logged (match validateCommand w.check w.regexNew policy toolName rawArgs with
      | .error denial => denied w txnId policy toolName rawArgs denial
      | .ok result => accepted w txnId policy toolName rawArgs result) ↔
      redactArgs rawArgs policy toolName ≠ none ∧
      ∀ result, validateCommand w.check w.regexNew policy toolName rawArgs = .ok result →
        verifySudoCommandBindingInternal w.os toolName result.command.binary w.process.envVar = .ok () →
        ∃ hash, w.hash result.command.binary.fd = .ok hash := by
  cases hval : validateCommand w.check w.regexNew policy toolName rawArgs with
  | error denial => exact logged_denied.trans (and_iff_left fun _ => nofun).symm
  | ok result =>
    have hsome : redactArgs rawArgs policy toolName ≠ none := fun h =>
      validateCommand_known hval (redactArgs_eq_none.mp h).1
    refine logged_accepted.trans ?_
    rw [and_iff_right hsome]
    constructor
    · intro h result' he hbind
      cases he
      exact (h hbind).1
    · exact fun h hbind => ⟨h result rfl hbind, hsome⟩

/-- **A run writes a security event before it ends, panics or starts the
program, exactly when it is loggable.** -/
theorem main_logged_iff : Logged (main w txnId policy) ↔ Loggable w policy := by
  have hnone : w.process.args = none ↔ ∃ arg ∈ w.process.argv, Utf8.decode? arg = none := mapM_eq_none
  refine logged_initLogging.trans ?_
  rw [parseInvocationCurrentProcess_eq]
  cases hargs : w.process.args with
  | none =>
    obtain ⟨arg, hmem, hdec⟩ := hnone.mp hargs
    exact iff_of_false (fun h => h.2) fun h => h.text arg hmem hdec
  | some args =>
    have htext : ∀ arg ∈ w.process.argv, Utf8.decode? arg ≠ none := fun arg hmem hdec => by
      rw [hnone.mpr ⟨arg, hmem, hdec⟩] at hargs
      cases hargs
    rw [Option.map_some]
    cases hparse : parseInvocationInternal args w.process.envVar with
    | error e =>
      have hnot : ∀ {toolName rawArgs}, ¬Invokes w.process toolName rawArgs := by
        rintro toolName rawArgs ⟨args', hargs', h⟩
        rw [hargs] at hargs'
        cases hargs'
        rw [hparse] at h
        cases h
      exact ⟨fun h => ⟨h.1, htext, fun hi => absurd hi hnot, fun hi => absurd hi hnot⟩, fun h => ⟨h.syslog, trivial⟩⟩
    | ok inv =>
      have hinv : Invokes w.process inv.1 inv.2 := ⟨args, hargs, hparse⟩
      rw [loggable_invokes hinv htext]
      exact and_congr_right' logged_invoked

/-- `apt` called with an argument of one octet that is no text. -/
def binaryArgument : World Nat where
  process :=
    { argv := [Utf8.encode "/usr/local/bin/apt", [0xff]], env := fun _ => none, cmdlineError := none
      argv_noNul := by decide }
  accounts := { uid := 1000, euid := 0, userName := .ok (some "alice"), passwd := .ok [] }
  syslog := none
  stderrFails := fun _ => false
  clock := fun _ => "2026-01-01T00:00:00Z"
  check := fun arg _ _ => .ok ⟨arg, 0⟩
  regexNew := defaultRegexNew
  os := { openPath := fun _ => .error .ENOENT, fstat := fun _ => .ok {} }
  hash := fun _ => .ok []
  supervisor := fun _ => .ok 0

def aptPolicy : SecureSudoersPolicy :=
  { globalSettings := {}, tools := .single "apt" { realBinary := "/usr/bin/apt" } }

/-- On it the run panics and writes no event. -/
theorem main_unlogged : ¬∀ (w : World Nat) (txnId : Str) (policy : SecureSudoersPolicy), Logged (main w txnId policy) := by
  intro h
  have hrun : main binaryArgument "a3f7c291" aptPolicy = [.panic] := by decide
  have hlog := h binaryArgument "a3f7c291" aptPolicy
  rw [hrun] at hlog
  exact hlog

end SecureSudoers
