/-
The wrapper from its start (`main.rs`): the kernel's version, the transaction id,
the policy, and then `main` of `Main.lean`.

`run_authorized` is the chain that a program is started by: each link of it is
needed and all of them are enough. A run that ends otherwise ends with the code 1
or a panic. The code of a run that starts a program is the program's (`Starts.code`).
-/
import Mathlib.Data.Nat.Digits.Lemmas
import SecureSudoers.ExitStatus
import SecureSudoers.KernelVersion
import SecureSudoers.Main
import SecureSudoers.Signing

namespace SecureSudoers

/-! ## The transaction id -/

/-- A call of `getrandom`: so many octets at most, or the error. -/
abbrev GetRandom := (len : Nat) → Except Errno { bytes : Bytes // bytes.length ≤ len }

/-- The loop of `generate_txn_id`, with what the buffer holds; there is no result
while it waits for the next call. -/
def fillTxnId (buf : Bytes) : List GetRandom → Option (Except Error Bytes)
  | [] => if 4 ≤ buf.length then some (.ok buf) else none
  | call :: calls =>
    if 4 ≤ buf.length then some (.ok buf)
    else match call (4 - buf.length) with
      | .ok ⟨[], _⟩ =>
        some (.error (.system "Security failure: getrandom(2) returned zero bytes while creating transaction id"))
      | .ok ⟨bytes, _⟩ => fillTxnId (buf ++ bytes) calls
      | .error e =>
        if e = EINTR then fillTxnId buf calls
        else some (.error (.system
          ("Security failure: getrandom(2) failed while creating transaction id: " ++ e.display)))

/-- `u32::from_be_bytes`. -/
def fromBeBytes (bytes : Bytes) : Nat := Nat.ofDigits 256 (bytes.reverse.map UInt8.toNat)

/-- `format!` with `{:08x}`. -/
def hex8 (n : Nat) : Str := Hex.padded 8 n

/-- `generate_txn_id`. -/
def generateTxnId (calls : List GetRandom) : Option (Except Error Str) :=
  (fillTxnId [] calls).map fun r => r.map fun buf => hex8 (fromBeBytes buf)

/-- The buffer is never longer than four octets. -/
theorem fillTxnId_length {calls : List GetRandom} : ∀ {buf bytes : Bytes}, buf.length ≤ 4 →
    fillTxnId buf calls = some (.ok bytes) → bytes.length = 4 := by
  have hfull : ∀ {buf bytes : Bytes}, buf.length ≤ 4 → 4 ≤ buf.length →
      some (Except.ok buf : Except Error Bytes) = some (.ok bytes) → bytes.length = 4 := by
    intro buf bytes hle hge h
    cases h
    omega
  induction calls with
  | nil =>
    intro buf bytes hle h
    rw [fillTxnId] at h
    split at h
    · next hge => exact hfull hle hge h
    · cases h
  | cons call calls ih =>
    intro buf bytes hle h
    rw [fillTxnId] at h
    split at h
    · next hge => exact hfull hle hge h
    · split at h
      · cases h
      · next more hmore _ =>
        refine ih ?_ h
        rw [List.length_append]
        omega
      · split at h
        · exact ih hle h
        · cases h

/-! ### Each id is that of one filling -/

theorem fromBeBytes_inj {bytes bytes' : Bytes} (hlength : bytes.length = bytes'.length)
    (h : fromBeBytes bytes = fromBeBytes bytes') : bytes = bytes' := by
  have hlt : ∀ {bytes : Bytes}, ∀ n ∈ bytes.reverse.map UInt8.toNat, n < 256 := by
    intro bytes n hn
    obtain ⟨b, -, rfl⟩ := List.mem_map.mp hn
    exact b.toNat_lt
  have hdigits := Nat.ofDigits_inj_of_len_eq (by omega) (by simp [hlength]) hlt hlt h
  have hbytes := List.map_injective_iff.mpr (fun _ _ => UInt8.toNat_inj.mp) hdigits
  exact List.reverse_injective hbytes

theorem generateTxnId_ok {calls : List GetRandom} {txnId : Str} (h : generateTxnId calls = some (.ok txnId)) :
    ∃ bytes, fillTxnId [] calls = some (.ok bytes) ∧ bytes.length = 4 ∧ txnId = hex8 (fromBeBytes bytes) := by
  unfold generateTxnId at h
  cases hfill : fillTxnId [] calls with
  | none => simp [hfill] at h
  | some r =>
    cases r with
    | error e => simp [hfill, Except.map] at h
    | ok bytes =>
      rw [hfill] at h
      cases h
      exact ⟨bytes, rfl, fillTxnId_length (by simp) hfill, rfl⟩

/-- **Two ids are equal only if the four octets are.** -/
theorem generateTxnId_inj {calls calls' : List GetRandom} {txnId : Str} (h : generateTxnId calls = some (.ok txnId))
    (h' : generateTxnId calls' = some (.ok txnId)) : fillTxnId [] calls = fillTxnId [] calls' := by
  obtain ⟨bytes, hfill, hlength, rfl⟩ := generateTxnId_ok h
  obtain ⟨bytes', hfill', hlength', heq⟩ := generateTxnId_ok h'
  rw [hfill, hfill', fromBeBytes_inj (hlength.trans hlength'.symm) (Hex.padded_inj heq)]

/-! ## The run -/

def POLICY_PATH : Str := "/etc/secure-sudoers/policy.json"
def PUBLIC_KEY_PATH : Str := "/etc/secure-sudoers/secure_sudoers_public_key.pem"

/-- What a run depends on from its start. -/
structure Start where
  /-- Is it a debug build? -/
  debugAssertions : Bool
  uname : Except Errno Bytes
  utf8Error : Bytes → Str
  random : List GetRandom
  host : SigningHost
  storage : Storage
  world : World (List Bytes)

namespace Start

variable (s : Start)

/-- A variable that a debug build looks at. -/
def override (v : Str) : Option Str := if s.debugAssertions then s.world.process.envVar v else none

def kernel : KernelHost where
  releaseOverride := s.override "SECURE_SUDOERS_TEST_KERNEL_RELEASE"
  uname := s.uname
  utf8Error := s.utf8Error

def policyPath : Str := (s.override "SECURE_SUDOERS_POLICY_PATH").getD POLICY_PATH

def pubkeyPath : Str := (s.override "SECURE_SUDOERS_PUBKEY_PATH").getD PUBLIC_KEY_PATH

/-- `load_policy`. -/
def loadPolicy (path : Str) : Except ReadError SecureSudoersPolicy :=
  s.host.loadPolicyWithPubkey s.storage path s.pubkeyPath

/-- `main`; there is no result while `getrandom` does not return. -/
def run : Option (List (Action (List Bytes))) :=
  match s.kernel.ensureMinimumKernelVersion with
  | .error e => some (fail s.world ["FATAL: " ++ e.display])
  | .ok () =>
    match generateTxnId s.random with
    | none => none
    | some (.error e) => some (fail s.world ["FATAL: " ++ e.display])
    | some (.ok txnId) =>
      match s.loadPolicy s.policyPath with
      | .error e => some (fail s.world ["FATAL: Cannot load policy: " ++ e.display])
      | .ok policy => some (main s.world txnId policy)

end Start

/-! ## What a program is started by -/

/-- The octets of a signed policy. -/
structure Signed (host : SigningHost) (st : Storage) (path pubkeyPath : Str) (bytes : Bytes) : Prop where
  policy : host.read st path = .ok bytes
  signature : ∃ pubkey sig, readPemBytes host.engine host.reader st pubkeyPath "SECURE SUDOERS PUBLIC KEY" = .ok pubkey ∧
    pubkey.length = 32 ∧ host.scheme.fromBytes pubkey = .ok () ∧ host.read st (path ++ ".sig") = .ok sig ∧
      sig.length = 64 ∧ host.scheme.verify pubkey bytes sig = .ok ()

theorem verifiedPolicy_ok {host : SigningHost} {st : Storage} {path pubkeyPath : Str} {bytes : Bytes} :
    host.verifiedPolicy st path pubkeyPath = .ok bytes ↔ Signed host st path pubkeyPath bytes := by
  unfold SigningHost.verifiedPolicy
  simp only [bind_ok, mapError_ok]
  constructor
  · intro ⟨policyBytes, hread, pubkey, hpubkey, h⟩
    split at h
    · cases h
    · next hkey =>
      obtain ⟨_, hfrom, h⟩ := bind_ok.mp h
      obtain ⟨sig, hsig, h⟩ := bind_ok.mp h
      split at h
      · cases h
      · next hlength =>
        obtain ⟨_, hverify, h⟩ := bind_ok.mp h
        cases h
        exact ⟨hread, pubkey, sig, hpubkey, not_not.mp hkey, mapError_ok.mp hfrom, mapError_ok.mp hsig,
          not_not.mp hlength, mapError_ok.mp hverify⟩
  · intro ⟨hread, pubkey, sig, hpubkey, hkey, hfrom, hsig, hlength, hverify⟩
    refine ⟨bytes, hread, pubkey, hpubkey, ?_⟩
    rw [if_neg (not_not.mpr hkey)]
    refine bind_ok.mpr ⟨(), mapError_ok.mpr hfrom, bind_ok.mpr ⟨sig, mapError_ok.mpr hsig, ?_⟩⟩
    rw [if_neg (not_not.mpr hlength)]
    exact bind_ok.mpr ⟨(), mapError_ok.mpr hverify, rfl⟩

/-- `main` starts the program for `cmd`, under this policy. -/
structure Delegates (w : World (List Bytes)) (policy : SecureSudoersPolicy) (cmd : ValidatedCommand (List Bytes)) :
    Prop where
  /-- That syslog is unavailable can be said. -/
  syslog : policy.globalSettings.logDestination = "syslog".toList →
    ∀ e, w.syslog = some e → w.stderrFails (syslogUnavailableMsg e) = false
  /-- The command is what the policy makes of the invocation, and its binary the one sudo was asked for. -/
  accepted : ∃ toolName rawArgs result, Invokes w.process toolName rawArgs ∧
    validateCommand w.check w.regexNew policy toolName rawArgs = .ok result ∧ result.command = cmd ∧
      verifySudoCommandBindingInternal w.os toolName cmd.binary w.process.envVar = .ok () ∧
        (∃ hash, w.hash cmd.binary.fd = .ok hash) ∧ redactArgs rawArgs policy toolName ≠ none

/-- The chain that a program is started by. -/
structure Authorized (s : Start) (txnId : Str) (policy : SecureSudoersPolicy) (cmd : ValidatedCommand (List Bytes)) :
    Prop where
  kernel : s.kernel.ensureMinimumKernelVersion = .ok ()
  txn : generateTxnId s.random = some (.ok txnId)
  /-- The policy is a text that was signed, and is well formed. -/
  signed : ∃ bytes parsed, Signed s.host s.storage s.policyPath s.pubkeyPath bytes ∧ s.host.fromSlice bytes = .ok parsed ∧
    parsed.validate s.storage.tree.fs s.host.regexNew = .ok policy
  delegates : Delegates s.world policy cmd

theorem loadPolicyWithPubkey_iff {host : SigningHost} {st : Storage} {path pubkeyPath : Str}
    {policy : SecureSudoersPolicy} : host.loadPolicyWithPubkey st path pubkeyPath = .ok policy ↔
      ∃ bytes parsed, Signed host st path pubkeyPath bytes ∧ host.fromSlice bytes = .ok parsed ∧
        parsed.validate st.tree.fs host.regexNew = .ok policy := by
  rw [SigningHost.loadPolicyWithPubkey]
  simp only [bind_ok, mapError_ok, verifiedPolicy_ok, exists_and_left]

/-! ## How a run ends -/

/-- What does not end a run, and starts no program. -/
def Action.quiet {D : Type} : Action D → Bool
  | .event _ | .stderr _ => true
  | _ => false

variable {w : World (List Bytes)} {txnId : Str} {policy : SecureSudoersPolicy}

/-- A run that starts no program. -/
def Refuses (actions : List (Action (List Bytes))) : Prop :=
  ∃ front last, actions = front ++ [last] ∧ (∀ a ∈ front, a.quiet = true) ∧ (last = .panic ∨ last = .exit 1)

/-- A run that starts one, right after its approval: it ends as the supervisor says. -/
def Starts (w : World (List Bytes)) (txnId : Str) (cmd : ValidatedCommand (List Bytes))
    (actions : List (Action (List Bytes))) : Prop :=
  ∃ front ev rest, actions = front ++ .event ev :: .supervise cmd :: rest ∧ (∀ a ∈ front, a.quiet = true) ∧
    ev.eventId = .commandApproved ∧ ev.txnId = txnId ∧
      ((∃ code, w.supervisor cmd = .ok code ∧ rest = [.exit code]) ∨
        (∃ e, w.supervisor cmd = .error e) ∧ Refuses rest)

theorem Refuses.cons {a : Action (List Bytes)} {actions : List (Action (List Bytes))} (ha : a.quiet = true)
    (h : Refuses actions) : Refuses (a :: actions) := by
  obtain ⟨front, last, rfl, hquiet, hlast⟩ := h
  exact ⟨a :: front, last, rfl, List.forall_mem_cons.mpr ⟨ha, hquiet⟩, hlast⟩

theorem Starts.cons {cmd : ValidatedCommand (List Bytes)} {a : Action (List Bytes)}
    {actions : List (Action (List Bytes))} (ha : a.quiet = true) (h : Starts w txnId cmd actions) :
    Starts w txnId cmd (a :: actions) := by
  obtain ⟨front, ev, rest, rfl, hquiet, h⟩ := h
  exact ⟨a :: front, ev, rest, rfl, List.forall_mem_cons.mpr ⟨ha, hquiet⟩, h⟩

theorem refuses_panic : Refuses [.panic] := ⟨[], _, rfl, by simp, .inl rfl⟩

theorem refuses_fail : ∀ {texts : List Str}, Refuses (fail w texts)
  | [] => ⟨[], _, rfl, by simp, .inr rfl⟩
  | text :: texts => by
    have hfail : fail w (text :: texts) = eprintln w text (fail w texts) := rfl
    rw [hfail, eprintln]
    split
    · exact refuses_panic
    · exact refuses_fail.cons rfl

theorem refuses_denied {toolName : Str} {rawArgs : List Str} {denial : ValidationDenial} :
    Refuses (denied w txnId policy toolName rawArgs denial) := by
  unfold denied
  split
  · exact refuses_panic
  · exact refuses_fail.cons rfl

/-- The branch of an accepted command: a program is started, or a link of the chain is missing. -/
theorem accepted_cases {toolName : Str} {rawArgs : List Str} {result : ValidationResult (List Bytes)} :
    (verifySudoCommandBindingInternal w.os toolName result.command.binary w.process.envVar = .ok () ∧
      (∃ hash, w.hash result.command.binary.fd = .ok hash) ∧ redactArgs rawArgs policy toolName ≠ none ∧
        Starts w txnId result.command (accepted w txnId policy toolName rawArgs result)) ∨
    Refuses (accepted w txnId policy toolName rawArgs result) ∧
      ¬(verifySudoCommandBindingInternal w.os toolName result.command.binary w.process.envVar = .ok () ∧
        (∃ hash, w.hash result.command.binary.fd = .ok hash) ∧ redactArgs rawArgs policy toolName ≠ none) := by
  unfold accepted
  extract_lets cmd
  cases hbind : verifySudoCommandBindingInternal w.os toolName cmd.binary w.process.envVar with
  | error e => exact .inr ⟨refuses_fail.cons rfl, fun h => nomatch h.1⟩
  | ok =>
    cases hhash : w.hash cmd.binary.fd with
    | error e => exact .inr ⟨refuses_fail, fun h => nomatch h.2.1⟩
    | ok hash =>
      cases redactArgs rawArgs policy toolName with
      | none => exact .inr ⟨refuses_panic, fun h => h.2.2 rfl⟩
      | some redacted =>
        refine .inl ⟨rfl, ⟨hash, rfl⟩, nofun, [], _, _, rfl, by simp, rfl, rfl, ?_⟩
        cases w.supervisor cmd with
        | ok code => exact .inl ⟨code, rfl, rfl⟩
        | error e => exact .inr ⟨⟨e, rfl⟩, refuses_fail.cons rfl⟩

theorem delegates_iff {toolName : Str} {rawArgs : List Str} (hinv : Invokes w.process toolName rawArgs)
    {cmd : ValidatedCommand (List Bytes)} : Delegates w policy cmd ↔
      (policy.globalSettings.logDestination = "syslog".toList → ∀ e, w.syslog = some e →
        w.stderrFails (syslogUnavailableMsg e) = false) ∧
      ∃ result, validateCommand w.check w.regexNew policy toolName rawArgs = .ok result ∧ result.command = cmd ∧
        verifySudoCommandBindingInternal w.os toolName result.command.binary w.process.envVar = .ok () ∧
          (∃ hash, w.hash result.command.binary.fd = .ok hash) ∧ redactArgs rawArgs policy toolName ≠ none := by
  constructor
  · intro ⟨hsyslog, toolName', rawArgs', result, hinv', hval, hcmd, hrest⟩
    obtain ⟨rfl, rfl⟩ := hinv.unique hinv'
    exact ⟨hsyslog, result, hval, hcmd, hcmd ▸ hrest⟩
  · intro ⟨hsyslog, result, hval, hcmd, hrest⟩
    exact ⟨hsyslog, toolName, rawArgs, result, hinv, hval, hcmd, hcmd ▸ hrest⟩

/-- Nothing is lost by the logging but what follows a panic. -/
theorem initLogging_cases {settings : GlobalSettings} {next : List (Action (List Bytes))} :
    ((settings.logDestination = "syslog".toList → ∀ e, w.syslog = some e →
        w.stderrFails (syslogUnavailableMsg e) = false) ∧
      ∃ front, initLogging w settings next = front ++ next ∧ ∀ a ∈ front, a.quiet = true) ∨
    initLogging w settings next = [.panic] ∧ ¬(settings.logDestination = "syslog".toList → ∀ e, w.syslog = some e →
      w.stderrFails (syslogUnavailableMsg e) = false) := by
  unfold initLogging
  by_cases hdest : settings.logDestination = "syslog".toList
  · rw [if_pos hdest]
    cases w.syslog with
    | none => exact .inl ⟨fun _ _ => nofun, [], rfl, by simp⟩
    | some e =>
      dsimp only [eprintln]
      cases hfails : w.stderrFails (syslogUnavailableMsg e) with
      | false =>
        refine .inl ⟨fun _ e' he => ?_, [.stderr (syslogUnavailableMsg e)], rfl, by simp [Action.quiet]⟩
        cases he
        exact hfails
      | true =>
        refine .inr ⟨rfl, fun h => ?_⟩
        rw [h hdest e rfl] at hfails
        cases hfails
  · rw [if_neg hdest]
    exact .inl ⟨fun h => absurd h hdest, [], rfl, by simp⟩

theorem Refuses.append : ∀ {front actions : List (Action (List Bytes))}, (∀ a ∈ front, a.quiet = true) →
    Refuses actions → Refuses (front ++ actions)
  | [], _, _, h => h
  | _ :: _, _, hquiet, h =>
    (Refuses.append (List.forall_mem_cons.mp hquiet).2 h).cons (List.forall_mem_cons.mp hquiet).1

theorem Starts.append {cmd : ValidatedCommand (List Bytes)} : ∀ {front actions : List (Action (List Bytes))},
    (∀ a ∈ front, a.quiet = true) → Starts w txnId cmd actions → Starts w txnId cmd (front ++ actions)
  | [], _, _, h => h
  | _ :: _, _, hquiet, h =>
    (Starts.append (List.forall_mem_cons.mp hquiet).2 h).cons (List.forall_mem_cons.mp hquiet).1

/-- The run from the loaded policy on. -/
theorem main_cases : (∃ cmd, Delegates w policy cmd ∧ Starts w txnId cmd (main w txnId policy)) ∨
    Refuses (main w txnId policy) ∧ ∀ cmd, ¬Delegates w policy cmd := by
  unfold main
  obtain ⟨hsyslog, front, hinit, hquiet⟩ | ⟨hinit, hsyslog⟩ := @initLogging_cases w policy.globalSettings _
  · rw [hinit, parseInvocationCurrentProcess_eq]
    cases hargs : w.process.args with
    | none =>
      refine .inr ⟨refuses_panic.append hquiet, fun cmd ⟨_, _, _, _, ⟨args, hsome, _⟩, _⟩ => ?_⟩
      cases hargs.symm.trans hsome
    | some args =>
      rw [Option.map_some]
      cases hparse : parseInvocationInternal args w.process.envVar with
      | error e =>
        refine .inr ⟨(refuses_fail.cons rfl).append hquiet, fun cmd ⟨_, _, _, _, ⟨args', hsome, hok⟩, _⟩ => ?_⟩
        cases hargs.symm.trans hsome
        cases hparse.symm.trans hok
      | ok inv =>
        obtain ⟨toolName, rawArgs⟩ := inv
        have hinv : Invokes w.process toolName rawArgs := ⟨args, hargs, hparse⟩
        simp only [delegates_iff hinv]
        cases hval : validateCommand w.check w.regexNew policy toolName rawArgs with
        | error denial => exact .inr ⟨refuses_denied.append hquiet, fun cmd ⟨_, _, hok, _⟩ => nomatch hok⟩
        | ok result =>
          obtain ⟨hbind, hhash, hredact, hstarts⟩ | ⟨hrefuses, hnot⟩ := @accepted_cases w txnId policy toolName rawArgs result
          · exact .inl ⟨result.command, ⟨hsyslog, result, rfl, rfl, hbind, hhash, hredact⟩, hstarts.append hquiet⟩
          · refine .inr ⟨hrefuses.append hquiet, fun cmd ⟨_, result', hok, _, hrest⟩ => ?_⟩
            cases hok
            exact hnot hrest
  · rw [hinit]
    exact .inr ⟨refuses_panic, fun cmd h => hsyslog h.syslog⟩

/-- **What a run of the wrapper does.** It starts a program exactly if the chain
is whole: the kernel is new enough, the policy is a text that was signed and is
well formed, the command is what it makes of the invocation, the binary is the
one sudo was asked for, if it was asked, and can be hashed. The program starts right after the
approval is recorded, under an id of its own four octets, and the run ends with
the program's code. Otherwise it ends with the code 1 or a panic. -/
theorem run_authorized {s : Start} {actions : List (Action (List Bytes))} (h : s.run = some actions) :
    (∃ txnId policy cmd, Authorized s txnId policy cmd ∧ Starts s.world txnId cmd actions) ∨
    Refuses actions ∧ ∀ txnId policy cmd, ¬Authorized s txnId policy cmd := by
  unfold Start.run at h
  cases hkernel : s.kernel.ensureMinimumKernelVersion with
  | error e =>
    simp only [hkernel] at h
    cases h
    exact .inr ⟨refuses_fail, fun _ _ _ ha => nomatch hkernel.symm.trans ha.kernel⟩
  | ok =>
    simp only [hkernel] at h
    cases htxn : generateTxnId s.random with
    | none =>
      simp only [htxn] at h
      cases h
    | some r =>
      cases r with
      | error e =>
        simp only [htxn] at h
        cases h
        refine .inr ⟨refuses_fail, fun _ _ _ ha => ?_⟩
        cases htxn.symm.trans ha.txn
      | ok txnId =>
        simp only [htxn] at h
        cases hload : s.loadPolicy s.policyPath with
        | error e =>
          simp only [hload] at h
          cases h
          refine .inr ⟨refuses_fail, fun _ policy _ ha => ?_⟩
          cases hload.symm.trans (loadPolicyWithPubkey_iff.mpr ha.signed)
        | ok policy =>
          simp only [hload] at h
          cases h
          have hsigned := loadPolicyWithPubkey_iff.mp hload
          obtain ⟨cmd, hdelegates, hstarts⟩ | ⟨hrefuses, hnone⟩ := @main_cases s.world txnId policy
          · exact .inl ⟨txnId, policy, cmd, ⟨hkernel, htxn, hsigned, hdelegates⟩, hstarts⟩
          · refine .inr ⟨hrefuses, fun _ policy' cmd ha => ?_⟩
            cases hload.symm.trans (loadPolicyWithPubkey_iff.mpr ha.signed)
            exact hnone cmd ha.delegates

/-! ## The code of the run -/

/-- Each code of the supervisor is that of a run of `ExitStatus.lean`, with this command. -/
def World.Supervises (w : World (List Bytes)) : Prop := ∀ cmd code, w.supervisor cmd = .ok code →
  ∃ (su : Startup (List Bytes)) (sup : Supervisor) (es : List DelegatingEvent) (c : Delegating), su.cmd = cmd ∧
    Runs.Run (Delegating.next su sup) (fun c e => c.undisturbed e = true) .start es c ∧ c.phase = .done (.ok code)

/-- Where the supervisor returns a code, the run ends with that of the process that
was to be the program. -/
theorem Starts.code {cmd : ValidatedCommand (List Bytes)} {actions : List (Action (List Bytes))} (hsup : w.Supervises)
    (h : Starts w txnId cmd actions) :
    (∃ (su : Startup (List Bytes)) (sup : Supervisor) (es : List DelegatingEvent) (c : Delegating) (status : WaitStatus),
      su.cmd = cmd ∧ Runs.Run (Delegating.next su sup) (fun c e => c.undisturbed e = true) .start es c ∧
        c.inner = .dead status ∧ ∃ front, actions = front ++ [.supervise cmd, .exit (status.exitCode % 256)]) ∨
    ∃ e, w.supervisor cmd = .error e := by
  obtain ⟨front, ev, rest, rfl, -, -, -, ⟨code, hcode, rfl⟩ | ⟨herror, -⟩⟩ := h
  · obtain ⟨su, sup, es, c, hcmd, hrun, hdone⟩ := hsup cmd code hcode
    obtain ⟨-, status, hinner, rfl⟩ := Delegating.done_code hrun hdone
    exact .inl ⟨su, sup, es, c, status, hcmd, hrun, hinner, front ++ [.event ev], by simp⟩
  · exact .inr herror

/-! ## `apt`, called by root -/

/-- A call that gives these octets, as far as they are asked for. -/
def GetRandom.octets (bytes : Bytes) : GetRandom := fun len =>
  .ok ⟨bytes.take len, by rw [List.length_take]; exact Nat.min_le_left ..⟩

def GetRandom.interrupted : GetRandom := fun _ => .error EINTR

theorem aptArgv_noNul : ∀ a ∈ [Utf8.encode "/usr/local/bin/apt"], 0 ∉ a := by
  decide

/-- A debug build that reads the policy of `policyStorage`; `apt` ends with the code 7. -/
def aptStart : Start where
  debugAssertions := true
  uname := .ok (Utf8.encode "6.8.0-52-generic" ++ [0, 0])
  utf8Error _ := []
  random := [.octets [0xa3, 0xf7], .interrupted, .octets [0xc2, 0x91, 0xff]]
  host := policyHost none
  storage := (signPolicy none).2
  world :=
    { process :=
        { argv := [Utf8.encode "/usr/local/bin/apt"]
          env := fun v =>
            if v = "SECURE_SUDOERS_POLICY_PATH".toList then some (Utf8.encode "/p.json")
            else if v = "SECURE_SUDOERS_PUBKEY_PATH".toList then some (Utf8.encode "/pub.pem")
            else none
          cmdlineError := none
          argv_noNul := aptArgv_noNul }
      accounts := { uid := 0, euid := 0, userName := .ok (some "root"), passwd := .ok [] }
      syslog := none
      stderrFails := fun _ => false
      clock := fun _ => "2026-01-01T00:00:00Z"
      check := fun arg _ _ => .ok ⟨arg, []⟩
      regexNew := defaultRegexNew
      os := { openPath := fun _ => .error .ENOENT, fstat := fun _ => .ok {} }
      hash := fun _ => .ok []
      supervisor := fun _ => .ok 7 }

theorem run_authorized_apt : ∃ actions cmd, aptStart.run = some actions ∧ Starts aptStart.world "a3f7c291" cmd actions := by
  have hlast : aptStart.run.bind List.getLast? = some (.exit 7) := by decide +kernel
  have htxn : generateTxnId aptStart.random = some (.ok "a3f7c291") := by decide +kernel
  cases hrun : aptStart.run with
  | none => simp [hrun] at hlast
  | some actions =>
    obtain ⟨txnId, policy, cmd, hauthorized, hstarts⟩ | ⟨⟨front, last, rfl, -, hend⟩, -⟩ := run_authorized hrun
    · cases htxn.symm.trans hauthorized.txn
      exact ⟨actions, cmd, rfl, hstarts⟩
    · rw [hrun, Option.bind_some, List.getLast?_concat] at hlast
      cases hlast
      simp at hend

end SecureSudoers
