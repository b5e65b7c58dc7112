/-
From the fork to the delegated program (`run_supervisor`, `execute_securely`).

Three processes take part: the supervisor, the wrapper it forks, and the inner
process that the wrapper forks and that becomes the delegated program. Each step
before `fexecve` that fails leaves a mark in a pipe before its process exits,
and the supervisor reads the pipe once the wrapper is gone. A panic leaves no
mark: `std::env::vars` panics on a variable that is no text, whether the policy
lets it through or not, and the supervisor takes the panic's exit code for the
program's.
-/
import SecureSudoers.Supervisor
import SecureSudoers.Invocation
import SecureSudoers.Validator

namespace SecureSudoers

open Runs

variable {D : Type}

/-! ## The steps of the child side -/

/-- What `execute_securely` is given, and the environment of the process. -/
structure Startup (D : Type) where
  cmd : ValidatedCommand D
  vars : List (List UInt8 × List UInt8)

/-- The pairs of `std::env::vars`, which panics at one that is no text. -/
def envVars : List (List UInt8 × List UInt8) → Option (List (Str × Str))
  | [] => some []
  | (key, value) :: vars => do
    let key ← Utf8.decode? key
    let value ← Utf8.decode? value
    let vars ← envVars vars
    some ((key, value) :: vars)

/-- `build_scrubbed_env`. -/
def buildScrubbedEnv (whitelist : List Str) (vars : List (List UInt8 × List UInt8)) : Option (List (Str × Str)) :=
  (envVars vars).map fun vars => vars.filter fun var => var.1 ∈ whitelist

/-- `CString::new` succeeds. -/
def isCString (s : Str) : Bool := Char.ofNat 0 ∉ s

namespace Startup

variable (su : Startup D)

def argv : List Str := basename su.cmd.binary.path :: su.cmd.args.map ValidatedArg.asStr

def scrubbedEnv : Option (List (Str × Str)) := buildScrubbedEnv su.cmd.envWhitelist su.vars

def envp : List Str := (su.scrubbedEnv.getD []).map fun var => var.1 ++ '=' :: var.2

end Startup

/-- The steps between the fork and the delegated program. -/
inductive ChildStep where
  | setParentDeathSignal
  | parentUnchanged
  | setOwnProcessGroup
  | restoreSignalMask
  | duplicateBinary
  | scrubEnv
  | setupIsolation
  | pinValidatedPathArguments
  | dropCapabilities
  | argv
  | envp
  | fork
  | setExecParentDeathSignal
  | resetExecSignalDefaults
  | fexecve
  deriving DecidableEq, Repr

namespace ChildStep

/-- The steps of the wrapper, up to its own fork. -/
def wrapper : List ChildStep :=
  [.setParentDeathSignal, .parentUnchanged, .setOwnProcessGroup, .restoreSignalMask, .duplicateBinary, .scrubEnv,
    .setupIsolation, .pinValidatedPathArguments, .dropCapabilities, .argv, .envp, .fork]

/-- The steps of the inner process. -/
def inner : List ChildStep := [.setExecParentDeathSignal, .resetExecSignalDefaults, .fexecve]

/-- The mark a failure leaves. -/
def stage : ChildStep → Str
  | .setParentDeathSignal | .parentUnchanged => "set_parent_death_signal"
  | .setOwnProcessGroup => "set_own_process_group"
  | .restoreSignalMask => "restore_signal_mask"
  | _ => "execute_securely"

end ChildStep

inductive StepOutcome where
  | ok
  | failed
  | panicked
  deriving DecidableEq, Repr

/-- Can the step end so? Three are decided by the command and the environment, the others by the system. -/
def Startup.can (su : Startup D) : ChildStep → StepOutcome → Bool
  | .scrubEnv, o => o = if su.scrubbedEnv.isSome then .ok else .panicked
  | .argv, o => o = if su.argv.all isCString then .ok else .failed
  | .envp, o => o = if su.envp.all isCString then .ok else .failed
  | _, _ => true

/-! ## The processes -/

/-- Where a process of the child side is. -/
inductive ChildPlace where
  /-- Not forked yet. -/
  | absent
  /-- About to take the first of the steps. -/
  | steps (next : ChildStep) (rest : List ChildStep)
  /-- A step has failed; the mark is not written yet. -/
  | marking (stage : Str)
  | exiting (code : Int)
  /-- The wrapper's `waitpid` loop. -/
  | waiting
  /-- The delegated program. -/
  | delegated
  | dead (status : WaitStatus)
  deriving DecidableEq, Repr

namespace ChildPlace

def isMarking : ChildPlace → Bool
  | .marking _ => true
  | _ => false

def isDead : ChildPlace → Bool
  | .dead _ => true
  | _ => false

/-- No step of the child side is left to it. -/
def isSettled : ChildPlace → Bool
  | .absent | .delegated | .dead _ => true
  | _ => false

end ChildPlace

inductive ChildRole where
  | wrapper
  | inner
  deriving DecidableEq, Repr

/-- Where `run_supervisor` is in the supervisor. -/
inductive SupervisorPhase where
  /-- Between the fork and the loop. -/
  | setup
  | loop (s : Supervision)
  | done (r : Except Error Int)

structure Delegating where
  phase : SupervisorPhase := .setup
  wrapper : ChildPlace
  inner : ChildPlace := .absent
  /-- What is in the error pipe. -/
  pipe : Str := []
  /-- A step has failed or panicked. -/
  failed : Bool := false

inductive DelegatingEvent where
  /-- A process takes its next step. -/
  | step (who : ChildRole) (o : StepOutcome)
  | mark (who : ChildRole)
  | exit (who : ChildRole)
  /-- A signal ends a process. -/
  | kill (who : ChildRole) (sig : Signal)
  /-- The wrapper's `waitpid` returns; where it reports a stop, whether that is passed on. -/
  | wait (r : Except Errno WaitStatus) (propagated : Except Error Unit)
  /-- The delegated program ends. -/
  | ends (status : WaitStatus)
  /-- The set-up of the supervisor, its signal mask, and the cleanup if one of them failed. -/
  | setup (setup restore cleanup : Except Error Unit)
  | supervisor (e : SupervisorEvent)
  /-- The error pipe is read. -/
  | read (fails : Option Errno)

/-- The events of the child side; the others are the supervisor's. -/
def DelegatingEvent.isChild : DelegatingEvent → Bool
  | .setup .. | .supervisor _ | .read _ => false
  | _ => true

def EAGAIN : Errno := .other 11

/-- The process has ended. -/
def WaitStatus.final : WaitStatus → Bool
  | .exited _ | .signaled _ => true
  | _ => false

/-- `read_child_error_stage`, where the read succeeds. -/
def readChildErrorStage (pipe : Str) : Option Str :=
  if pipe = [] then none
  else if Str.startsWith pipe "set_own_process_group" then some "set_own_process_group"
  else if Str.startsWith pipe "set_parent_death_signal" then some "set_parent_death_signal"
  else if Str.startsWith pipe "restore_signal_mask" then some "restore_signal_mask"
  else if Str.startsWith pipe "execute_securely" then some "execute_securely"
  else some "unknown_post_fork_stage"

/-- The error of a set-up that fails, after `return_with_setup_child_cleanup`. -/
def setupError (setup restore cleanup : Except Error Unit) : Option Error :=
  let err : Option Error :=
    match setup, restore with
    | .ok (), .ok () => none
    | .ok (), .error e | .error e, .ok () => some e
    | .error e, .error maskErr =>
      some (.execution (e.display ++ "; restore signal mask failed: " ++ maskErr.display))
  err.map fun err =>
    match cleanup with
    | .ok () => err
    | .error cleanupErr => .execution (err.display ++ "; setup child cleanup failed: " ++ cleanupErr.display)

/-- What `run_supervisor` returns, given what the loop has returned and what is in the pipe. -/
def supervisorResult (r : Except Error Int) (pipe : Str) : Except Error Int :=
  match readChildErrorStage pipe with
  | none => r
  | some stage =>
    let detail : Str :=
      match r with
      | .ok code => "exit code " ++ intDigits code
      | .error e => "supervisor error: " ++ e.display
    .error (.execution ("supervisor child failed before delegation at stage '" ++ stage ++ "' (" ++ detail ++ ")"))

namespace Delegating

def start : Delegating := { wrapper := .steps .setParentDeathSignal ChildStep.wrapper.tail }

def place (c : Delegating) : ChildRole → ChildPlace
  | .wrapper => c.wrapper
  | .inner => c.inner

def goto (c : Delegating) (who : ChildRole) (p : ChildPlace) : Delegating :=
  match who with
  | .wrapper => { c with wrapper := p }
  | .inner => { c with inner := p }

/-- The last step of the wrapper is its fork, and that of the inner process `fexecve`. -/
def advance (c : Delegating) (who : ChildRole) : List ChildStep → Delegating
  | next :: rest => c.goto who (.steps next rest)
  | [] =>
    match who with
    | .wrapper => { c with wrapper := .waiting, inner := .steps .setExecParentDeathSignal ChildStep.inner.tail }
    | .inner => { c with inner := .delegated }

/-- The wrapper's match on what `waitpid` returned. -/
def afterWrapperWait (propagated : Except Error Unit) : Except Errno WaitStatus → ChildPlace
  | .ok (.exited code) => .exiting code
  | .ok (.signaled sig) => .exiting (128 + sig.number)
  | .ok (.stopped sig) =>
    if isJobControlStopSignal sig && propagated.toOption.isSome then .waiting else .marking "execute_securely"
  | .ok .continued => .waiting
  | .error e => if e = EINTR then .waiting else .marking "execute_securely"
  | .ok (.other _) => .marking "execute_securely"

/-- A process is reported dead when it is, and otherwise as it was when it died. -/
def reports (p : ChildPlace) (status : WaitStatus) : Bool :=
  match p with
  | .dead s => status = s
  | _ => !status.final

/-- What the system lets happen to the supervisor. The descendants are gone when
none of the child side is left before its last step. -/
def lets (c : Delegating) : SupervisorEvent → Bool
  | .child status => reports c.wrapper status
  | .descendants (.ok ()) => c.inner.isSettled
  | _ => true

/-- One step, if the event can happen. -/
def next (su : Startup D) (sup : Supervisor) (c : Delegating) : DelegatingEvent → Option Delegating
  | .step who o =>
    match c.place who with
    | .steps s rest =>
      if su.can s o then
        match o with
        | .ok => some (c.advance who rest)
        | .failed => some ({ c with failed := true }.goto who (.marking s.stage))
        | .panicked => some ({ c with failed := true }.goto who (.exiting 101))
      else none
    | _ => none
  | .mark who =>
    match c.place who with
    | .marking stage => some ({ c with pipe := c.pipe ++ stage }.goto who (.exiting 1))
    | _ => none
  | .exit who =>
    match c.place who with
    | .exiting code => some (c.goto who (.dead (.exited (code % 256))))
    | _ => none
  | .kill who sig =>
    match c.place who with
    | .absent | .dead _ => none
    | _ => some (c.goto who (.dead (.signaled sig)))
  | .wait r propagated =>
    if c.wrapper = .waiting ∧ r.toOption.all (reports c.inner) = true then
      some { c with wrapper := afterWrapperWait propagated r }
    else none
  | .ends status =>
    if c.inner = .delegated ∧ status.final = true then some { c with inner := .dead status } else none
  | .setup setup restore cleanup =>
    match c.phase with
    | .setup =>
      match setupError setup restore cleanup with
      | some e => some { c with phase := .done (.error e) }
      | none => some { c with phase := .loop { place := .swap } }
    | _ => none
  | .supervisor e =>
    match c.phase with
    | .loop s => if c.lets e then (sup.step s e).map fun s => { c with phase := .loop s } else none
    | _ => none
  | .read fails =>
    match c.phase with
    | .loop { place := .returned r, .. } =>
      match fails with
      | none => some { c with phase := .done (supervisorResult r c.pipe) }
      | some e =>
        if e = EINTR ∨ e = EAGAIN then none
        else some { c with phase := .done (.error (.ioContext "read supervisor child error channel failed" e)) }
    | _ => none

/-- No step panics, and no process is killed between its failure and its mark. -/
def marked (c : Delegating) : DelegatingEvent → Bool
  | .step _ o => o ≠ .panicked
  | .kill who _ => !(c.place who).isMarking
  | _ => true

end Delegating

/-! ## What the supervisor has heard -/

/-- The supervisor has been told that the wrapper is dead. -/
def Supervision.HeardDeath (s : Supervision) : Prop :=
  (∃ status, s.status = some status ∧ status.final = true) ∨
    (∃ status, s.place = .waited (.ok status) ∧ status.final = true) ∨ ∃ n, s.place = .terminate (.code n)

theorem afterWait_code {r : Except Errno WaitStatus} {n : Int} (h : afterWait r = .terminate (.code n)) :
    ∃ status, r = .ok status ∧ status.final = true := by
  unfold afterWait at h
  split at h
  · exact ⟨_, rfl, rfl⟩
  · exact ⟨_, rfl, rfl⟩
  · split at h <;> cases h
  · cases h
  · split at h <;> cases h
  · cases h

variable {sup : Supervisor} {s t : Supervision}

namespace Supervision

/-- What is heard is in the status and the place. -/
theorem HeardDeath.of_same (h : t.HeardDeath) (hstatus : t.status = s.status) (hplace : t.place = s.place) :
    s.HeardDeath := by
  unfold HeardDeath at h ⊢
  rwa [hstatus, hplace] at h

/-- At another place only the status tells of a death. -/
theorem HeardDeath.of_status (h : t.HeardDeath) (hstatus : t.status = s.status)
    (hwaited : ∀ status, t.place = .waited (.ok status) → s.status = some status)
    (hcode : ∀ n, t.place ≠ .terminate (.code n)) : s.HeardDeath := by
  obtain ⟨status, hs, hfinal⟩ | ⟨status, hp, hfinal⟩ | ⟨n, hp⟩ := h
  · exact .inl ⟨status, by rw [← hstatus, hs], hfinal⟩
  · exact .inl ⟨status, hwaited status hp, hfinal⟩
  · exact absurd hp (hcode n)

@[simp] theorem goto_status {place : SupervisorPlace} : (s.goto place).status = s.status := rfl

@[simp] theorem handler_status {sig : Signal} : (s.handler sig).status = s.status := by
  cases sig <;> rfl

@[simp] theorem foldl_handler_status : ∀ {sigs : List Signal} {s : Supervision},
    (sigs.foldl handler s).status = s.status
  | [], _ => rfl
  | _ :: sigs, _ => (@foldl_handler_status sigs _).trans handler_status

end Supervision

/-- **The supervisor hears of a death from the wrapper alone.** -/
theorem heardDeath_step {e : SupervisorEvent} (h : sup.step s e = some t) (ht : t.HeardDeath) :
    s.HeardDeath ∨ ∃ status, e = .child status ∧ status.final = true := by
  cases e with
  | swap =>
    cases hp : s.place <;> simp only [Supervisor.step, hp, reduceCtorEq] at h
    split at h <;> cases h <;> exact .inl (ht.of_status rfl (by simp) (by simp))
  | sigwinch =>
    cases hp : s.place <;> simp only [Supervisor.step, hp, reduceCtorEq] at h
    cases h
    refine .inl (ht.of_status rfl ?_ ?_) <;> intro _ <;> dsimp only [Supervision.goto] <;> split <;> simp
  | resize =>
    cases hp : s.place <;> simp only [Supervisor.step, hp, reduceCtorEq] at h
    cases h
    exact .inl (ht.of_status rfl (by simp) (by simp))
  | waitpid fails =>
    cases hp : s.place <;> cases fails <;> simp only [Supervisor.step, hp, reduceCtorEq] at h
    · split at h
      · next status hstatus =>
        cases h
        obtain ⟨_, hs, -⟩ | ⟨status', hw, hfinal⟩ | ⟨n, hc⟩ := ht
        · cases hs
        · cases hw
          exact .inl (.inl ⟨status, hstatus, hfinal⟩)
        · cases hc
      · cases h
        exact .inl (ht.of_status rfl (by simp) (by simp))
    · split at h <;> cases h
      exact .inl (ht.of_status rfl (by simp) (by simp))
  | examine =>
    cases hp : s.place <;> simp only [Supervisor.step, hp, reduceCtorEq] at h
    next r =>
    cases h
    refine .inl ?_
    obtain ⟨status, hs, hfinal⟩ | ⟨status, hw, -⟩ | ⟨n, hc⟩ := ht
    · exact .inl ⟨status, hs, hfinal⟩
    · obtain hr | ⟨_, hr⟩ | ⟨_, hr⟩ := afterWait_cases r <;> simp [hr] at hw
    · obtain ⟨status, rfl, hfinal⟩ := afterWait_code hc
      exact .inr (.inl ⟨status, hp, hfinal⟩)
  | raise r =>
    rcases r with e | _ | _ <;> cases hp : s.place <;> simp only [Supervisor.step, hp, reduceCtorEq] at h
    · cases h
      exact .inl (ht.of_status rfl (by simp) (by simp))
    · split at h <;> cases h
      exact .inl (ht.of_status rfl (by simp) (by simp))
    · cases h
      exact .inl (ht.of_status rfl (by simp) (by simp))
  | resume =>
    cases hp : s.place <;> simp only [Supervisor.step, hp, reduceCtorEq] at h
    cases h
    exact .inl (ht.of_status (by simp) (by simp) (by simp))
  | restore r =>
    rcases r with e | _ <;> cases hp : s.place <;> simp only [Supervisor.step, hp, reduceCtorEq] at h
    · split at h <;> cases h
      exact .inl (ht.of_status rfl (by simp) (by simp))
    · cases h
      exact .inl (ht.of_status rfl (by simp) (by simp))
  | sigcont r =>
    rcases r with e | _ <;> cases hp : s.place <;> simp only [Supervisor.step, hp, reduceCtorEq] at h
    · cases h
      exact .inl (ht.of_status rfl (by simp) (by simp))
    · cases h
      exact .inl (ht.of_status rfl (by simp) (by simp))
  | descendants r =>
    cases hp : s.place <;> simp only [Supervisor.step, hp, reduceCtorEq] at h
    cases h
    exact .inl (ht.of_status rfl (by simp) (by simp))
  | signal sig =>
    simp only [Supervisor.step] at h
    split at h
    · split at h <;> cases h
      · exact .inl (ht.of_same rfl rfl)
      · exact .inl (ht.of_status (by simp) (by simp) (by simp))
      · exact .inl (ht.of_same (by simp) (by simp))
    · cases h
  | child status =>
    by_cases hfinal : status.final = true
    · exact .inr ⟨status, rfl, hfinal⟩
    · refine .inl ?_
      by_cases hp : s.place = .blocked
      · simp only [Supervisor.step, hp, Option.some.injEq] at h
        subst h
        obtain ⟨status', hs, hfinal'⟩ | ⟨status', hw, hfinal'⟩ | ⟨n, hc⟩ := ht
        · exact .inl ⟨status', hs, hfinal'⟩
        · cases hw
          exact absurd hfinal' hfinal
        · cases hc
      · have hnoted : sup.step s (.child status) = some { s with status := some status } := by
          cases hp' : s.place <;> first | exact absurd hp' hp | simp only [Supervisor.step, hp']
        rw [hnoted, Option.some.injEq] at h
        subst h
        obtain ⟨status', hs, hfinal'⟩ | hplace := ht
        · cases hs
          exact absurd hfinal' hfinal
        · exact .inr hplace

/-- A code is returned once the descendants are gone. -/
theorem returned_step {e : SupervisorEvent} {n : Int} (h : sup.step s e = some t) (ht : t.place = .returned (.ok n)) :
    s.place = .returned (.ok n) ∨ (∃ n, s.place = .terminate (.code n)) ∧ e = .descendants (.ok ()) := by
  cases step_effect h with
  | taken _ _ hp _ | untaken _ _ hp _ | resume _ hp _ | interrupted _ hp _ | reported _ hp _ =>
    rw [hp] at ht
    cases ht
  | deferred _ hp _ | handled _ hp _ | noted _ hp _ => exact .inl (hp ▸ ht)
  | own hadv hnext _ =>
    rw [ht] at hnext
    generalize hp : s.place = p, hq : SupervisorPlace.returned (.ok n) = q at hnext
    cases hnext with
    | @examine r => obtain hr | ⟨_, hr⟩ | ⟨_, hr⟩ := afterWait_cases r <;> rw [hr] at hq <;> cases hq
    | @descendants ending r =>
      obtain ⟨r', rfl⟩ : ∃ r', e = .descendants r' := by
        cases e <;> simp only [Supervisor.step, hp, reduceCtorEq] at h
        · exact ⟨_, rfl⟩
        · cases hadv
        · cases hadv
      simp only [Supervisor.step, hp, Option.some.injEq] at h
      subst h
      cases ending <;> cases r' <;> cases ht
      exact .inr ⟨⟨_, rfl⟩, rfl⟩
    | _ => cases hq

/-! ## What every run keeps -/

namespace Delegating

variable {su : Startup D} {c d : Delegating} {e : DelegatingEvent}

/-- The wrapper is dead, and no step of the child side is left. -/
def Settled (c : Delegating) : Prop := c.wrapper.isDead = true ∧ c.inner.isSettled = true

structure Inv (c : Delegating) : Prop where
  /-- A failure has left a mark, or is about to. -/
  failed : c.failed = true → c.pipe ≠ [] ∨ ∃ who, (c.place who).isMarking = true
  stages : ∀ who stage, c.place who = .marking stage → stage ≠ []
  forked : ∀ s rest, c.wrapper = .steps s rest → c.inner = .absent
  heard : ∀ s, c.phase = .loop s → s.HeardDeath → c.wrapper.isDead = true
  returned : ∀ s n, c.phase = .loop s → s.place = .returned (.ok n) → c.Settled
  done : ∀ n, c.phase = .done (.ok n) → c.Settled ∧ c.failed = false

theorem stage_ne_nil {s : ChildStep} : s.stage ≠ [] := by
  cases s <;> decide

@[simp] theorem place_goto_same {who : ChildRole} {p : ChildPlace} : (c.goto who p).place who = p := by
  cases who <;> rfl

theorem place_goto_other {who other : ChildRole} {p : ChildPlace} (h : other ≠ who) :
    (c.goto who p).place other = c.place other := by
  cases who <;> cases other <;> first | rfl | exact absurd rfl h

@[simp] theorem goto_phase {who : ChildRole} {p : ChildPlace} : (c.goto who p).phase = c.phase := by
  cases who <;> rfl

@[simp] theorem goto_pipe {who : ChildRole} {p : ChildPlace} : (c.goto who p).pipe = c.pipe := by
  cases who <;> rfl

@[simp] theorem goto_failed {who : ChildRole} {p : ChildPlace} : (c.goto who p).failed = c.failed := by
  cases who <;> rfl

/-- The events of the child side. -/
inductive Moved (su : Startup D) (c d : Delegating) : DelegatingEvent → Prop where
  | stepped {who : ChildRole} {s next : ChildStep} {rest : List ChildStep} : c.place who = .steps s (next :: rest) →
      d = c.goto who (.steps next rest) → Moved su c d (.step who .ok)
  | forked {s : ChildStep} : c.wrapper = .steps s [] →
      d = { c with wrapper := .waiting, inner := .steps .setExecParentDeathSignal ChildStep.inner.tail } →
      Moved su c d (.step .wrapper .ok)
  | delegated {s : ChildStep} : c.inner = .steps s [] → d = c.goto .inner .delegated → Moved su c d (.step .inner .ok)
  | failed {who : ChildRole} {s : ChildStep} {rest : List ChildStep} : c.place who = .steps s rest →
      d = { c with failed := true }.goto who (.marking s.stage) → Moved su c d (.step who .failed)
  | panicked {who : ChildRole} {s : ChildStep} {rest : List ChildStep} : c.place who = .steps s rest →
      su.can s .panicked = true → d = { c with failed := true }.goto who (.exiting 101) → Moved su c d (.step who .panicked)
  | marked {who : ChildRole} {stage : Str} : c.place who = .marking stage →
      d = { c with pipe := c.pipe ++ stage }.goto who (.exiting 1) → Moved su c d (.mark who)
  | exited {who : ChildRole} {code : Int} : c.place who = .exiting code →
      d = c.goto who (.dead (.exited (code % 256))) → Moved su c d (.exit who)
  | killed {who : ChildRole} {sig : Signal} : c.place who ≠ .absent → (c.place who).isDead = false →
      d = c.goto who (.dead (.signaled sig)) → Moved su c d (.kill who sig)
  | waited {r : Except Errno WaitStatus} {propagated : Except Error Unit} : c.wrapper = .waiting →
      d = c.goto .wrapper (afterWrapperWait propagated r) → Moved su c d (.wait r propagated)
  | ended {status : WaitStatus} : c.inner = .delegated → d = c.goto .inner (.dead status) →
      Moved su c d (.ends status)

theorem moved_of_next (he : e.isChild = true) (h : c.next su sup e = some d) : Moved su c d e := by
  cases e with
  | setup | supervisor | read => cases he
  | step who o =>
    simp only [next] at h
    split at h
    · next s rest hplace =>
      split at h
      · next hcan =>
        cases o with
        | ok =>
          cases h
          cases rest with
          | cons next rest => exact .stepped hplace rfl
          | nil =>
            cases who with
            | wrapper => exact .forked hplace rfl
            | inner => exact .delegated hplace rfl
        | failed =>
          cases h
          exact .failed hplace rfl
        | panicked =>
          cases h
          exact .panicked hplace hcan rfl
      · cases h
    · cases h
  | mark who =>
    simp only [next] at h
    split at h
    · next hplace =>
      cases h
      exact .marked hplace rfl
    · cases h
  | exit who =>
    simp only [next] at h
    split at h
    · next hplace =>
      cases h
      exact .exited hplace rfl
    · cases h
  | kill who sig =>
    simp only [next] at h
    split at h
    · cases h
    · cases h
    · next habsent hdead =>
      cases h
      refine .killed habsent ?_ rfl
      cases hp : c.place who with
      | dead status => exact absurd hp (hdead status)
      | _ => rfl
  | wait r propagated =>
    simp only [next] at h
    split at h
    · next hw =>
      cases h
      exact .waited hw.1 rfl
    · cases h
  | ends status =>
    simp only [next] at h
    split at h
    · next hi =>
      cases h
      exact .ended hi.1 rfl
    · cases h

/-- The child side does not move the supervisor. -/
theorem Moved.phase (h : Moved su c d e) : d.phase = c.phase := by
  cases h <;> subst_vars <;> simp

/-- Who moves while the wrapper is dead. -/
theorem inner_of_dead {who : ChildRole} (hdead : c.wrapper.isDead = true) (h : (c.place who).isDead = false) :
    who = .inner := by
  cases who with
  | inner => rfl
  | wrapper => cases hdead.symm.trans h

theorem Moved.isDead (h : Moved su c d e) (hdead : c.wrapper.isDead = true) : d.wrapper.isDead = true := by
  have hgoto : ∀ {who : ChildRole} {p : ChildPlace} {c' : Delegating}, (c.place who).isDead = false →
      c'.wrapper = c.wrapper → (c'.goto who p).wrapper.isDead = true := by
    intro who p c' halive hsame
    obtain rfl := inner_of_dead hdead halive
    exact hsame ▸ hdead
  cases h with
  | stepped hp hd | failed hp hd | panicked hp _ hd | marked hp hd | exited hp hd =>
    rw [hd]
    exact hgoto (by rw [hp]; rfl) rfl
  | killed _ halive hd =>
    rw [hd]
    exact hgoto halive rfl
  | forked hp _ | waited hp _ =>
    rw [hp] at hdead
    cases hdead
  | delegated _ hd | ended _ hd =>
    rw [hd]
    exact hdead

/-- Once no step is left there is none to fail. -/
theorem Moved.settled (h : Moved su c d e) (hc : c.Settled) : d.Settled ∧ d.failed = c.failed := by
  obtain ⟨hdead, hinner⟩ := hc
  have hbusy : ∀ {who : ChildRole}, (c.place who).isSettled = false → False := by
    intro who hwho
    have halive : (c.place who).isDead = false := by
      cases hp : c.place who <;> simp [hp, ChildPlace.isSettled, ChildPlace.isDead] at hwho ⊢
    obtain rfl := inner_of_dead hdead halive
    simp [place, hinner] at hwho
  refine ⟨⟨h.isDead hdead, ?_⟩, ?_⟩
  · cases h with
    | stepped hp _ | failed hp _ | panicked hp _ _ | marked hp _ | exited hp _ =>
      exact (hbusy (by rw [hp]; rfl)).elim
    | forked hp _ | waited hp _ => exact (@hbusy .wrapper (by rw [place, hp]; rfl)).elim
    | killed _ halive hd =>
      obtain rfl := inner_of_dead hdead halive
      rw [hd]
      rfl
    | delegated _ hd | ended _ hd =>
      rw [hd]
      rfl
  · cases h with
    | failed hp _ | panicked hp _ _ => exact (hbusy (by rw [hp]; rfl)).elim
    | forked _ hd | stepped _ hd | delegated _ hd | marked _ hd | exited _ hd | killed _ _ hd | waited _ hd
    | ended _ hd => simp [hd]

theorem Settled.not_marking (h : c.Settled) {who : ChildRole} : ¬(c.place who).isMarking = true := by
  obtain ⟨hdead, hinner⟩ := h
  intro hmark
  cases who with
  | wrapper =>
    replace hmark : c.wrapper.isMarking = true := hmark
    cases hw : c.wrapper <;> simp [hw, ChildPlace.isMarking, ChildPlace.isDead] at hmark hdead
  | inner =>
    replace hmark : c.inner.isMarking = true := hmark
    cases hi : c.inner <;> simp [hi, ChildPlace.isMarking, ChildPlace.isSettled] at hmark hinner

/-- A failure leaves its mark where no process is killed before it does. -/
theorem Moved.failed_kept (h : Moved su c d e) (hok : c.marked e = true) (hinv : c.Inv) (hf : d.failed = true) :
    d.pipe ≠ [] ∨ ∃ who, (d.place who).isMarking = true := by
  have hother : ∀ {who : ChildRole} {p : ChildPlace}, (c.place who).isMarking = false → c.failed = true →
      (c.goto who p).pipe ≠ [] ∨ ∃ who', ((c.goto who p).place who').isMarking = true := by
    intro who p hwho hfailed
    obtain hpipe | ⟨who', hwho'⟩ := hinv.failed hfailed
    · exact .inl (by simpa using hpipe)
    · refine .inr ⟨who', ?_⟩
      have hne : who' ≠ who := by
        rintro rfl
        rw [hwho] at hwho'
        cases hwho'
      rw [place_goto_other hne, hwho']
  cases h with
  | stepped hp hd | exited hp hd =>
    subst hd
    exact hother (by rw [hp]; rfl) (by simpa using hf)
  | delegated hp hd | waited hp hd | ended hp hd =>
    subst hd
    exact hother (by rw [place, hp]; rfl) (by simpa using hf)
  | @forked s hp hd =>
    subst hd
    obtain hpipe | ⟨who, hwho⟩ := hinv.failed hf
    · exact .inl hpipe
    · cases who with
      | wrapper => simp [place, hp, ChildPlace.isMarking] at hwho
      | inner => simp [place, hinv.forked s [] hp, ChildPlace.isMarking] at hwho
  | failed _ hd =>
    subst hd
    exact .inr ⟨_, by rw [place_goto_same]; rfl⟩
  | panicked => simp [Delegating.marked] at hok
  | @marked who stage hp hd =>
    subst hd
    left
    simp [hinv.stages who stage hp]
  | killed _ _ hd =>
    subst hd
    exact hother (by simpa [Delegating.marked] using hok) (by simpa using hf)

theorem Moved.stages (h : Moved su c d e) (hinv : c.Inv) {who : ChildRole} {stage : Str}
    (hmark : d.place who = .marking stage) : stage ≠ [] := by
  have hgoto : ∀ {who' : ChildRole} {p : ChildPlace} {c' : Delegating}, d = c'.goto who' p →
      c'.place = c.place → (∀ stage, p = .marking stage → stage ≠ []) → stage ≠ [] := by
    intro who' p c' hd hsame hp
    subst hd
    by_cases hwho : who = who'
    · subst hwho
      exact hp stage (by rw [← hmark, place_goto_same])
    · rw [place_goto_other hwho, hsame] at hmark
      exact hinv.stages who stage hmark
  cases h with
  | stepped _ hd | delegated _ hd | panicked _ _ hd | marked _ hd | exited _ hd | killed _ _ hd | ended _ hd =>
    exact hgoto hd rfl (by simp)
  | failed _ hd =>
    refine hgoto hd rfl fun stage hs => ?_
    cases hs
    exact stage_ne_nil
  | forked _ hd =>
    subst hd
    cases who <;> cases hmark
  | @waited r propagated _ hd =>
    refine hgoto hd rfl fun stage hs => ?_
    unfold afterWrapperWait at hs
    split at hs
    · cases hs
    · cases hs
    · split at hs <;> cases hs
      decide
    · cases hs
    · split at hs <;> cases hs
      decide
    · cases hs
      decide

/-- Until the wrapper has forked there is no inner process. -/
theorem Moved.forked_once (h : Moved su c d e) (hinv : c.Inv) {s : ChildStep} {rest : List ChildStep}
    (hw : d.wrapper = .steps s rest) : d.inner = .absent := by
  have hgoto : ∀ {who : ChildRole} {p : ChildPlace} {c' : Delegating}, d = c'.goto who p → c'.place = c.place →
      c.place who ≠ .absent → (∀ s rest, p = .steps s rest → ∃ s rest, c.place who = .steps s rest) →
      d.inner = .absent := by
    intro who p c' hd hsame habsent hsteps
    subst hd
    cases who with
    | wrapper =>
      obtain ⟨s', rest', hc⟩ := hsteps s rest hw
      exact (congrFun hsame .inner).trans (hinv.forked s' rest' hc)
    | inner =>
      have hwrapper : c.wrapper = .steps s rest := (congrFun hsame .wrapper).symm.trans hw
      exact absurd (hinv.forked s rest hwrapper) habsent
  cases h with
  | stepped hp hd => exact hgoto hd rfl (by simp [hp]) fun _ _ _ => ⟨_, _, hp⟩
  | failed hp hd | panicked hp _ hd | marked hp hd | exited hp hd => exact hgoto hd rfl (by simp [hp]) (by simp)
  | killed habsent _ hd => exact hgoto hd rfl habsent (by simp)
  | delegated hp hd | ended hp hd => exact hgoto hd rfl (by simp [place, hp]) (by simp)
  | forked _ hd =>
    subst hd
    cases hw
  | @waited r propagated hp hd =>
    refine hgoto hd rfl (by simp [place, hp]) fun s rest hs => ?_
    unfold afterWrapperWait at hs
    split at hs
    · cases hs
    · cases hs
    · split at hs <;> cases hs
    · cases hs
    · split at hs <;> cases hs
    · cases hs

theorem Moved.inv (h : Moved su c d e) (hok : c.marked e = true) (hinv : c.Inv) : d.Inv where
  failed := h.failed_kept hok hinv
  stages _ _ := h.stages hinv
  forked _ _ := h.forked_once hinv
  heard s hs hheard := h.isDead (hinv.heard s (by rw [← h.phase, hs]) hheard)
  returned s n hs hn := (h.settled (hinv.returned s n (by rw [← h.phase, hs]) hn)).1
  done n hn := by
    obtain ⟨hsettled, hfailed⟩ := hinv.done n (by rw [← h.phase, hn])
    obtain ⟨hd, hsame⟩ := h.settled hsettled
    exact ⟨hd, by rw [hsame, hfailed]⟩

/-! ## The supervisor's part -/

theorem inv_error {err : Error} (hinv : c.Inv) : { c with phase := .done (.error err) : Delegating }.Inv := by
  refine ⟨hinv.failed, hinv.stages, hinv.forked, ?_, ?_, ?_⟩
  · intro s hs
    cases hs
  · intro s n hs
    cases hs
  · intro n hn
    cases hn

theorem inv_setup {setup restore cleanup : Except Error Unit} (hinv : c.Inv)
    (h : c.next su sup (.setup setup restore cleanup) = some d) : d.Inv := by
  simp only [next] at h
  split at h
  · split at h <;> cases h
    · exact inv_error hinv
    · refine ⟨hinv.failed, hinv.stages, hinv.forked, ?_, ?_, ?_⟩
      · intro s hs hheard
        cases hs
        simp [Supervision.HeardDeath] at hheard
      · intro s n hs hn
        cases hs
        cases hn
      · intro n hn
        cases hn
  · cases h

theorem inv_supervisor {e : SupervisorEvent} (hinv : c.Inv) (h : c.next su sup (.supervisor e) = some d) : d.Inv := by
  simp only [next] at h
  split at h
  · next s hphase =>
    split at h
    · next hlets =>
      obtain ⟨t, hstep, hd⟩ := Option.map_eq_some_iff.mp h
      subst hd
      refine ⟨hinv.failed, hinv.stages, hinv.forked, ?_, ?_, ?_⟩
      · intro t' ht hheard
        cases ht
        obtain hs | ⟨status, rfl, hfinal⟩ := heardDeath_step hstep hheard
        · exact hinv.heard s hphase hs
        · simp only [lets, reports] at hlets
          show c.wrapper.isDead = true
          cases hw : c.wrapper <;> simp [hw, hfinal] at hlets
          rfl
      · intro t' n ht hn
        cases ht
        obtain hs | ⟨⟨n', hs⟩, rfl⟩ := returned_step hstep hn
        · exact hinv.returned s n hphase hs
        · exact ⟨hinv.heard s hphase (.inr (.inr ⟨n', hs⟩)), hlets⟩
      · intro n hn
        cases hn
    · cases h
  · cases h

theorem readChildErrorStage_none {pipe : Str} : readChildErrorStage pipe = none ↔ pipe = [] := by
  unfold readChildErrorStage
  split
  · simp_all
  · repeat' split
    all_goals simp_all

theorem supervisorResult_ok {r : Except Error Int} {pipe : Str} {n : Int} (h : supervisorResult r pipe = .ok n) :
    pipe = [] ∧ r = .ok n := by
  unfold supervisorResult at h
  split at h
  · next hnone => exact ⟨readChildErrorStage_none.mp hnone, h⟩
  · cases h

theorem inv_read {fails : Option Errno} (hinv : c.Inv) (h : c.next su sup (.read fails) = some d) : d.Inv := by
  simp only [next] at h
  split at h
  · next r _ _ _ _ _ hphase =>
    split at h
    · cases h
      refine ⟨hinv.failed, hinv.stages, hinv.forked, ?_, ?_, ?_⟩
      · intro s hs
        cases hs
      · intro s n hs
        cases hs
      · intro n hn
        obtain ⟨hpipe, hr⟩ := supervisorResult_ok (SupervisorPhase.done.inj hn)
        have hsettled : c.Settled := hinv.returned _ n hphase (by rw [hr])
        refine ⟨hsettled, ?_⟩
        -- nobody is left to write a mark, and none is in the pipe
        by_contra hfailed
        obtain hp | ⟨who, hwho⟩ := hinv.failed (Bool.not_eq_false _ |>.mp hfailed)
        · exact hp hpipe
        · exact hsettled.not_marking hwho
    · split at h
      · cases h
      · cases h
        exact inv_error hinv
  · cases h

theorem inv_next (hinv : c.Inv) (hok : c.marked e = true) (h : c.next su sup e = some d) : d.Inv := by
  cases he : e.isChild with
  | true => exact (moved_of_next he h).inv hok hinv
  | false =>
    cases e with
    | setup => exact inv_setup hinv h
    | supervisor => exact inv_supervisor hinv h
    | read => exact inv_read hinv h
    | _ => cases he

theorem inv_start : start.Inv := by
  refine ⟨?_, ?_, ?_, ?_, ?_, ?_⟩
  · intro h
    cases h
  · intro who stage h
    cases who <;> cases h
  · intro s rest _
    rfl
  · intro s h
    cases h
  · intro s n h
    cases h
  · intro n h
    cases h

end Delegating

theorem envVars_isSome {vars : List (List UInt8 × List UInt8)} : (envVars vars).isSome = true ↔
    ∀ var ∈ vars, (Utf8.decode? var.1).isSome = true ∧ (Utf8.decode? var.2).isSome = true := by
  induction vars with
  | nil => simp [envVars]
  | cons var vars ih =>
    rw [List.forall_mem_cons, ← ih, envVars]
    cases Utf8.decode? var.1 <;> cases Utf8.decode? var.2 <;> cases envVars vars <;> simp

/-- **Scrubbing the environment panics where some variable is no text**, whatever the whitelist is. -/
theorem scrubEnv_panics_iff {su : Startup D} : su.can .scrubEnv .panicked = true ↔
    ∃ var ∈ su.vars, Utf8.decode? var.1 = none ∨ Utf8.decode? var.2 = none := by
  have hsome : su.scrubbedEnv.isSome = (envVars su.vars).isSome := by
    simp [Startup.scrubbedEnv, buildScrubbedEnv]
  unfold Startup.can
  rw [hsome]
  cases he : (envVars su.vars).isSome with
  | true =>
    have := envVars_isSome.mp he
    refine iff_of_false (by simp) ?_
    rintro ⟨var, hvar, h | h⟩
    · exact absurd (this var hvar).1 (by simp [h])
    · exact absurd (this var hvar).2 (by simp [h])
  | false =>
    refine iff_of_true (by simp) ?_
    by_contra hall
    push Not at hall
    have := envVars_isSome.mpr fun var hvar =>
      ⟨Option.isSome_iff_ne_none.mpr (hall var hvar).1, Option.isSome_iff_ne_none.mpr (hall var hvar).2⟩
    rw [he] at this
    cases this

/-- **A failure before the delegated program is reported**: in the runs in which
no step panics, and no process is killed between its failure and its mark, the
supervisor returns no code once a step has failed. -/
theorem failure_reported {su : Startup D} {sup : Supervisor} {es : List DelegatingEvent} {c : Delegating}
    (hrun : Run (Delegating.next su sup) (fun c e => c.marked e = true) .start es c) (hf : c.failed = true) (n : Int) :
    c.phase ≠ .done (.ok n) := by
  have hinv : c.Inv := hrun.invariant Delegating.Inv Delegating.inv_start
    fun _ _ _ hinv hok hnext => Delegating.inv_next hinv hok hnext
  intro hn
  have := (hinv.done n hn).2
  rw [hf] at this
  cases this

/-- A command without arguments, and the variables of its environment. -/
def lsStartup (vars : List (List UInt8 × List UInt8)) : Startup Nat :=
  { cmd := { binary := ⟨"/bin/ls", 2⟩, args := [], isolation := {}, envWhitelist := [] }, vars := vars }

/-- The loop and the read, once the wrapper has ended. -/
def heard (code : Int) : List DelegatingEvent :=
  [.exit .wrapper, .supervisor (.child (.exited code)), .supervisor .swap, .supervisor .sigwinch,
    .supervisor (.waitpid none), .supervisor .examine, .supervisor (.descendants (.ok ())), .read none]

/-- The isolation fails. -/
theorem failure_reported_isolation : ∃ c, Run (Delegating.next (lsStartup []) ⟨100, false⟩)
      (fun c e => c.marked e = true) .start
      (.setup (.ok ()) (.ok ()) (.ok ()) :: List.replicate 6 (.step .wrapper .ok) ++
        [.step .wrapper .failed, .mark .wrapper] ++ heard 1) c ∧ ∀ n, c.phase ≠ .done (.ok n) := by
  have hrun : ∃ c, Run (Delegating.next (lsStartup []) ⟨100, false⟩) (fun c e => c.marked e = true) .start
      (.setup (.ok ()) (.ok ()) (.ok ()) :: List.replicate 6 (.step .wrapper .ok) ++
        [.step .wrapper .failed, .mark .wrapper] ++ heard 1) c ∧ c.failed = true :=
    ⟨_, run_of_play rfl, rfl⟩
  obtain ⟨c, hrun, hf⟩ := hrun
  exact ⟨c, hrun, failure_reported hrun hf⟩

/-- A variable that is no text, whitelisted or not: the panic's exit code is returned as the program's. -/
theorem failure_not_reported :
    ¬∀ (su : Startup Nat) (sup : Supervisor) (es : List DelegatingEvent) (c : Delegating) (n : Int),
      Run (Delegating.next su sup) (fun _ _ => True) .start es c → c.failed = true → c.phase ≠ .done (.ok n) := by
  intro h
  have hplay : ∃ c, Run (Delegating.next (lsStartup [([88], [255])]) ⟨100, false⟩) (fun _ _ => True) .start
      (.setup (.ok ()) (.ok ()) (.ok ()) :: List.replicate 5 (.step .wrapper .ok) ++ [.step .wrapper .panicked] ++
        heard 101) c ∧ c.failed = true ∧ c.phase = .done (.ok 101) :=
    ⟨_, (@run_of_play _ _ _ (fun _ _ => true) _ _ _ rfl).mono fun _ _ _ => trivial, rfl, rfl⟩
  obtain ⟨c, hrun, hf, hdone⟩ := hplay
  exact h _ _ _ c 101 hrun hf hdone

end SecureSudoers
