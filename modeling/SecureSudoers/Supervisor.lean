/-
The supervisor's loop (`supervisor.rs`, `supervise_direct_child`) among the
signals that arrive around it.

The process is at a `SupervisorPlace` of the loop. Its own steps are the loop's
atomic operations and system calls, with what the system answers in the event;
handlers run between two of them, and the child changes state, when they like.
The handlers are installed without `SA_RESTART`: one that runs while `waitpid`
blocks ends the call with `EINTR`. One that runs before the call is entered
does not, and there a termination signal is lost until the child or another
signal ends the call (`signal_lost`). `termination_not_lost` is what holds of
the runs without such a signal.
-/
import SecureSudoers.Error
import SecureSudoers.Lib.Runs

namespace SecureSudoers

open Runs

/-- The signals the code names. -/
inductive Signal where
  | SIGHUP
  | SIGINT
  | SIGQUIT
  | SIGTERM
  | SIGCONT
  | SIGSTOP
  | SIGTSTP
  | SIGTTIN
  | SIGTTOU
  | SIGWINCH
  | other (number : Nat)
  deriving DecidableEq, Repr

def Signal.number : Signal → Nat
  | .SIGHUP => 1
  | .SIGINT => 2
  | .SIGQUIT => 3
  | .SIGTERM => 15
  | .SIGCONT => 18
  | .SIGSTOP => 19
  | .SIGTSTP => 20
  | .SIGTTIN => 21
  | .SIGTTOU => 22
  | .SIGWINCH => 28
  | .other n => n

/-- `is_job_control_stop_signal`. -/
def isJobControlStopSignal (sig : Signal) : Bool :=
  sig = .SIGSTOP || sig = .SIGTSTP || sig = .SIGTTIN || sig = .SIGTTOU

def EINTR : Errno := .other 4

/-- `nix::sys::wait::WaitStatus`; `other` is one the loop does not expect, as it is printed. -/
inductive WaitStatus where
  | exited (code : Int)
  | signaled (sig : Signal)
  | stopped (sig : Signal)
  | continued
  | other (text : Str)
  deriving DecidableEq, Repr

/-! ## The loop -/

/-- What the loop returns after `terminate_supervised_descendants`. -/
inductive Ending where
  /-- The termination signal that was received. -/
  | received (signal : Nat)
  /-- The exit code of the child. -/
  | code (code : Int)
  /-- `return_with_descendant_cleanup`. -/
  | cleanup (err : Error)
  | waitFailed (e : Errno)

/-- The result, given the outcome of `terminate_supervised_descendants`. -/
def Ending.result (child : Nat) : Ending → Except Error Unit → Except Error Int
  | .received _, .error e | .code _, .error e => .error e
  | .received signal, .ok () =>
    .error (.execution ("supervisor received termination signal " ++ Nat.toDigits 10 signal))
  | .code n, .ok () => .ok n
  | .cleanup err, .error e => .error (.execution (err.display ++ "; cleanup failed: " ++ e.display))
  | .cleanup err, .ok () => .error err
  | .waitFailed e, r =>
    let context : Str := "waitpid for child " ++ Nat.toDigits 10 child ++ " failed"
    match r with
    | .error termErr => .error (.ioContext (context ++ "; cleanup also failed: " ++ termErr.display) e)
    | .ok () => .error (.ioContext context e)

/-- Where the supervisor is: what it does next, or what it is in. -/
inductive SupervisorPlace where
  /-- `TERMINATION_SIGNAL.swap`. -/
  | swap
  /-- `SIGWINCH_RECEIVED.swap`. -/
  | winch
  /-- Forwarding the window size. -/
  | resize
  /-- About to call `waitpid`. -/
  | wait
  /-- In `waitpid`, with nothing to report. -/
  | blocked
  | waited (r : Except Errno WaitStatus)
  /-- `suspend_self_for_job_control`, up to `raise`. -/
  | suspend (sig : Signal)
  /-- Stopped by the signal it raised. -/
  | stopped (sig : Signal)
  /-- `suspend_self_for_job_control`, after `raise`. -/
  | resumed (sig : Signal)
  /-- Sending `SIGCONT` to the child's process group. -/
  | cont
  /-- `terminate_supervised_descendants`. -/
  | terminate (ending : Ending)
  | returned (r : Except Error Int)

/-- The match on what `waitpid` returned. -/
def afterWait : Except Errno WaitStatus → SupervisorPlace
  | .ok (.exited code) => .terminate (.code code)
  | .ok (.signaled sig) => .terminate (.code (128 + sig.number))
  | .ok (.stopped sig) =>
    if isJobControlStopSignal sig then .suspend sig
    else .terminate (.cleanup (.system ("unexpected non-job-control stop signal: " ++ Nat.toDigits 10 sig.number)))
  | .ok .continued => .swap
  | .error e => if e = EINTR then .swap else .terminate (.waitFailed e)
  | .ok (.other text) => .terminate (.cleanup (.system ("Unexpected wait status: " ++ text)))

structure Supervision where
  place : SupervisorPlace
  /-- `TERMINATION_SIGNAL`. -/
  terminationSignal : Nat := 0
  /-- `SIGWINCH_RECEIVED`. -/
  sigwinchReceived : Bool := false
  /-- What `waitpid` would report of the child. -/
  status : Option WaitStatus := none
  /-- The signals that arrived while the supervisor was stopped. -/
  pending : List Signal := []
  /-- The signals sent to the child's process group. -/
  sent : List Signal := []

structure Supervisor where
  child : Nat
  stdinIsTty : Bool

/-- The signals with a handler. -/
def Supervisor.handles (sup : Supervisor) : Signal → Bool
  | .SIGINT | .SIGQUIT | .SIGTSTP | .SIGTTIN | .SIGTTOU | .SIGTERM | .SIGHUP => true
  | .SIGWINCH => sup.stdinIsTty
  | .SIGCONT | .SIGSTOP | .other _ => false

namespace Supervision

def goto (s : Supervision) (place : SupervisorPlace) : Supervision := { s with place := place }

/-- `send_signal_to_process_group`, and `forward_signal_to_supervised_group`. -/
def send (s : Supervision) (sig : Signal) : Supervision := { s with sent := s.sent ++ [sig] }

/-- The handlers. -/
def handler (s : Supervision) : Signal → Supervision
  | .SIGWINCH => { s with sigwinchReceived := true }
  | .SIGTERM => { s with terminationSignal := Signal.SIGTERM.number }.send .SIGTERM
  | .SIGHUP => { s with terminationSignal := Signal.SIGHUP.number }.send .SIGHUP
  | sig => s.send sig

end Supervision

inductive SupervisorEvent where
  | swap
  | sigwinch
  /-- The window size is forwarded, or a warning is logged. -/
  | resize
  /-- `waitpid` is entered; it may fail at once. -/
  | waitpid (fails : Option Errno)
  | examine
  /-- `raise`, and whether it stops the process; in an orphaned group it may not. -/
  | raise (r : Except Error Bool)
  /-- `SIGCONT` arrives at the stopped supervisor. -/
  | resume
  /-- The disposition of the stop signal is restored. -/
  | restore (r : Except Error Unit)
  | sigcont (r : Except Error Unit)
  | descendants (r : Except Error Unit)
  /-- A signal arrives. -/
  | signal (sig : Signal)
  /-- The child has a state to report. -/
  | child (status : WaitStatus)

/-- The supervisor goes on: all events but a signal and the child's. -/
def SupervisorEvent.advances : SupervisorEvent → Bool
  | .signal _ | .child _ => false
  | _ => true

namespace Supervisor

variable (sup : Supervisor)

/-- One step, if the event can happen. -/
def step (s : Supervision) (e : SupervisorEvent) : Option Supervision :=
  match e, s.place with
  | .swap, .swap =>
    let s' := { s with terminationSignal := 0 }
    if 0 < s.terminationSignal then some (s'.goto (.terminate (.received s.terminationSignal)))
    else some (s'.goto .winch)
  | .sigwinch, .winch =>
    some ({ s with sigwinchReceived := false }.goto (if s.sigwinchReceived && sup.stdinIsTty then .resize else .wait))
  | .resize, .resize => some (s.goto .wait)
  | .waitpid (some e), .wait => if e = EINTR then none else some (s.goto (.waited (.error e)))
  | .waitpid none, .wait =>
    match s.status with
    | some status => some ({ s with status := none }.goto (.waited (.ok status)))
    | none => some (s.goto .blocked)
  | .examine, .waited r => some (s.goto (afterWait r))
  | .raise (.error e), .suspend _ => some (s.goto (.terminate (.cleanup e)))
  | .raise (.ok true), .suspend sig => some (s.goto (.stopped sig))
  | .raise (.ok false), .suspend sig => if sig = .SIGSTOP then none else some (s.goto (.resumed sig))
  -- what arrived in the meantime is handled first
  | .resume, .stopped sig => some ((s.pending.foldl Supervision.handler { s with pending := [] }).goto (.resumed sig))
  -- for `SIGSTOP` there is nothing to restore
  | .restore (.error e), .resumed sig => if sig = .SIGSTOP then none else some (s.goto (.terminate (.cleanup e)))
  | .restore (.ok ()), .resumed _ => some (s.goto .cont)
  | .sigcont (.error e), .cont => some (s.goto (.terminate (.cleanup e)))
  | .sigcont (.ok ()), .cont => some ((s.send .SIGCONT).goto .swap)
  | .descendants r, .terminate ending => some (s.goto (.returned (ending.result sup.child r)))
  | .signal sig, place =>
    if sup.handles sig then
      match place with
      | .stopped _ => some { s with pending := s.pending ++ [sig] }
      | .blocked => some ((s.handler sig).goto (.waited (.error EINTR)))
      | _ => some (s.handler sig)
    else none
  | .child status, .blocked => some (s.goto (.waited (.ok status)))
  | .child status, _ => some { s with status := some status }
  | _, _ => none

end Supervisor

/-! ## Handlers -/

namespace Supervision

variable {s : Supervision} {sig : Signal}

@[simp] theorem goto_place {place : SupervisorPlace} : (s.goto place).place = place := rfl

@[simp] theorem goto_terminationSignal {place : SupervisorPlace} :
    (s.goto place).terminationSignal = s.terminationSignal := rfl

@[simp] theorem send_place : (s.send sig).place = s.place := rfl

@[simp] theorem send_terminationSignal : (s.send sig).terminationSignal = s.terminationSignal := rfl

@[simp] theorem handler_place : (s.handler sig).place = s.place := by
  cases sig <;> rfl

/-- Only two handlers store a termination signal. -/
theorem handler_terminationSignal : (s.handler sig).terminationSignal =
    if sig = .SIGTERM ∨ sig = .SIGHUP then sig.number else s.terminationSignal := by
  cases sig <;> rfl

theorem handler_requested (h : s.terminationSignal ≠ 0) : (s.handler sig).terminationSignal ≠ 0 := by
  rw [handler_terminationSignal]
  split
  · next hsig => rcases hsig with rfl | rfl <;> decide
  · exact h

@[simp] theorem foldl_handler_place : ∀ {sigs : List Signal} {s : Supervision},
    (sigs.foldl handler s).place = s.place
  | [], _ => rfl
  | _ :: sigs, _ => (@foldl_handler_place sigs _).trans handler_place

theorem foldl_handler_requested : ∀ {sigs : List Signal} {s : Supervision}, s.terminationSignal ≠ 0 →
    (sigs.foldl handler s).terminationSignal ≠ 0
  | [], _, h => h
  | _ :: sigs, _, h => @foldl_handler_requested sigs _ (handler_requested h)

end Supervision

/-! ## One step -/

/-- The supervisor's own moves, but the swap of the termination signal. -/
inductive Next : SupervisorPlace → SupervisorPlace → Prop where
  | winch : Next .winch .wait
  | winchResize : Next .winch .resize
  | resize : Next .resize .wait
  | waitpid {r : Except Errno WaitStatus} : Next .wait (.waited r)
  | block : Next .wait .blocked
  | examine {r : Except Errno WaitStatus} : Next (.waited r) (afterWait r)
  | raise {sig : Signal} : Next (.suspend sig) (.stopped sig)
  | raiseIgnored {sig : Signal} : Next (.suspend sig) (.resumed sig)
  | raiseFailed {sig : Signal} {ending : Ending} : Next (.suspend sig) (.terminate ending)
  | restore {sig : Signal} : Next (.resumed sig) .cont
  | restoreFailed {sig : Signal} {ending : Ending} : Next (.resumed sig) (.terminate ending)
  | sigcont : Next .cont .swap
  | sigcontFailed {ending : Ending} : Next .cont (.terminate ending)
  | descendants {ending : Ending} {r : Except Error Int} : Next (.terminate ending) (.returned r)

/-- What follows `waitpid` is the loop's start, a suspension or the end. -/
theorem afterWait_cases (r : Except Errno WaitStatus) :
    afterWait r = .swap ∨ (∃ sig, afterWait r = .suspend sig) ∨ ∃ ending, afterWait r = .terminate ending := by
  unfold afterWait
  split
  · exact .inr (.inr ⟨_, rfl⟩)
  · exact .inr (.inr ⟨_, rfl⟩)
  · split
    · exact .inr (.inl ⟨_, rfl⟩)
    · exact .inr (.inr ⟨_, rfl⟩)
  · exact .inl rfl
  · split
    · exact .inl rfl
    · exact .inr (.inr ⟨_, rfl⟩)
  · exact .inr (.inr ⟨_, rfl⟩)

variable {sup : Supervisor} {s t : Supervision} {e : SupervisorEvent}

/-- What a step does to the place and to the termination signal. -/
inductive Effect (s t : Supervision) : SupervisorEvent → Prop where
  | taken : s.place = .swap → s.terminationSignal ≠ 0 → t.place = .terminate (.received s.terminationSignal) →
      t.terminationSignal = 0 → Effect s t .swap
  | untaken : s.place = .swap → s.terminationSignal = 0 → t.place = .winch → t.terminationSignal = 0 →
      Effect s t .swap
  | own {e : SupervisorEvent} : e.advances = true → Next s.place t.place →
      t.terminationSignal = s.terminationSignal → Effect s t e
  | resume {sig : Signal} : s.place = .stopped sig → t.place = .resumed sig →
      (s.terminationSignal ≠ 0 → t.terminationSignal ≠ 0) → Effect s t .resume
  | deferred {sig sig' : Signal} : s.place = .stopped sig' → t.place = s.place →
      t.terminationSignal = s.terminationSignal → Effect s t (.signal sig)
  | handled {sig : Signal} : s.place ≠ .blocked → t.place = s.place →
      t.terminationSignal = (s.handler sig).terminationSignal → Effect s t (.signal sig)
  | interrupted {sig : Signal} : s.place = .blocked → t.place = .waited (.error EINTR) →
      t.terminationSignal = (s.handler sig).terminationSignal → Effect s t (.signal sig)
  | reported {status : WaitStatus} : s.place = .blocked → t.place = .waited (.ok status) →
      t.terminationSignal = s.terminationSignal → Effect s t (.child status)
  | noted {status : WaitStatus} : s.place ≠ .blocked → t.place = s.place →
      t.terminationSignal = s.terminationSignal → Effect s t (.child status)

theorem step_effect (h : sup.step s e = some t) : Effect s t e := by
  cases e with
  | swap =>
    cases hp : s.place <;> simp only [Supervisor.step, hp, reduceCtorEq] at h
    split at h
    · next hn =>
      cases h
      exact .taken hp (Nat.ne_of_gt hn) rfl rfl
    · next hn =>
      cases h
      exact .untaken hp (Nat.eq_zero_of_not_pos hn) rfl rfl
  | sigwinch =>
    cases hp : s.place <;> simp only [Supervisor.step, hp, reduceCtorEq] at h
    cases h
    refine .own rfl ?_ rfl
    rw [hp]
    dsimp only [Supervision.goto]
    split
    · exact .winchResize
    · exact .winch
  | resize =>
    cases hp : s.place <;> simp only [Supervisor.step, hp, reduceCtorEq] at h
    cases h
    exact .own rfl (hp ▸ .resize) rfl
  | waitpid fails =>
    cases hp : s.place <;> cases fails <;> simp only [Supervisor.step, hp, reduceCtorEq] at h
    · split at h <;> cases h
      · exact .own rfl (hp ▸ .waitpid) rfl
      · exact .own rfl (hp ▸ .block) rfl
    · split at h <;> cases h
      exact .own rfl (hp ▸ .waitpid) rfl
  | examine =>
    cases hp : s.place <;> simp only [Supervisor.step, hp, reduceCtorEq] at h
    cases h
    exact .own rfl (hp ▸ .examine) rfl
  | raise r =>
    rcases r with e | _ | _ <;> cases hp : s.place <;> simp only [Supervisor.step, hp, reduceCtorEq] at h
    · cases h
      exact .own rfl (hp ▸ .raiseFailed) rfl
    · split at h <;> cases h
      exact .own rfl (hp ▸ .raiseIgnored) rfl
    · cases h
      exact .own rfl (hp ▸ .raise) rfl
  | resume =>
    cases hp : s.place <;> simp only [Supervisor.step, hp, reduceCtorEq] at h
    cases h
    exact .resume hp rfl fun hs => Supervision.foldl_handler_requested hs
  | restore r =>
    rcases r with e | _ <;> cases hp : s.place <;> simp only [Supervisor.step, hp, reduceCtorEq] at h
    · split at h <;> cases h
      exact .own rfl (hp ▸ .restoreFailed) rfl
    · cases h
      exact .own rfl (hp ▸ .restore) rfl
  | sigcont r =>
    rcases r with e | _ <;> cases hp : s.place <;> simp only [Supervisor.step, hp, reduceCtorEq] at h
    · cases h
      exact .own rfl (hp ▸ .sigcontFailed) rfl
    · cases h
      exact .own rfl (hp ▸ .sigcont) rfl
  | descendants r =>
    cases hp : s.place <;> simp only [Supervisor.step, hp, reduceCtorEq] at h
    cases h
    exact .own rfl (hp ▸ .descendants) rfl
  | signal sig =>
    simp only [Supervisor.step] at h
    split at h
    · split at h <;> cases h
      · next hp => exact .deferred hp rfl rfl
      · next hp => exact .interrupted hp rfl rfl
      · next _ hp => exact .handled hp Supervision.handler_place rfl
    · cases h
  | child status =>
    by_cases hp : s.place = .blocked
    · simp only [Supervisor.step, hp, Option.some.injEq] at h
      subst h
      exact .reported hp rfl rfl
    · have hnoted : sup.step s (.child status) = some { s with status := some status } := by
        cases hp' : s.place <;> first | exact absurd hp' hp | simp only [Supervisor.step, hp']
      rw [hnoted, Option.some.injEq] at h
      subst h
      exact .noted hp rfl rfl

/-! ## Runs -/

/-- The swap has returned 0, and `waitpid` is not entered yet. -/
def SupervisorPlace.beforeWait : SupervisorPlace → Bool
  | .winch | .resize | .wait => true
  | _ => false

/-- `terminate_supervised_descendants` has been called. -/
def SupervisorPlace.ending : SupervisorPlace → Bool
  | .terminate _ | .returned _ => true
  | _ => false

/-- No termination signal is handled between the swap and `waitpid`. -/
def Timely (s : Supervision) (e : SupervisorEvent) : Prop :=
  s.place.beforeWait = true → e ≠ .signal .SIGTERM ∧ e ≠ .signal .SIGHUP

/-- Where the supervisor waits for the child, or is about to, no request is pending. -/
def NoneWaiting (s : Supervision) : Prop :=
  s.place.beforeWait = true ∨ s.place = .blocked → s.terminationSignal = 0

theorem noneWaiting_step (hinv : NoneWaiting s) (hok : Timely s e) (h : sup.step s e = some t) : NoneWaiting t := by
  intro ht
  cases step_effect h with
  | taken _ _ _ hflag | untaken _ _ _ hflag => exact hflag
  | own _ hnext hflag =>
    rw [hflag]
    generalize hp : s.place = p, hp' : t.place = p' at hnext ht
    cases hnext with
    | winch | winchResize | resize | block => exact hinv (.inl (by rw [hp]; rfl))
    | @examine r =>
      obtain h | ⟨_, h⟩ | ⟨_, h⟩ := afterWait_cases r <;> simp [h, SupervisorPlace.beforeWait] at ht
    | _ => simp [SupervisorPlace.beforeWait] at ht
  | resume _ hp' _ => simp [hp', SupervisorPlace.beforeWait] at ht
  | deferred hp hp' _ => simp [hp', hp, SupervisorPlace.beforeWait] at ht
  | @handled sig hp hp' hflag =>
    rw [hp'] at ht
    obtain ⟨hterm, hhup⟩ := hok (ht.resolve_right hp)
    have hsig : ¬(sig = .SIGTERM ∨ sig = .SIGHUP) := by
      rintro (rfl | rfl)
      · exact hterm rfl
      · exact hhup rfl
    rw [hflag, Supervision.handler_terminationSignal, if_neg hsig]
    exact hinv ht
  | interrupted _ hp' _ | reported _ hp' _ => simp [hp', SupervisorPlace.beforeWait] at ht
  | noted _ hp' hflag =>
    rw [hp'] at ht
    rw [hflag]
    exact hinv ht

/-! ## A request is answered -/

/-- A termination signal has been stored, and no end has begun. -/
structure Requested (s : Supervision) : Prop where
  noneWaiting : NoneWaiting s
  signal : s.terminationSignal ≠ 0
  notEnding : s.place.ending = false

theorem Requested.not_beforeWait (h : Requested s) : s.place.beforeWait = false :=
  Bool.eq_false_iff.mpr fun hw => h.signal (h.noneWaiting (.inl hw))

theorem Requested.not_blocked (h : Requested s) : s.place ≠ .blocked :=
  fun hb => h.signal (h.noneWaiting (.inr hb))

/-- The moves to the swap, at most. -/
def SupervisorPlace.rank : SupervisorPlace → Nat
  | .waited _ => 5
  | .suspend _ => 4
  | .stopped _ => 3
  | .resumed _ => 2
  | .cont => 1
  | _ => 0

theorem Next.rank_lt {p p' : SupervisorPlace} (h : Next p p') (hw : p.beforeWait = false)
    (he : p'.ending = false) : p'.rank < p.rank := by
  cases h with
  | winch | winchResize | resize | waitpid | block => cases hw
  | @examine r =>
    obtain h | ⟨_, h⟩ | ⟨_, h⟩ := afterWait_cases r
    · simp [h, SupervisorPlace.rank]
    · simp [h, SupervisorPlace.rank]
    · rw [h] at he
      cases he
  | raise | raiseIgnored | restore | sigcont => simp [SupervisorPlace.rank]
  | raiseFailed | restoreFailed | sigcontFailed | descendants => cases he

/-- Signals and the child do not bring a requested end further away. -/
theorem requested_ranked : Ranked (Supervisor.step sup) Timely Requested (fun s => s.place.ending = true)
    SupervisorEvent.advances fun s => s.place.rank := by
  intro s e t hreq hok h
  have hinv := noneWaiting_step hreq.noneWaiting hok h
  cases hend : t.place.ending with
  | true => exact .inl hend
  | false =>
    refine .inr ?_
    have same : t.place = s.place → t.place.rank ≤ s.place.rank := fun hp' => Nat.le_of_eq (by rw [hp'])
    cases step_effect h with
    | taken _ _ hp' _ => simp [hp', SupervisorPlace.ending] at hend
    | untaken _ hflag _ _ => exact absurd hflag hreq.signal
    | own _ hnext hflag =>
      have hlt := hnext.rank_lt hreq.not_beforeWait hend
      exact ⟨⟨hinv, hflag ▸ hreq.signal, hend⟩, Nat.le_of_lt hlt, fun _ => hlt⟩
    | resume hp hp' hflag =>
      have hlt : t.place.rank < s.place.rank := by simp [hp, hp', SupervisorPlace.rank]
      exact ⟨⟨hinv, hflag hreq.signal, hend⟩, Nat.le_of_lt hlt, fun _ => hlt⟩
    | deferred _ hp' hflag | noted _ hp' hflag =>
      exact ⟨⟨hinv, hflag ▸ hreq.signal, hend⟩, same hp', fun hadv => by cases hadv⟩
    | @handled sig _ hp' hflag =>
      have hsignal : (s.handler sig).terminationSignal ≠ 0 := Supervision.handler_requested hreq.signal
      exact ⟨⟨hinv, hflag ▸ hsignal, hend⟩, same hp', fun hadv => by cases hadv⟩
    | interrupted hp _ _ | reported hp _ _ => exact absurd hp hreq.not_blocked

theorem ending_step (hend : s.place.ending = true) (h : sup.step s e = some t) : t.place.ending = true := by
  cases step_effect h with
  | taken hp _ _ _ | untaken hp _ _ _ | resume hp _ _ | deferred hp _ _ | interrupted hp _ _ | reported hp _ _ =>
    simp [hp, SupervisorPlace.ending] at hend
  | own _ hnext _ =>
    generalize s.place = p, t.place = p' at hnext hend
    cases hnext <;> first | rfl | cases hend
  | handled _ hp' _ | noted _ hp' _ => rw [hp', hend]

/-- With a request the supervisor can always go on. -/
theorem Requested.advances (h : Requested s) : ∃ e t, e.advances = true ∧ sup.step s e = some t := by
  have can : ∀ e : SupervisorEvent, e.advances = true → (sup.step s e).isSome = true →
      ∃ e t, e.advances = true ∧ sup.step s e = some t := by
    intro e he hsome
    obtain ⟨t, ht⟩ := Option.isSome_iff_exists.mp hsome
    exact ⟨e, t, he, ht⟩
  have hw := h.not_beforeWait
  have he := h.notEnding
  cases hp : s.place with
  | winch | resize | wait => simp [hp, SupervisorPlace.beforeWait] at hw
  | blocked => exact absurd hp h.not_blocked
  | terminate _ | returned _ => simp [hp, SupervisorPlace.ending] at he
  | swap => exact can .swap rfl (by simp [Supervisor.step, hp, Nat.pos_of_ne_zero h.signal])
  | waited r => exact can .examine rfl (by simp [Supervisor.step, hp])
  | suspend sig => exact can (.raise (.ok true)) rfl (by simp [Supervisor.step, hp])
  | stopped sig => exact can .resume rfl (by simp [Supervisor.step, hp])
  | resumed sig => exact can (.restore (.ok ())) rfl (by simp [Supervisor.step, hp])
  | cont => exact can (.sigcont (.ok ())) rfl (by simp [Supervisor.step, hp])

/-- **Where no termination signal comes between the swap and `waitpid`**, the
supervisor is never blocked with one stored; and from then on it goes on, and
calls `terminate_supervised_descendants` within six moves of its own, whatever
the child does. -/
theorem termination_not_lost {s₀ : Supervision} {es : List SupervisorEvent} (hinit : s₀.place = .swap)
    (hrun : Run sup.step Timely s₀ es s) :
    ¬(s.place = .blocked ∧ s.terminationSignal ≠ 0) ∧
      (s.terminationSignal ≠ 0 → s.place.ending = false →
        (∃ e t, e.advances = true ∧ sup.step s e = some t) ∧
          ∀ es' t, Run sup.step Timely s es' t → 6 ≤ es'.countP SupervisorEvent.advances → t.place.ending = true) := by
  have hinv : NoneWaiting s := by
    refine hrun.invariant NoneWaiting ?_ fun _ _ _ h hok hstep => noneWaiting_step h hok hstep
    intro hw
    simp [hinit, SupervisorPlace.beforeWait] at hw
  refine ⟨fun h => h.2 (hinv (.inr h.1)), fun hsignal hend => ?_⟩
  have hreq : Requested s := ⟨hinv, hsignal, hend⟩
  refine ⟨hreq.advances, fun es' t hrun' hlen => ?_⟩
  have hrank : s.place.rank < es'.countP SupervisorEvent.advances := by
    have hle : s.place.rank ≤ 5 := by cases s.place <;> simp [SupervisorPlace.rank]
    omega
  have hleads := hrun'.leads_to requested_ranked fun _ _ _ hg _ hstep => ending_step hg hstep
  exact hleads hreq hrank

/-- A signal that finds the supervisor blocked is answered. -/
theorem termination_not_lost_blocked :
    ∃ s, Run (Supervisor.mk 100 false).step Timely { place := .swap }
        [.swap, .sigwinch, .waitpid none, .signal .SIGTERM] s ∧
      ∀ es t, Run (Supervisor.mk 100 false).step Timely s es t → 6 ≤ es.countP SupervisorEvent.advances →
        t.place.ending = true := by
  have timely : ∀ {s : Supervision} {e : SupervisorEvent}, (s.place.beforeWait = false ∨ e.advances = true) →
      Timely s e := by
    rintro s e (hp | he) hw
    · rw [hp] at hw
      cases hw
    · constructor <;> rintro rfl <;> cases he
  have hrun : Run (Supervisor.mk 100 false).step Timely { place := .swap }
      [.swap, .sigwinch, .waitpid none, .signal .SIGTERM]
      { place := .waited (.error EINTR), terminationSignal := 15, sent := [.SIGTERM] } :=
    .cons (timely (.inl rfl)) rfl (.cons (timely (.inr rfl)) rfl (.cons (timely (.inr rfl)) rfl
      (.cons (timely (.inl rfl)) rfl .nil)))
  exact ⟨_, hrun, ((termination_not_lost rfl hrun).2 (by decide) rfl).2⟩

/-! ## Where it is lost -/

/-- Left alone, the supervisor blocks. -/
theorem blocks (hw : s.place.beforeWait = true) (hstatus : s.status = none) :
    ∃ es t, Run sup.step (fun _ e => e.advances = true) s es t ∧ t.place = .blocked ∧
      t.terminationSignal = s.terminationSignal := by
  have wait : ∀ {s : Supervision}, s.place = .wait → s.status = none →
      Run sup.step (fun _ e => e.advances = true) s [.waitpid none] (s.goto .blocked) := by
    intro s hp hs
    exact .cons rfl (by simp [Supervisor.step, hp, hs]) .nil
  have resize : ∀ {s : Supervision}, s.place = .resize → s.status = none →
      Run sup.step (fun _ e => e.advances = true) s [.resize, .waitpid none] ((s.goto .wait).goto .blocked) := by
    intro s hp hs
    exact .cons rfl (by simp [Supervisor.step, hp]) (wait rfl hs)
  cases hp : s.place with
  | wait => exact ⟨_, _, wait hp hstatus, rfl, rfl⟩
  | resize => exact ⟨_, _, resize hp hstatus, rfl, rfl⟩
  | winch =>
    have hstep : sup.step s .sigwinch = some ({ s with sigwinchReceived := false }.goto
        (if s.sigwinchReceived && sup.stdinIsTty then .resize else .wait)) := by
      simp [Supervisor.step, hp]
    split at hstep
    · exact ⟨_, _, .cons rfl hstep (resize rfl hstatus), rfl, rfl⟩
    · exact ⟨_, _, .cons rfl hstep (wait rfl hstatus), rfl, rfl⟩
  | _ => simp [hp, SupervisorPlace.beforeWait] at hw

/-- Only a signal and the child end the call. -/
theorem blocked_waits (hp : s.place = .blocked) (h : sup.step s e = some t) : e.advances = false := by
  cases step_effect h with
  | own _ hnext _ =>
    rw [hp] at hnext
    cases hnext
  | taken hp' _ _ _ | untaken hp' _ _ _ | resume hp' _ _ =>
    rw [hp] at hp'
    cases hp'
  | _ => rfl

/-- **A termination signal between the swap and `waitpid` is lost**: unless the
child has something to report, the supervisor goes on to block with it stored. -/
theorem signal_lost {sig : Signal} (hsig : sig = .SIGTERM ∨ sig = .SIGHUP) (hw : s.place.beforeWait = true)
    (hstatus : s.status = none) :
    ∃ t es u, sup.step s (.signal sig) = some t ∧ Run sup.step (fun _ e => e.advances = true) t es u ∧
      u.place = .blocked ∧ u.terminationSignal = sig.number := by
  have hstep : sup.step s (.signal sig) = some (s.handler sig) := by
    have hhandles : sup.handles sig = true := by rcases hsig with rfl | rfl <;> rfl
    unfold Supervisor.step
    cases hp : s.place <;> simp [hp, SupervisorPlace.beforeWait] at hw <;> simp [hhandles]
  have hstatus' : (s.handler sig).status = none := by
    rcases hsig with rfl | rfl <;> exact hstatus
  obtain ⟨es, u, hrun, hplace, hflag⟩ := @blocks sup _ (Supervision.handler_place.symm ▸ hw) hstatus'
  refine ⟨_, es, u, hstep, hrun, hplace, hflag.trans ?_⟩
  rw [Supervision.handler_terminationSignal, if_pos hsig]

/-- `SIGTERM` comes when the swap has returned 0, and the supervisor blocks. -/
theorem termination_lost :
    ¬∀ (sup : Supervisor) (s₀ s : Supervision) (es : List SupervisorEvent), s₀.place = .swap →
      Run sup.step (fun _ _ => True) s₀ es s → ¬(s.place = .blocked ∧ s.terminationSignal ≠ 0) := by
  intro h
  have hrun : Run (Supervisor.mk 100 false).step (fun _ _ => True) { place := .swap }
      [.swap, .sigwinch, .signal .SIGTERM, .waitpid none]
      { place := .blocked, terminationSignal := 15, sent := [.SIGTERM] } :=
    .cons trivial rfl (.cons trivial rfl (.cons trivial rfl (.cons trivial rfl .nil)))
  exact h _ _ _ _ rfl hrun ⟨rfl, by decide⟩

end SecureSudoers
