/-
The signals and the terminal around the supervisor's loop (`run_supervisor`,
`TerminalGuard`, `ForwardingSignalHandlerGuard`, `suspend_self_for_job_control`).

Before the fork the signals to forward are blocked; they are unblocked when each
has its handler and the handlers have the child's process group. `no_signal_astray`
says what a signal that arrives in between, or during the loop, meets.
`runSupervisor_restores` says what is left behind, whatever fails.

A guard that is dropped puts back what it has changed, and ignores it when that
fails. What it then leaves is changed.
-/
import SecureSudoers.Descendants
import SecureSudoers.Startup

namespace SecureSudoers

/-! ## The code -/

/-- The signals that are forwarded, in the order their handlers are installed in. -/
def forwardedSignals : List Signal := [.SIGINT, .SIGQUIT, .SIGTSTP, .SIGTTIN, .SIGTTOU, .SIGTERM, .SIGHUP]

/-- Where `run_supervisor` is, as far as a signal is concerned. -/
inductive SignalStage where
  /-- There is no child, or it has been waited for. -/
  | outside
  /-- From the fork on. -/
  | setup (child : Int)
  /-- From the restored mask to the end of the loop. -/
  | loop (child : Int)
  /-- In the loop, while this stop is passed on. -/
  | passing (child : Int) (stop : Signal)
  /-- The handler of this stop could not be put back, and the descendants are terminated. -/
  | stranded (child : Int) (stop : Signal)
  /-- The set-up has failed, and the child is killed. -/
  | cleanup (child : Int)
  deriving DecidableEq, Repr

/-- The stage of the loop while a stop is passed on, when that is over, or when its handler is lost. -/
def SignalStage.pass (stop : Signal) : SignalStage → SignalStage
  | .loop child => .passing child stop
  | stage => stage

def SignalStage.resume : SignalStage → SignalStage
  | .passing child _ => .loop child
  | stage => stage

def SignalStage.strand : SignalStage → SignalStage
  | .passing child stop => .stranded child stop
  | stage => stage

/-- `A` are the dispositions of a signal, `T` the settings of the terminal. -/
structure SignalState (A T : Type) where
  blocked : Signal → Bool
  action : Signal → A
  termios : T
  /-- `FORWARDED_CHILD_PGID`. -/
  forwardedChildPgid : Int
  stage : SignalStage := .outside

/-- A state, and those before it, the last one first. -/
structure History (S : Type) where
  now : S
  past : List S := []

def History.next {S : Type} (h : History S) (f : S → S) : History S := ⟨f h.now, h.now :: h.past⟩

/-- A stop of the child that is passed on, and which of the calls for it fail. -/
structure Stop where
  sig : Signal
  isStop : isJobControlStopSignal sig = true
  setDefault : Option Errno := none
  raise : Option Errno := none
  restore : Option Errno := none

/-- What the calls of a run answer. -/
structure SupervisorCalls (A T : Type) where
  stdinIsTty : Bool
  /-- The handlers of the code, and `SIG_DFL`. -/
  handler : Signal → A
  dfl : A
  /-- `cfmakeraw`. -/
  makeRaw : T → T
  tcgetattr : Option Errno := none
  tcsetattr : Option Errno := none
  /-- Of the `tcsetattr` when the guard is dropped. -/
  restoreTermios : Option Errno := none
  sigaction : Signal → Option Errno := fun _ => none
  /-- Of the `sigaction` when the guard of the handlers is dropped. -/
  restoreAction : Signal → Option Errno := fun _ => none
  subreaper : Option Errno := none
  block : Option Errno := none
  pipe : Option Errno := none
  fork : Except Errno Int
  setpgid : Option Errno := none
  restoreMask : Option Errno := none
  /-- `terminate_setup_child`. -/
  setupCleanup : Except Error Unit := .ok ()
  /-- The stops during the loop, and `terminate_supervised_descendants` after one that cannot be passed on. -/
  stops : List Stop := []
  descendants : Except Error Unit := .ok ()
  /-- What the loop returns otherwise. -/
  supervised : Except Error Int
  /-- What is read from the error pipe. -/
  errorPipe : Except Errno Str := .ok []

variable {A T : Type}

def SignalState.setAction (st : SignalState A T) (sig : Signal) (a : A) : SignalState A T :=
  { st with action := Function.update st.action sig a }

namespace SupervisorCalls

variable (c : SupervisorCalls A T)

/-- `install_signal_handler`. -/
def installSignalHandler (sig : Signal) (h : History (SignalState A T)) : Except Error A × History (SignalState A T) :=
  match c.sigaction sig with
  | some e => (.error (.ioContext ("sigaction(" ++ Nat.toDigits 10 sig.number ++ ") failed") e), h)
  | none => (.ok (h.now.action sig), h.next fun st => st.setAction sig (c.handler sig))

/-- One round of `Drop` of `ForwardingSignalHandlerGuard`. -/
def dropHandler (h : History (SignalState A T)) (entry : Signal × A) : History (SignalState A T) :=
  match c.restoreAction entry.1 with
  | some _ => h
  | none => h.next fun st => st.setAction entry.1 entry.2

/-- `Drop` of `ForwardingSignalHandlerGuard`. -/
def dropHandlers (installed : List (Signal × A)) (h : History (SignalState A T)) : History (SignalState A T) :=
  installed.reverse.foldl c.dropHandler h

/-- `ForwardingSignalHandlerGuard::install` of each signal; the guard is dropped where one fails. -/
def installHandlers : List Signal → List (Signal × A) → History (SignalState A T) →
    Except Error (List (Signal × A)) × History (SignalState A T)
  | [], installed, h => (.ok installed, h)
  | sig :: sigs, installed, h =>
    match c.installSignalHandler sig h with
    | (.error e, h) => (.error e, c.dropHandlers installed h)
    | (.ok old, h) => installHandlers sigs (installed ++ [(sig, old)]) h

/-- `install_signal_forwarding_handlers`. -/
def installSignalForwardingHandlers (h : History (SignalState A T)) :
    Except Error (List (Signal × A)) × History (SignalState A T) := c.installHandlers forwardedSignals [] h

/-- `Drop` of `TerminalGuard`. -/
def dropTerminal (original : T) (h : History (SignalState A T)) : History (SignalState A T) :=
  match c.restoreTermios with
  | some _ => h
  | none => h.next fun st => { st with termios := original }

/-- `TerminalGuard::new`: where the settings cannot be changed the guard is dropped at once. -/
def terminalGuard (h : History (SignalState A T)) : Except Error T × History (SignalState A T) :=
  match c.tcgetattr with
  | some e => (.error (.ioContext "tcgetattr failed" e), h)
  | none =>
    let original := h.now.termios
    match c.tcsetattr with
    | some e => (.error (.ioContext "tcsetattr failed" e), c.dropTerminal original h)
    | none => (.ok original, h.next fun st => { st with termios := c.makeRaw original })

/-- `block_forwarded_signals`. -/
def blockForwardedSignals (h : History (SignalState A T)) :
    Except Error (Signal → Bool) × History (SignalState A T) :=
  match c.block with
  | some e => (.error (.ioContext "pthread_sigmask(SIG_BLOCK) failed" e), h)
  | none =>
    (.ok h.now.blocked, h.next fun st => { st with blocked := fun sig => st.blocked sig || sig ∈ forwardedSignals })

/-- `restore_signal_mask`, and what comes next. -/
def restoreSignalMask (oldMask : Signal → Bool) (next : SignalStage) (h : History (SignalState A T)) :
    Except Error Unit × History (SignalState A T) :=
  match c.restoreMask with
  | some e => (.error (.ioContext "pthread_sigmask(SIG_SETMASK) failed" e), h)
  | none => (.ok (), h.next fun st => { st with blocked := oldMask, stage := next })

/-- `set_child_process_group`. -/
def setChildProcessGroup (child : Int) : Except Error Unit :=
  match c.setpgid with
  | none => .ok ()
  | some e =>
    if e = ESRCH ∨ e = .EACCES then .ok ()
    else .error (.ioContext ("setpgid(" ++ intDigits child ++ ", " ++ intDigits child ++ ") failed") e)

/-- `suspend_self_for_job_control`. -/
def suspendSelfForJobControl (stop : Stop) (h : History (SignalState A T)) :
    Except Error Unit × History (SignalState A T) :=
  let number : Str := Nat.toDigits 10 stop.sig.number
  let raiseError (e : Errno) : Error := .ioContext ("failed to propagate stop signal " ++ number) e
  if stop.sig = .SIGSTOP then
    match stop.raise with
    | none => (.ok (), h)
    | some e => (.error (raiseError e), h)
  else match stop.setDefault with
    | some e => (.error (.ioContext ("sigaction(" ++ number ++ ", SIG_DFL) failed") e), h)
    | none =>
      let old := h.now.action stop.sig
      let h := h.next fun st => { st.setAction stop.sig c.dfl with stage := st.stage.pass stop.sig }
      let back := h.next fun st => { st.setAction stop.sig old with stage := st.stage.resume }
      let lost := h.next fun st => { st with stage := st.stage.strand }
      match stop.raise, stop.restore with
      | none, none => (.ok (), back)
      | none, some e => (.error (.ioContext ("sigaction(" ++ number ++ ", restore) failed") e), lost)
      | some e, none => (.error (raiseError e), back)
      | some e, some _ => (.error (raiseError e), lost)

/-- The stops of the loop, up to one that cannot be passed on. -/
def passOnStops : List Stop → History (SignalState A T) → Except Error Unit × History (SignalState A T)
  | [], h => (.ok (), h)
  | stop :: stops, h =>
    match c.suspendSelfForJobControl stop h with
    | (.error e, h) => (.error e, h)
    | (.ok (), h) => passOnStops stops h

/-- `supervise_direct_child`, as far as it changes the state. -/
def superviseDirectChild (child : Int) (h : History (SignalState A T)) :
    Except Error Int × History (SignalState A T) :=
  match c.passOnStops c.stops h with
  | (.error e, h) => ((Ending.cleanup e).result child.toNat c.descendants, h)
  | (.ok (), h) => (c.supervised, h)

/-- `return_with_setup_child_cleanup`. -/
def returnWithSetupChildCleanup (err : Error) : Except Error Int :=
  match c.setupCleanup with
  | .ok () => .error err
  | .error cleanupErr => .error (.execution (err.display ++ "; setup child cleanup failed: " ++ cleanupErr.display))

/-- The closure of `run_supervisor` that sets the parent up. -/
def setUp (child : Int) (h : History (SignalState A T)) : Except Error (List (Signal × A)) × History (SignalState A T) :=
  match c.setChildProcessGroup child with
  | .error e => (.error e, h)
  | .ok () => c.installSignalForwardingHandlers (h.next fun st => { st with forwardedChildPgid := child })

/-- The parent, from the fork on. -/
def parent (oldMask : Signal → Bool) (child : Int) (h : History (SignalState A T)) :
    Except Error Int × History (SignalState A T) :=
  match c.setUp child h with
  | (.error e, h) =>
    let (restored, h) := c.restoreSignalMask oldMask (.cleanup child) h
    let h := h.next fun st => { st with forwardedChildPgid := 0 }
    let setupErr : Error :=
      match restored with
      | .error maskErr => .execution (e.display ++ "; restore signal mask failed: " ++ maskErr.display)
      | .ok () => e
    (c.returnWithSetupChildCleanup setupErr, h.next fun st => { st with stage := .outside })
  | (.ok handlers, h) =>
    match c.restoreSignalMask oldMask (.loop child) h with
    | (.error e, h) =>
      let h := c.dropHandlers handlers (h.next fun st => { st with forwardedChildPgid := 0 })
      (c.returnWithSetupChildCleanup e, h.next fun st => { st with stage := .outside })
    | (.ok (), h) =>
      let (r, h) := c.superviseDirectChild child h
      let h := c.dropHandlers handlers (h.next fun st => { st with forwardedChildPgid := 0, stage := .outside })
      match c.errorPipe with
      | .error e => (.error (.ioContext "read supervisor child error channel failed" e), h)
      | .ok pipe => (supervisorResult r pipe, h)

/-- `run_supervisor`, without the terminal. -/
def supervise (h : History (SignalState A T)) : Except Error Int × History (SignalState A T) :=
  match c.subreaper with
  | some e => (.error (.ioContext "prctl(PR_SET_CHILD_SUBREAPER) failed" e), h)
  | none =>
    match c.blockForwardedSignals (h.next fun st => { st with forwardedChildPgid := 0 }) with
    | (.error e, h) => (.error e, h)
    | (.ok oldMask, h) =>
      match c.pipe with
      | some e =>
        (.error (.ioContext "pipe2 for supervisor child error channel failed" e),
          (c.restoreSignalMask oldMask .outside h).2)
      | none =>
        match c.fork with
        | .error e =>
          (.error (.execution ("fork failed: " ++ e.display)), (c.restoreSignalMask oldMask .outside h).2)
        | .ok child => c.parent oldMask child (h.next fun st => { st with stage := .setup child })

/-- `run_supervisor`, in the supervisor's process. -/
def runSupervisor (h : History (SignalState A T)) : Except Error Int × History (SignalState A T) :=
  if c.stdinIsTty then
    match c.terminalGuard h with
    | (.error e, h) => (.error e, h)
    | (.ok original, h) =>
      let (r, h) : Except Error Int × History (SignalState A T) :=
        match c.installSignalHandler .SIGWINCH h with
        | (.error e, h) => (.error e, h)
        | (.ok _, h) => c.supervise h
      (r, c.dropTerminal original h)
  else c.supervise h

end SupervisorCalls

/-! ## Histories -/

namespace History

variable {S : Type} {P : S → Prop} {h : History S} {f : S → S}

/-- Every state of the history meets `P`. -/
def All (P : S → Prop) (h : History S) : Prop := P h.now ∧ ∀ st ∈ h.past, P st

@[simp] theorem next_now : (h.next f).now = f h.now := rfl

theorem All.mono {Q : S → Prop} (h' : All P h) (hPQ : ∀ st, P st → Q st) : All Q h :=
  ⟨hPQ _ h'.1, fun st hst => hPQ st (h'.2 st hst)⟩

theorem All.next (h' : All P h) (hf : P (f h.now)) : All P (h.next f) :=
  ⟨hf, List.forall_mem_cons.mpr h'⟩

end History

/-! ## Handlers, and what they replaced -/

/-- The dispositions after the guard is dropped. -/
def undo (installed : List (Signal × A)) (action : Signal → A) : Signal → A :=
  installed.foldr (fun entry action => Function.update action entry.1 entry.2) action

/-- Of a signal that is installed only the guard matters. -/
theorem undo_agree {action action' : Signal → A} {sig : Signal} : ∀ {installed : List (Signal × A)},
    (sig ∉ installed.map Prod.fst → action sig = action' sig) → undo installed action sig = undo installed action' sig
  | [], h => h (by simp)
  | entry :: installed, h => by
    have hcons : ∀ action : Signal → A,
        undo (entry :: installed) action = Function.update (undo installed action) entry.1 entry.2 := fun _ => rfl
    rw [hcons, hcons]
    by_cases he : sig = entry.1
    · rw [he, Function.update_self, Function.update_self]
    · rw [Function.update_of_ne he, Function.update_of_ne he]
      exact undo_agree fun hmem => h (by simp [he, hmem])

theorem undo_concat {installed : List (Signal × A)} {action : Signal → A} {sig : Signal} {a : A} :
    undo (installed ++ [(sig, action sig)]) (Function.update action sig a) = undo installed action := by
  rw [undo, List.foldr_append, List.foldr_cons, List.foldr_nil, Function.update_idem, Function.update_eq_self]
  rfl

namespace SupervisorCalls

variable {c : SupervisorCalls A T} {h h' : History (SignalState A T)} {P : SignalState A T → Prop}

/-- Setting a disposition keeps `P`, where this holds of the stage. -/
def Indifferent (P : SignalState A T → Prop) (stage : SignalStage) : Prop :=
  ∀ st sig a, st.stage = stage → P st → P (st.setAction sig a)

/-- Every signal is as in `base`, but for forwarded ones that cannot be put back. -/
def Back (c : SupervisorCalls A T) (base action : Signal → A) : Prop :=
  ∀ sig, (sig ∈ forwardedSignals → c.restoreAction sig = none) → action sig = base sig

/-- The handler that was installed first is put back last. -/
theorem dropHandlers_cons {entry : Signal × A} {installed : List (Signal × A)} :
    c.dropHandlers (entry :: installed) h = c.dropHandler (c.dropHandlers installed h) entry := by
  rw [dropHandlers, dropHandlers, List.reverse_cons, List.foldl_append]
  rfl

/-- One handler is put back, if that does not fail. -/
theorem dropHandler_now {entry : Signal × A} : (∃ action, (c.dropHandler h entry).now = { h.now with action }) ∧
    ∀ sig, (sig = entry.1 → c.restoreAction sig = none) →
      (c.dropHandler h entry).now.action sig = Function.update h.now.action entry.1 entry.2 sig := by
  unfold dropHandler
  cases hfails : c.restoreAction entry.1 with
  | none => exact ⟨⟨_, rfl⟩, fun _ _ => rfl⟩
  | some e =>
    refine ⟨⟨_, rfl⟩, fun sig hsig => ?_⟩
    have hne : sig ≠ entry.1 := by
      rintro rfl
      cases hfails.symm.trans (hsig rfl)
    rw [Function.update_of_ne hne]

theorem dropHandlers_now : ∀ {installed : List (Signal × A)},
    (∃ action, (c.dropHandlers installed h).now = { h.now with action }) ∧
      ∀ sig, (sig ∈ installed.map Prod.fst → c.restoreAction sig = none) →
        (c.dropHandlers installed h).now.action sig = undo installed h.now.action sig
  | [] => ⟨⟨_, rfl⟩, fun _ _ => rfl⟩
  | entry :: installed => by
    obtain ⟨⟨action, hnow⟩, hundo⟩ := @dropHandlers_now installed
    obtain ⟨⟨action', hnow'⟩, hentry⟩ := @dropHandler_now _ _ c (c.dropHandlers installed h) entry
    rw [dropHandlers_cons]
    refine ⟨⟨action', by rw [hnow', hnow]⟩, fun sig hsig => ?_⟩
    rw [List.map_cons] at hsig
    rw [hentry sig fun he => hsig (he ▸ List.mem_cons_self)]
    change _ = Function.update (undo installed h.now.action) entry.1 entry.2 sig
    by_cases he : sig = entry.1
    · rw [he, Function.update_self, Function.update_self]
    · rw [Function.update_of_ne he, Function.update_of_ne he]
      exact hundo sig fun hmem => hsig (List.mem_cons_of_mem _ hmem)

theorem dropHandlers_all (hP : Indifferent P h.now.stage) (hall : h.All P) : ∀ {installed : List (Signal × A)},
    (c.dropHandlers installed h).All P
  | [] => hall
  | entry :: installed => by
    have ih := @dropHandlers_all hP hall installed
    obtain ⟨⟨action, hnow⟩, -⟩ := @dropHandlers_now _ _ c h installed
    rw [dropHandlers_cons, dropHandler]
    split
    · exact ih
    · refine ih.next (hP _ _ _ ?_ ih.1)
      rw [hnow]

/-- What the guard leaves of forwarded signals. -/
theorem dropHandlers_back {installed : List (Signal × A)} {base : Signal → A}
    (hkeys : ∀ sig ∈ installed.map Prod.fst, sig ∈ forwardedSignals) (hundo : undo installed h.now.action = base) :
    c.Back base (c.dropHandlers installed h).now.action := by
  intro sig hsig
  rw [dropHandlers_now.2 sig fun hmem => hsig (hkeys sig hmem), hundo]

/-- What installing the handlers changes, and how it is undone. -/
theorem installHandlers_spec {base : Signal → A} : ∀ {sigs : List Signal} {installed : List (Signal × A)}
    {h h' : History (SignalState A T)} {r : Except Error (List (Signal × A))}, Indifferent P h.now.stage → h.All P →
      undo installed h.now.action = base → installed.map Prod.fst ++ sigs = forwardedSignals →
      c.installHandlers sigs installed h = (r, h') →
      h'.All P ∧ h'.now = { h.now with action := h'.now.action } ∧
        ((∃ e, r = .error e) → c.Back base h'.now.action) ∧
        ∀ handlers, r = .ok handlers → undo handlers h'.now.action = base ∧
          handlers.map Prod.fst = forwardedSignals ∧
            (∀ sig ∈ sigs, h'.now.action sig = c.handler sig) ∧ ∀ sig ∉ sigs, h'.now.action sig = h.now.action sig
  | [], installed, h, h', r, hP, hall, hundo, hkeys, hrun => by
    cases hrun
    refine ⟨hall, rfl, ?_, ?_⟩
    · intro ⟨e, he⟩
      cases he
    · intro handlers hr
      cases hr
      exact ⟨hundo, by simpa using hkeys, by simp, fun _ _ => rfl⟩
  | sig :: sigs, installed, h, h', r, hP, hall, hundo, hkeys, hrun => by
    rw [installHandlers, installSignalHandler] at hrun
    cases hfails : c.sigaction sig with
    | some e =>
      simp only [hfails] at hrun
      cases hrun
      obtain ⟨⟨action, hnow⟩, -⟩ := @dropHandlers_now _ _ c h installed
      have hback : c.Back base (c.dropHandlers installed h).now.action :=
        dropHandlers_back (fun sig' hmem => hkeys ▸ List.mem_append_left _ hmem) hundo
      refine ⟨dropHandlers_all hP hall, by rw [hnow], fun _ => hback, ?_⟩
      intro handlers hr
      cases hr
    | none =>
      simp only [hfails] at hrun
      have hset : (h.next fun st => st.setAction sig (c.handler sig)).All P := hall.next (hP _ _ _ rfl hall.1)
      have hP' : Indifferent P (h.next fun st => st.setAction sig (c.handler sig)).now.stage := hP
      obtain ⟨hall', hnow, herror, hok⟩ := installHandlers_spec hP' hset (undo_concat.trans hundo)
        (by rw [← hkeys, List.map_append, List.append_assoc]; rfl) hrun
      refine ⟨hall', hnow, herror, ?_⟩
      intro handlers hr
      obtain ⟨hbase, hkeys, hmem, hother⟩ := hok handlers hr
      refine ⟨hbase, hkeys, ?_, ?_⟩
      · intro sig' hsig'
        by_cases htail : sig' ∈ sigs
        · exact hmem sig' htail
        · obtain rfl | htail' := List.mem_cons.mp hsig'
          · rw [hother _ htail]
            exact Function.update_self ..
          · exact absurd htail' htail
      · intro sig' hsig'
        obtain ⟨hne, htail⟩ := List.ne_and_not_mem_of_not_mem_cons hsig'
        rw [hother sig' htail]
        exact Function.update_of_ne hne ..

end SupervisorCalls

/-! ## What a signal meets -/

/-- The handlers are in use. -/
def SignalStage.Looping : SignalStage → Prop
  | .loop _ | .passing _ _ | .stranded _ _ => True
  | .outside | .setup _ | .cleanup _ => False

namespace SupervisorCalls

variable {c : SupervisorCalls A T} {h h' : History (SignalState A T)}

variable {orig : Signal → A}

/-- Each forwarded signal but this stop has its handler, and the stop its default disposition. -/
def Passing (c : SupervisorCalls A T) (stop : Signal) (st : SignalState A T) : Prop :=
  isJobControlStopSignal stop = true ∧ st.action stop = c.dfl ∧
    ∀ sig ∈ forwardedSignals, sig ≠ stop → st.action sig = c.handler sig

/-- What a signal that is forwarded meets, by the stage; `orig` are the dispositions before. -/
def Met (c : SupervisorCalls A T) (orig : Signal → A) (st : SignalState A T) : Prop :=
  match st.stage with
  | .outside => True
  | .setup _ => ∀ sig ∈ forwardedSignals, st.blocked sig = true
  | .loop child => st.forwardedChildPgid = child ∧ ∀ sig ∈ forwardedSignals, st.action sig = c.handler sig
  | .passing child stop | .stranded child stop => st.forwardedChildPgid = child ∧ c.Passing stop st
  | .cleanup _ => ∀ sig ∈ forwardedSignals, c.restoreAction sig = none → st.action sig = orig sig

theorem indifferent_outside : Indifferent (c.Met orig) .outside := by
  intro st sig a hstage hst
  simp [Met, SignalState.setAction, hstage]

theorem indifferent_setup {child : Int} : Indifferent (c.Met orig) (.setup child) := by
  intro st sig a hstage hst
  simpa [Met, SignalState.setAction, hstage] using hst

/-- A stop that is passed on is a signal with a handler, if it can have one. -/
theorem forwarded_of_stop {stop : Stop} (hne : stop.sig ≠ .SIGSTOP) : stop.sig ∈ forwardedSignals := by
  have hstop := stop.isStop
  unfold isJobControlStopSignal at hstop
  cases hsig : stop.sig <;> simp_all [forwardedSignals]

theorem passing_set {st : SignalState A T} (hhandlers : ∀ sig ∈ forwardedSignals, st.action sig = c.handler sig)
    {stop : Stop} : c.Passing stop.sig (st.setAction stop.sig c.dfl) := by
  refine ⟨stop.isStop, Function.update_self .., fun sig hsig hne => ?_⟩
  exact (Function.update_of_ne hne ..).trans (hhandlers sig hsig)

/-- A stop changes the disposition of its own signal, and puts it back if it is passed on. -/
theorem suspend_spec {child : Int} {stop : Stop} {r : Except Error Unit} (hstage : h.now.stage = .loop child)
    (hall : h.All (c.Met orig)) (hrun : c.suspendSelfForJobControl stop h = (r, h')) :
    h'.All (c.Met orig) ∧ (∃ action stage, h'.now = { h.now with action, stage }) ∧
      (∀ sig, sig ∉ forwardedSignals → h'.now.action sig = h.now.action sig) ∧ (r = .ok () → h'.now = h.now) := by
  have hmet := hall.1
  simp only [Met, hstage] at hmet
  obtain ⟨hpgid, hhandlers⟩ := hmet
  unfold suspendSelfForJobControl at hrun
  dsimp only at hrun
  split at hrun
  · split at hrun <;> cases hrun <;> exact ⟨hall, ⟨_, _, rfl⟩, fun _ _ => rfl, fun _ => rfl⟩
  · next hne =>
    split at hrun
    · cases hrun
      exact ⟨hall, ⟨_, _, rfl⟩, fun _ _ => rfl, fun _ => rfl⟩
    · have hdefault : (h.next fun st => { st.setAction stop.sig c.dfl with stage := st.stage.pass stop.sig }).All
          (c.Met orig) := by
        refine hall.next ?_
        simp only [Met, hstage, SignalStage.pass]
        exact ⟨hpgid, passing_set hhandlers⟩
      have hback : { ({ h.now.setAction stop.sig c.dfl with stage := h.now.stage.pass stop.sig } :
            SignalState A T).setAction stop.sig (h.now.action stop.sig) with
          stage := (h.now.stage.pass stop.sig).resume } = h.now := by
        have hrest : (h.now.stage.pass stop.sig).resume = h.now.stage := by
          rw [hstage]
          rfl
        simp [SignalState.setAction, hrest]
      have hlost : ((h.next fun st => { st.setAction stop.sig c.dfl with stage := st.stage.pass stop.sig }).next
          fun st => { st with stage := st.stage.strand }).All (c.Met orig) := by
        refine hdefault.next ?_
        simp only [Met, History.next_now, hstage, SignalStage.pass, SignalStage.strand]
        exact ⟨hpgid, passing_set hhandlers⟩
      have hother : ∀ sig, sig ∉ forwardedSignals →
          Function.update h.now.action stop.sig c.dfl sig = h.now.action sig := by
        intro sig hsig
        refine Function.update_of_ne ?_ ..
        rintro rfl
        exact hsig (forwarded_of_stop hne)
      have hrestored := hdefault.next (f := fun st =>
        { st.setAction stop.sig (h.now.action stop.sig) with stage := st.stage.resume }) (by
          rw [History.next_now, hback]
          exact hall.1)
      split at hrun
      · cases hrun
        exact ⟨hrestored, ⟨_, _, rfl⟩, fun sig _ => congrArg (·.action sig) hback, fun _ => hback⟩
      · cases hrun
        exact ⟨hlost, ⟨_, _, rfl⟩, hother, nofun⟩
      · cases hrun
        exact ⟨hrestored, ⟨_, _, rfl⟩, fun sig _ => congrArg (·.action sig) hback, nofun⟩
      · cases hrun
        exact ⟨hlost, ⟨_, _, rfl⟩, hother, nofun⟩

/-- The stops are passed on one after another, and each handler is put back. -/
theorem passOnStops_spec {child : Int} : ∀ {stops : List Stop} {h h' : History (SignalState A T)} {r : Except Error Unit},
    h.now.stage = .loop child → h.All (c.Met orig) → c.passOnStops stops h = (r, h') →
      h'.All (c.Met orig) ∧ (∃ action stage, h'.now = { h.now with action, stage }) ∧
        ∀ sig, sig ∉ forwardedSignals → h'.now.action sig = h.now.action sig
  | [], h, h', r, hstage, hall, hrun => by
    cases hrun
    exact ⟨hall, ⟨_, _, rfl⟩, fun _ _ => rfl⟩
  | stop :: stops, h, h', r, hstage, hall, hrun => by
    rw [passOnStops] at hrun
    cases hsuspend : c.suspendSelfForJobControl stop h with
    | mk r₁ h₁ =>
      obtain ⟨hall₁, hnow₁, hother₁, hsame₁⟩ := suspend_spec hstage hall hsuspend
      rw [hsuspend] at hrun
      cases r₁ with
      | error e =>
        cases hrun
        exact ⟨hall₁, hnow₁, hother₁⟩
      | ok =>
        have hsame := hsame₁ rfl
        obtain ⟨hall', ⟨action, stage, hnow⟩, hother⟩ := passOnStops_spec (hsame ▸ hstage) hall₁ hrun
        exact ⟨hall', ⟨action, stage, by rw [hnow, hsame]⟩, fun sig hsig => (hother sig hsig).trans (by rw [hsame])⟩

/-! ## The run -/

/-- Out of the loop the process group does not matter. -/
theorem all_pgid (pgid : Int) (hstage : ¬h.now.stage.Looping) (hall : h.All (c.Met orig)) :
    (h.next fun st => { st with forwardedChildPgid := pgid }).All (c.Met orig) := by
  refine hall.next ?_
  have hmet := hall.1
  cases hst : h.now.stage with
  | loop | passing | stranded =>
    rw [hst] at hstage
    exact absurd trivial hstage
  | outside => simp [Met]
  | setup child => simpa [Met, hst] using hmet
  | cleanup child => simpa [Met, hst] using hmet

/-- The set-up of the parent leaves nothing behind where it fails. -/
theorem setUp_spec {child : Int} {r : Except Error (List (Signal × A))} (hstage : h.now.stage = .setup child)
    (hall : h.All (c.Met orig)) (horig : h.now.action = orig) (hrun : c.setUp child h = (r, h')) :
    h'.All (c.Met orig) ∧
      (∃ action pgid, h'.now = { h.now with action := action, forwardedChildPgid := pgid }) ∧
        ((∃ e, r = .error e) → c.Back orig h'.now.action) ∧
          ∀ handlers, r = .ok handlers → undo handlers h'.now.action = orig ∧ handlers.map Prod.fst = forwardedSignals ∧
            (∀ sig ∈ forwardedSignals, h'.now.action sig = c.handler sig) ∧ h'.now.forwardedChildPgid = child := by
  unfold setUp at hrun
  split at hrun
  · cases hrun
    exact ⟨hall, ⟨_, _, rfl⟩, fun _ _ _ => by rw [horig], nofun⟩
  · have hP : Indifferent (c.Met orig) (h.next fun st => { st with forwardedChildPgid := child }).now.stage := by
      rw [History.next_now, hstage]
      exact indifferent_setup
    have hpgid := all_pgid child (by simp [hstage, SignalStage.Looping]) hall
    obtain ⟨hall', hnow, herror, hok⟩ := installHandlers_spec hP hpgid (show undo [] _ = orig from horig) rfl hrun
    refine ⟨hall', ⟨_, _, hnow⟩, herror, fun handlers hr => ?_⟩
    obtain ⟨hbase, hkeys, hmem, -⟩ := hok handlers hr
    exact ⟨hbase, hkeys, hmem, by rw [hnow]; rfl⟩

theorem all_termios (termios : T) (hall : h.All (c.Met orig)) :
    (h.next fun st => { st with termios := termios }).All (c.Met orig) :=
  hall.next hall.1

theorem all_outside (hall : h.All (c.Met orig)) :
    (h.next fun st => { st with stage := .outside }).All (c.Met orig) :=
  hall.next trivial

theorem returnWithSetupChildCleanup_ne_ok {err : Error} {code : Int} : c.returnWithSetupChildCleanup err ≠ .ok code := by
  unfold returnWithSetupChildCleanup
  split <;> simp

/-- The mask is restored, or it is as it was. -/
theorem restoreSignalMask_spec {oldMask : Signal → Bool} {next : SignalStage} {r : Except Error Unit}
    (hrun : c.restoreSignalMask oldMask next h = (r, h')) :
    (∃ e, c.restoreMask ≠ none ∧ r = .error e ∧ h' = h) ∨
      (c.restoreMask = none ∧ r = .ok () ∧ h' = h.next fun st => { st with blocked := oldMask, stage := next }) := by
  unfold restoreSignalMask at hrun
  split at hrun
  · next e he =>
    cases hrun
    exact .inl ⟨_, by simp [he], rfl, rfl⟩
  · next he =>
    cases hrun
    exact .inr ⟨he, rfl, rfl⟩

/-- What is left of the parent's steps. -/
structure Left (c : SupervisorCalls A T) (orig : Signal → A) (oldMask : Signal → Bool) (termios : T)
    (st : SignalState A T) (r : Except Error Int) : Prop where
  action : c.Back orig st.action
  termios : st.termios = termios
  pgid : st.forwardedChildPgid = 0
  blocked : (c.restoreMask = none ∨ ∃ code, r = .ok code) → st.blocked = oldMask

/-- The set-up fails. -/
theorem parent_failed {child : Int} {oldMask : Signal → Bool} {r : Except Error Int} {h₁ : History (SignalState A T)}
    {e : Error} (hsetup : c.setUp child h = (.error e, h₁)) (hstage : h.now.stage = .setup child)
    (hall : h.All (c.Met orig)) (horig : h.now.action = orig) (hrun : c.parent oldMask child h = (r, h')) :
    h'.All (c.Met orig) ∧ c.Left orig oldMask h.now.termios h'.now r := by
  obtain ⟨hall₁, ⟨action, pgid, hnow₁⟩, herror, -⟩ := setUp_spec hstage hall horig hsetup
  have haction₁ := herror ⟨e, rfl⟩
  have hstage₁ : h₁.now.stage = .setup child := by rw [hnow₁]; exact hstage
  have htermios₁ : h₁.now.termios = h.now.termios := by rw [hnow₁]
  unfold parent at hrun
  rw [hsetup] at hrun
  cases hmask : c.restoreSignalMask oldMask (.cleanup child) h₁ with
  | mk r₂ h₂ =>
    simp only [hmask] at hrun
    cases hrun
    obtain ⟨_, hfails, rfl, rfl⟩ | ⟨hok, rfl, rfl⟩ := restoreSignalMask_spec hmask
    · have hpgid := all_pgid 0 (by simp [hstage₁, SignalStage.Looping]) hall₁
      refine ⟨all_outside hpgid, haction₁, htermios₁, rfl, ?_⟩
      intro hr
      obtain hr | ⟨code, hr⟩ := hr
      · exact absurd hr hfails
      · exact absurd hr returnWithSetupChildCleanup_ne_ok
    · have hcleanup : (h₁.next fun st => { st with blocked := oldMask, stage := .cleanup child }).All (c.Met orig) := by
        exact hall₁.next fun sig _ hok => haction₁ sig fun _ => hok
      have hpgid := all_pgid 0 (by simp [SignalStage.Looping]) hcleanup
      exact ⟨all_outside hpgid, haction₁, htermios₁, rfl, fun _ => rfl⟩

/-- The mask cannot be restored. -/
theorem parent_unrestored {child : Int} {oldMask : Signal → Bool} {r : Except Error Int}
    {h₁ : History (SignalState A T)} {handlers : List (Signal × A)} (hsetup : c.setUp child h = (.ok handlers, h₁))
    (hfails : c.restoreMask ≠ none) (hstage : h.now.stage = .setup child) (hall : h.All (c.Met orig))
    (horig : h.now.action = orig) (hrun : c.parent oldMask child h = (r, h')) :
    h'.All (c.Met orig) ∧ c.Left orig oldMask h.now.termios h'.now r := by
  obtain ⟨hall₁, ⟨action, pgid, hnow₁⟩, -, hok⟩ := setUp_spec hstage hall horig hsetup
  obtain ⟨hundo, hkeys, -, -⟩ := hok handlers rfl
  have hstage₁ : h₁.now.stage = .setup child := by rw [hnow₁]; exact hstage
  have htermios₁ : h₁.now.termios = h.now.termios := by rw [hnow₁]
  obtain ⟨e, hmask⟩ := Option.ne_none_iff_exists'.mp hfails
  unfold parent at hrun
  simp only [hsetup, restoreSignalMask, hmask] at hrun
  cases hrun
  have hpgid := all_pgid 0 (by simp [hstage₁, SignalStage.Looping]) hall₁
  have hP : Indifferent (c.Met orig) (h₁.next fun st => { st with forwardedChildPgid := 0 }).now.stage := by
    rw [History.next_now, hstage₁]
    exact indifferent_setup
  have hdropped := @dropHandlers_all _ _ c _ _ hP hpgid handlers
  have hback : c.Back orig (c.dropHandlers handlers (h₁.next fun st => { st with forwardedChildPgid := 0 })).now.action :=
    dropHandlers_back (fun sig hmem => hkeys ▸ hmem) hundo
  obtain ⟨⟨action', hnow⟩, -⟩ := @dropHandlers_now _ _ c (h₁.next fun st => { st with forwardedChildPgid := 0 }) handlers
  refine ⟨all_outside hdropped, hback, ?_, ?_, ?_⟩
  · rw [History.next_now, hnow]
    exact htermios₁
  · rw [History.next_now, hnow]
    rfl
  · intro hr
    obtain hr | ⟨code, hr⟩ := hr
    · exact absurd hr hfails
    · exact absurd hr returnWithSetupChildCleanup_ne_ok

theorem superviseDirectChild_history {child : Int} :
    (c.superviseDirectChild child h).2 = (c.passOnStops c.stops h).2 := by
  unfold superviseDirectChild
  split <;> simp_all

/-- The loop is reached. -/
theorem parent_supervised {child : Int} {oldMask : Signal → Bool} {r : Except Error Int}
    {h₁ : History (SignalState A T)} {handlers : List (Signal × A)} (hsetup : c.setUp child h = (.ok handlers, h₁))
    (hmask : c.restoreMask = none) (hstage : h.now.stage = .setup child) (hall : h.All (c.Met orig))
    (horig : h.now.action = orig) (hrun : c.parent oldMask child h = (r, h')) :
    h'.All (c.Met orig) ∧ c.Left orig oldMask h.now.termios h'.now r := by
  obtain ⟨hall₁, ⟨action, pgid, hnow₁⟩, -, hok⟩ := setUp_spec hstage hall horig hsetup
  obtain ⟨hundo, hkeys, hhandlers, hpgid⟩ := hok handlers rfl
  have htermios₁ : h₁.now.termios = h.now.termios := by rw [hnow₁]
  let h₂ := h₁.next fun st => { st with blocked := oldMask, stage := .loop child }
  have hall₂ : h₂.All (c.Met orig) := by
    refine hall₁.next ?_
    exact ⟨hpgid, hhandlers⟩
  obtain ⟨hall₃, hnow₃, hother⟩ := passOnStops_spec rfl hall₂ (Prod.eta (c.passOnStops c.stops h₂)).symm
  rw [← @superviseDirectChild_history _ _ c _ child] at hall₃ hnow₃ hother
  generalize hloop : c.superviseDirectChild child h₂ = loop at hall₃ hnow₃ hother
  obtain ⟨r₃, h₃⟩ := loop
  obtain ⟨action₃, stage₃, hnow₃⟩ := hnow₃
  have hdropped := @dropHandlers_all _ _ c (h₃.next fun st => { st with forwardedChildPgid := 0, stage := .outside })
    (c.Met orig) indifferent_outside (hall₃.next trivial) handlers
  obtain ⟨⟨action, hnow⟩, -⟩ :=
    @dropHandlers_now _ _ c (h₃.next fun st => { st with forwardedChildPgid := 0, stage := .outside }) handlers
  have haction : undo handlers h₃.now.action = orig := by
    funext sig
    rw [← hundo]
    refine undo_agree fun hsig => ?_
    exact hother sig (hkeys ▸ hsig)
  have hleft : ∀ r, c.Left orig oldMask h.now.termios
      (c.dropHandlers handlers (h₃.next fun st => { st with forwardedChildPgid := 0, stage := .outside })).now r := by
    intro r
    refine ⟨dropHandlers_back (fun sig hmem => hkeys ▸ hmem) haction, ?_, ?_, ?_⟩
    · rw [hnow, History.next_now, hnow₃]
      exact htermios₁
    · rw [hnow]
      rfl
    · rw [hnow, History.next_now, hnow₃]
      exact fun _ => rfl
  unfold parent at hrun
  simp only [hsetup, restoreSignalMask, hmask] at hrun
  rw [hloop] at hrun
  dsimp only at hrun
  split at hrun
  · cases hrun
    exact ⟨hdropped, hleft _⟩
  · cases hrun
    exact ⟨hdropped, hleft _⟩

theorem parent_spec {child : Int} {oldMask : Signal → Bool} {r : Except Error Int} (hstage : h.now.stage = .setup child)
    (hall : h.All (c.Met orig)) (horig : h.now.action = orig) (hrun : c.parent oldMask child h = (r, h')) :
    h'.All (c.Met orig) ∧ c.Left orig oldMask h.now.termios h'.now r := by
  cases hsetup : c.setUp child h with
  | mk r₁ h₁ =>
    cases r₁ with
    | error e => exact parent_failed hsetup hstage hall horig hrun
    | ok handlers =>
      by_cases hmask : c.restoreMask = none
      · exact parent_supervised hsetup hmask hstage hall horig hrun
      · exact parent_unrestored hsetup hmask hstage hall horig hrun

/-- Of the mask nothing is asked where it cannot be restored. -/
theorem left_restored {oldMask : Signal → Bool} {termios : T} {e : Error} (haction : h.now.action = orig)
    (htermios : h.now.termios = termios) (hpgid : h.now.forwardedChildPgid = 0) :
    c.Left orig oldMask termios (c.restoreSignalMask oldMask .outside h).2.now (.error e) := by
  have hback : c.Back orig h.now.action := fun _ _ => by rw [haction]
  obtain ⟨_, hfails, -, hh'⟩ | ⟨hok, -, hh'⟩ :=
    restoreSignalMask_spec (Prod.eta (c.restoreSignalMask oldMask .outside h)).symm
  · rw [hh']
    refine ⟨hback, htermios, hpgid, ?_⟩
    intro hr
    obtain hr | ⟨code, hr⟩ := hr
    · exact absurd hr hfails
    · cases hr
  · rw [hh']
    exact ⟨hback, htermios, hpgid, fun _ => rfl⟩

theorem all_restored {oldMask : Signal → Bool} (hall : h.All (c.Met orig)) :
    (c.restoreSignalMask oldMask .outside h).2.All (c.Met orig) := by
  obtain ⟨_, -, -, hh'⟩ | ⟨-, -, hh'⟩ :=
    restoreSignalMask_spec (Prod.eta (c.restoreSignalMask oldMask .outside h)).symm
  · rw [hh']
    exact hall
  · rw [hh']
    exact hall.next trivial

theorem all_blocked (hall : h.All (c.Met orig)) (hstage : h.now.stage = .outside) :
    (h.next fun st => { st with blocked := fun sig => st.blocked sig || sig ∈ forwardedSignals }).All (c.Met orig) := by
  refine hall.next ?_
  simp [Met, hstage]

theorem all_forked (child : Int) (hall : h.All (c.Met orig)) (hblocked : ∀ sig ∈ forwardedSignals, h.now.blocked sig = true) :
    (h.next fun st => { st with stage := .setup child }).All (c.Met orig) :=
  hall.next hblocked

theorem supervise_spec {r : Except Error Int} (hstage : h.now.stage = .outside) (hall : h.All (c.Met orig))
    (horig : h.now.action = orig) (hpgid : h.now.forwardedChildPgid = 0) (hrun : c.supervise h = (r, h')) :
    h'.All (c.Met orig) ∧ c.Left orig h.now.blocked h.now.termios h'.now r := by
  have hzero := all_pgid 0 (by simp [hstage, SignalStage.Looping]) hall
  have hback : c.Back orig h.now.action := fun _ _ => by rw [horig]
  unfold supervise blockForwardedSignals at hrun
  split at hrun
  · cases hrun
    exact ⟨hall, hback, rfl, hpgid, fun _ => rfl⟩
  · cases hblock : c.block with
    | some e =>
      simp only [hblock] at hrun
      cases hrun
      exact ⟨hzero, hback, rfl, rfl, fun _ => rfl⟩
    | none =>
      simp only [hblock] at hrun
      have hblocked := all_blocked hzero hstage
      split at hrun
      · cases hrun
        exact ⟨all_restored hblocked, left_restored horig rfl rfl⟩
      · split at hrun
        · cases hrun
          exact ⟨all_restored hblocked, left_restored horig rfl rfl⟩
        · next child _ =>
          have hforked := all_forked child hblocked (fun sig hsig => by simp [hsig])
          have hparent := parent_spec (by rfl) hforked horig hrun
          exact hparent

/-- Only what is forwarded matters. -/
theorem met_congr {orig' : Signal → A} {st : SignalState A T} (horig : ∀ sig ∈ forwardedSignals, orig sig = orig' sig)
    (hmet : c.Met orig st) : c.Met orig' st := by
  unfold Met at hmet ⊢
  cases hstage : st.stage with
  | outside => trivial
  | setup | loop | passing | stranded => simpa only [hstage] using hmet
  | cleanup child =>
    simp only [hstage] at hmet ⊢
    exact fun sig hsig hok => (hmet sig hsig hok).trans (horig sig hsig)

end SupervisorCalls

/-- The state `run_supervisor` is called in. -/
def SignalState.initial (blocked : Signal → Bool) (action : Signal → A) (termios : T) : SignalState A T :=
  { blocked := blocked, action := action, termios := termios, forwardedChildPgid := 0 }

namespace SupervisorCalls

variable (c : SupervisorCalls A T) (blocked : Signal → Bool) (action : Signal → A) (termios : T)

theorem dropTerminal_spec {c : SupervisorCalls A T} {original : T} {h : History (SignalState A T)} :
    (c.dropTerminal original h = h ∨ c.dropTerminal original h = h.next fun st => { st with termios := original }) ∧
      (c.restoreTermios = none → (c.dropTerminal original h).now.termios = original) := by
  unfold dropTerminal
  cases c.restoreTermios with
  | some e => exact ⟨.inl rfl, nofun⟩
  | none => exact ⟨.inr rfl, fun _ => rfl⟩

theorem dropTerminal_all {c : SupervisorCalls A T} {orig : Signal → A} {original : T} {h : History (SignalState A T)}
    (hall : h.All (c.Met orig)) : (c.dropTerminal original h).All (c.Met orig) := by
  obtain ⟨hdrop | hdrop, -⟩ := @dropTerminal_spec _ _ c original h
  · rwa [hdrop]
  · rw [hdrop]
    exact all_termios original hall

theorem dropTerminal_now {c : SupervisorCalls A T} {original : T} {h : History (SignalState A T)} :
    ∃ termios, (c.dropTerminal original h).now = { h.now with termios } := by
  obtain ⟨hdrop | hdrop, -⟩ := @dropTerminal_spec _ _ c original h
  · exact ⟨h.now.termios, by rw [hdrop]⟩
  · exact ⟨original, by rw [hdrop, History.next_now]⟩

/-- The guard remembers the settings of the terminal, or has not changed them. -/
theorem terminalGuard_spec {c : SupervisorCalls A T} {orig : Signal → A} {h h' : History (SignalState A T)}
    {r : Except Error T} (hall : h.All (c.Met orig)) (hrun : c.terminalGuard h = (r, h')) :
    h'.All (c.Met orig) ∧ (∃ termios, h'.now = { h.now with termios := termios }) ∧
      (∀ e, r = .error e → h'.now.termios = h.now.termios) ∧ ∀ original, r = .ok original → original = h.now.termios := by
  unfold terminalGuard at hrun
  split at hrun
  · cases hrun
    exact ⟨hall, ⟨_, rfl⟩, fun _ _ => rfl, nofun⟩
  · dsimp only at hrun
    split at hrun
    · cases hrun
      refine ⟨dropTerminal_all hall, dropTerminal_now, fun _ _ => ?_, nofun⟩
      obtain ⟨hdrop | hdrop, -⟩ := @dropTerminal_spec _ _ c h.now.termios h
      · rw [hdrop]
      · rw [hdrop, History.next_now]
    · cases hrun
      exact ⟨all_termios _ hall, ⟨_, rfl⟩, nofun, fun _ hr => (Except.ok.inj hr).symm⟩

/-- Of every run: what is met in it, and what is left after it. -/
structure RunSpec (r : Except Error Int) (h' : History (SignalState A T)) (orig : Signal → A) : Prop where
  all : h'.All (c.Met action)
  action : ∀ sig, sig ≠ .SIGWINCH ∨ c.stdinIsTty = false → orig sig = action sig
  back : c.Back orig h'.now.action
  termios : (c.stdinIsTty = true → c.restoreTermios = none) → h'.now.termios = termios
  pgid : h'.now.forwardedChildPgid = 0
  blocked : (c.restoreMask = none ∨ ∃ code, r = .ok code) → h'.now.blocked = blocked

variable {c blocked action termios}

theorem RunSpec.dropTerminal {r : Except Error Int} {h : History (SignalState A T)} {orig : Signal → A}
    {oldMask : Signal → Bool} {raw : T} (htty : c.stdinIsTty = true) (hall : h.All (c.Met action))
    (haction : ∀ sig, sig ≠ .SIGWINCH ∨ c.stdinIsTty = false → orig sig = action sig)
    (hleft : c.Left orig oldMask raw h.now r) :
    c.RunSpec oldMask action termios r (c.dropTerminal termios h) orig := by
  obtain ⟨_, hnow⟩ := @dropTerminal_now _ _ c termios h
  refine ⟨dropTerminal_all hall, haction, ?_, fun hok => dropTerminal_spec.2 (hok htty), ?_, ?_⟩
  · rw [hnow]
    exact hleft.action
  · rw [hnow]
    exact hleft.pgid
  · rw [hnow]
    exact hleft.blocked

/-- The terminal is set up, and the handler for its size is next. -/
theorem terminal_spec {raw : T} {r : Except Error Int} {h h' h'' : History (SignalState A T)} {res : Except Error A}
    (hall : h.All (c.Met action)) (hnow : h.now = .initial blocked action raw) (htty : c.stdinIsTty = true)
    (hinstall : c.installSignalHandler .SIGWINCH h = (res, h'))
    (hrun : (match res with | .error e => (.error e, h') | .ok _ => c.supervise h') = (r, h'')) :
    ∃ orig, c.RunSpec blocked action termios r (c.dropTerminal termios h'') orig := by
  unfold installSignalHandler at hinstall
  cases hfails : c.sigaction .SIGWINCH with
  | some e =>
    simp only [hfails] at hinstall
    cases hinstall
    cases hrun
    have hleft : ∀ e, c.Left action blocked raw h.now (.error e) := by
      rw [hnow]
      exact fun _ => ⟨fun _ _ => rfl, rfl, rfl, fun _ => rfl⟩
    exact ⟨action, .dropTerminal htty hall (fun _ _ => rfl) (hleft _)⟩
  | none =>
    simp only [hfails] at hinstall
    cases hinstall
    have hsame : ∀ sig ≠ .SIGWINCH, Function.update action .SIGWINCH (c.handler .SIGWINCH) sig = action sig :=
      fun sig hsig => Function.update_of_ne hsig ..
    have hforwarded : ∀ sig ∈ forwardedSignals,
        Function.update action .SIGWINCH (c.handler .SIGWINCH) sig = action sig :=
      fun sig hsig => hsame sig (by rintro rfl; simp [forwardedSignals] at hsig)
    have hinstalled : (h.next fun st => st.setAction .SIGWINCH (c.handler .SIGWINCH)).All
        (c.Met (Function.update action .SIGWINCH (c.handler .SIGWINCH))) := by
      have hall' := hall.mono fun st => met_congr fun sig hsig => (hforwarded sig hsig).symm
      refine hall'.next ?_
      rw [hnow]
      trivial
    obtain ⟨hall', hleft⟩ := supervise_spec (by rw [History.next_now, hnow]; rfl) hinstalled
      (by rw [History.next_now, hnow]; rfl) (by rw [History.next_now, hnow]; rfl) hrun
    rw [History.next_now, hnow] at hleft
    refine ⟨_, .dropTerminal htty (hall'.mono fun st => met_congr hforwarded) ?_ hleft⟩
    intro sig hsig
    obtain hsig | hsig := hsig
    · exact hsame sig hsig
    · simp [hsig] at htty

theorem runSupervisor_spec {r : Except Error Int} {h' : History (SignalState A T)}
    (hrun : c.runSupervisor ⟨.initial blocked action termios, []⟩ = (r, h')) :
    ∃ orig, c.RunSpec blocked action termios r h' orig := by
  have hstart : (⟨.initial blocked action termios, []⟩ : History (SignalState A T)).All (c.Met action) :=
    ⟨trivial, by simp⟩
  unfold runSupervisor at hrun
  split at hrun
  · next htty =>
    cases hguard : c.terminalGuard ⟨.initial blocked action termios, []⟩ with
    | mk r₁ h₁ =>
      obtain ⟨hall₁, ⟨raw, hnow₁⟩, herror₁, hok₁⟩ := terminalGuard_spec hstart hguard
      rw [hguard] at hrun
      cases r₁ with
      | error e =>
        cases hrun
        refine ⟨action, hall₁, fun _ _ => rfl, fun _ _ => ?_, fun _ => herror₁ e rfl, ?_, fun _ => ?_⟩
        all_goals
          rw [hnow₁]
          rfl
      | ok original =>
        obtain rfl := hok₁ original rfl
        cases hinstall : c.installSignalHandler .SIGWINCH h₁ with
        | mk r₂ h₂ =>
          simp only [hinstall] at hrun
          cases hrun
          cases r₂ with
          | error e => exact terminal_spec hall₁ hnow₁ htty hinstall rfl
          | ok old => exact terminal_spec hall₁ hnow₁ htty hinstall rfl
  · next htty =>
    obtain ⟨hall, hleft⟩ := supervise_spec rfl hstart rfl rfl hrun
    exact ⟨action, hall, fun _ _ => rfl, hleft.action, fun _ => hleft.termios, hleft.pgid, hleft.blocked⟩

variable (c blocked action termios)

/-- Whichever calls fail, the signals are left as they were, and so is the terminal: except
for what a guard fails to put back, and for the handler for the terminal's size. -/
theorem runSupervisor_restores :
    let run := c.runSupervisor ⟨.initial blocked action termios, []⟩
    ((c.stdinIsTty = true → c.restoreTermios = none) → run.2.now.termios = termios) ∧
      run.2.now.forwardedChildPgid = 0 ∧
        (∀ sig, (sig ≠ .SIGWINCH ∨ c.stdinIsTty = false) → (sig ∈ forwardedSignals → c.restoreAction sig = none) →
          run.2.now.action sig = action sig) ∧
          ((c.restoreMask = none ∨ ∃ code, run.1 = .ok code) → run.2.now.blocked = blocked) := by
  obtain ⟨orig, hspec⟩ :=
    runSupervisor_spec (Prod.eta (c.runSupervisor ⟨.initial blocked action termios, []⟩)).symm
  refine ⟨hspec.termios, hspec.pgid, fun sig hsize hback => ?_, hspec.blocked⟩
  exact (hspec.back sig hback).trans (hspec.action sig hsize)

/-- From the fork on a forwarded signal waits, or finds its handler and the child's
process group, or is the stop that is just passed on, or is dealt with as before. -/
theorem no_signal_astray : (c.runSupervisor ⟨.initial blocked action termios, []⟩).2.All (c.Met action) := by
  obtain ⟨orig, hspec⟩ :=
    runSupervisor_spec (Prod.eta (c.runSupervisor ⟨.initial blocked action termios, []⟩)).symm
  exact hspec.all

end SupervisorCalls
end SecureSudoers
