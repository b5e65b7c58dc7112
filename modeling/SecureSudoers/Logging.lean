/-
Where the log goes (`logging.rs`, and the two initialisations in `main.rs`).

`tracing` has one global subscriber, which is set once: a later `try_init` is an
error, and the code drops it. `main` calls `init_logging_fallback` before the
policy is loaded, so that `init_logging` comes second, and every event of a run
is written by the fallback. `main_writes_iff` says for which policies that is
the sink they name.
-/
import SecureSudoers.Main

namespace SecureSudoers

variable {D : Type}

inductive Level where
  | error
  | warn
  | info
  | debug
  deriving DecidableEq, Repr

/-- An event as it is handed to the subscriber; its fields as they are displayed. -/
structure TracingEvent where
  level : Level
  message : Str
  securityEventJson : Option Str
  fields : List (Str × Str)
  deriving DecidableEq, Repr

/-- How `tracing_subscriber::fmt` prints. -/
inductive Format where
  | text
  | json
  deriving DecidableEq, Repr

/-- What `main` can set as the global subscriber; `syslog` is the `SyslogLayer`. -/
inductive Sink where
  | syslog
  | stdout (format : Format)
  deriving DecidableEq, Repr

/-- One line of the log. -/
inductive Line where
  /-- A message to `LOG_AUTHPRIV`. -/
  | syslog (severity : Level) (msg : Str)
  /-- The event as `tracing_subscriber` prints it. -/
  | stdout (format : Format) (ev : TracingEvent)
  deriving DecidableEq, Repr

/-- `serde_json`, as `JsonVisitor` uses it. -/
structure SerdeJson where
  /-- A recorded text parsed and printed again, or as it is where it is no JSON. -/
  normalize : Str → Str
  /-- The object of the fields, of the message and of the level. -/
  object : TracingEvent → Str

/-- `JsonVisitor::finish` on the fields of `ev`. -/
def SerdeJson.finish (json : SerdeJson) (ev : TracingEvent) : Str :=
  match ev.securityEventJson with
  | some text => json.normalize text
  | none => json.object ev

/-- The line a subscriber writes for an event; for syslog that is `SyslogLayer::on_event`. -/
def Sink.line (json : SerdeJson) : Sink → TracingEvent → Line
  | .syslog, ev => .syslog ev.level (json.finish ev)
  | .stdout format, ev => .stdout format ev

/-! ## The global subscriber -/

/-- `try_init`, its result dropped. -/
def tryInit (global : Option Sink) (sink : Sink) : Option Sink := some (global.getD sink)

theorem tryInit_none (sink : Sink) : tryInit none sink = some sink := rfl

def initLoggingFallback (global : Option Sink) : Option Sink := tryInit global (.stdout .text)

def requestedFormat (settings : GlobalSettings) : Format :=
  if settings.logFormat = "json".toList then .json else .text

def initStdout (settings : GlobalSettings) (global : Option Sink) : Option Sink :=
  tryInit global (.stdout (requestedFormat settings))

/-- `none` where `eprintln!` panics. -/
def initSyslog (w : World D) (settings : GlobalSettings) (global : Option Sink) : Option (Option Sink) :=
  match w.syslog with
  | none => some (tryInit global .syslog)
  | some e => if w.stderrFails (syslogUnavailableMsg e) then none else some (initStdout settings global)

/-- `init_logging`, as it changes the global subscriber. -/
def initLoggingGlobal (w : World D) (settings : GlobalSettings) (global : Option Sink) : Option (Option Sink) :=
  if settings.logDestination = "syslog".toList then initSyslog w settings global
  else some (initStdout settings global)

/-- The subscriber of a run of `main` after `init_logging`; `none` where the run panicked in it. -/
def mainSubscriber (w : World D) (settings : GlobalSettings) : Option (Option Sink) :=
  initLoggingGlobal w settings (initLoggingFallback none)

/-- What a run of `main` writes for an event after `init_logging`. -/
def mainWrites (json : SerdeJson) (w : World D) (settings : GlobalSettings) (ev : TracingEvent) : List Line :=
  match mainSubscriber w settings with
  | some (some sink) => [sink.line json ev]
  | _ => []

/-! ## The sink of the policy -/

/-- The sink the policy names: syslog, where it asks for it and the socket can
be opened, otherwise standard output in the requested format. -/
def namedSink (w : World D) (settings : GlobalSettings) : Sink :=
  if settings.logDestination = "syslog".toList ∧ w.syslog = none then .syslog
  else .stdout (requestedFormat settings)

/-- The run ends in `init_logging`, since it cannot say that syslog is unavailable. -/
def PanicsInLogging (w : World D) (settings : GlobalSettings) : Prop :=
  settings.logDestination = "syslog".toList ∧ ∃ e, w.syslog = some e ∧ w.stderrFails (syslogUnavailableMsg e) = true

variable {json : SerdeJson} {w : World D} {settings : GlobalSettings}

theorem initLoggingGlobal_eq_none {global : Option Sink} :
    initLoggingGlobal w settings global = none ↔ PanicsInLogging w settings := by
  unfold initLoggingGlobal initSyslog PanicsInLogging
  by_cases hdest : settings.logDestination = "syslog".toList
  · rw [if_pos hdest, and_iff_right hdest]
    cases w.syslog with
    | none => simp
    | some e => simp
  · rw [if_neg hdest]
    exact iff_of_false (Option.some_ne_none _) fun h => hdest h.1

/-- Called first, `init_logging` sets the sink the policy names; a subscriber that is set, it leaves. -/
theorem initLoggingGlobal_eq (global : Option Sink) (h : ¬PanicsInLogging w settings) :
    initLoggingGlobal w settings global = some (some (global.getD (namedSink w settings))) := by
  unfold initLoggingGlobal initSyslog initStdout namedSink
  by_cases hdest : settings.logDestination = "syslog".toList
  · rw [if_pos hdest]
    cases hsys : w.syslog with
    | none =>
      rw [if_pos ⟨hdest, rfl⟩]
      rfl
    | some e =>
      have hsaid : w.stderrFails (syslogUnavailableMsg e) ≠ true := fun hfail => h ⟨hdest, e, hsys, hfail⟩
      rw [if_neg fun hn => Option.some_ne_none _ hn.2]
      simp only [if_neg hsaid, tryInit]
  · rw [if_neg hdest, if_neg fun hn => hdest hn.1]
    rfl

theorem mainWrites_eq (ev : TracingEvent) (h : ¬PanicsInLogging w settings) :
    mainWrites json w settings ev = [.stdout .text ev] := by
  unfold mainWrites mainSubscriber
  rw [initLoggingFallback, tryInit_none, initLoggingGlobal_eq _ h]
  rfl

/-- Two sinks are told apart by what they write of any one event. -/
theorem Sink.line_inj {sink sink' : Sink} {ev : TracingEvent} : sink.line json ev = sink'.line json ev ↔ sink = sink' := by
  cases sink <;> cases sink' <;> simp [Sink.line]

/-- **A run that gets past `init_logging` writes an event as its policy asks
exactly when the policy asks for text on standard output.** -/
theorem main_writes_iff (json : SerdeJson) (w : World D) (policy : SecureSudoersPolicy) (ev : TracingEvent) :
    (¬PanicsInLogging w policy.globalSettings → mainWrites json w policy.globalSettings ev =
      [(namedSink w policy.globalSettings).line json ev]) ↔
      PanicsInLogging w policy.globalSettings ∨ namedSink w policy.globalSettings = .stdout .text := by
  by_cases h : PanicsInLogging w policy.globalSettings
  · exact iff_of_true (absurd h) (.inl h)
  · rw [mainWrites_eq ev h, or_iff_right h, eq_comm (a := namedSink ..)]
    refine ⟨fun hline => ?_, fun hsink _ => ?_⟩
    · exact Sink.line_inj.mp (List.singleton_inj.mp (hline h))
    · rw [← hsink]
      rfl

/-- `apt` called without an argument. -/
def bareApt : World Nat :=
  { binaryArgument with
    process :=
      { argv := [Utf8.encode "/usr/local/bin/apt"], env := fun _ => none, cmdlineError := none
        argv_noNul := by decide } }

def serdeText : SerdeJson := { normalize := id, object := fun ev => ev.message }

/-- Under the default settings, which ask for syslog, the approval is printed on standard output. -/
theorem main_writes_elsewhere : ¬∀ (json : SerdeJson) (w : World Nat) (policy : SecureSudoersPolicy) (ev : TracingEvent),
    ¬PanicsInLogging w policy.globalSettings → mainWrites json w policy.globalSettings ev =
      [(namedSink w policy.globalSettings).line json ev] := by
  intro h
  have hopen : ¬PanicsInLogging bareApt aptPolicy.globalSettings := fun hp => by
    obtain ⟨e, he, -⟩ := hp.2
    cases he
  have hlines := h serdeText bareApt aptPolicy ⟨.info, "Command approved", some "{}", []⟩ hopen
  revert hlines
  decide

end SecureSudoers
