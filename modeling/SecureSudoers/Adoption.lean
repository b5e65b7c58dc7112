/-
No process of a delegated command outlives the supervisor (`supervisor.rs`).

The supervisor is a subreaper: an orphan below it becomes its child, if no
process in between adopts it. It finds its children by reading `/proc` while the
processes go on, so what is listed is true of no single moment (`Scan`). But a
child of the supervisor stays one until the supervisor waits for it, and each
process below has a way up to such a child: if nothing is listed, nothing was
there when the reading began, and nothing can come after.
-/
import SecureSudoers.Descendants
import SecureSudoers.Startup
import SecureSudoers.Lib.ProcessTree

namespace SecureSudoers

open Relation ProcessTree

/-! ## The code -/

namespace ProcSystem

variable {W : Type} (sys : ProcSystem W)

/-- `send_signal_to_process_group`. -/
def sendSignalToProcessGroup (pgid : Int) (signal : Signal) (w : W) : Except Error Unit × W :=
  if pgid ≤ 0 then (.ok (), w)
  else match sys.kill (-pgid) signal w with
    | (.ok (), w) => (.ok (), w)
    | (.error e, w) =>
      if e = ESRCH then (.ok (), w)
      else (.error (.execution ("kill(-" ++ intDigits pgid ++ ", " ++ Nat.toDigits 10 signal.number ++ ") failed: " ++
        e.display)), w)

/-- `process_group_exists`. -/
def processGroupExists (pgid : Int) (w : W) : Bool × W :=
  if pgid ≤ 0 then (false, w)
  else match sys.kill (-pgid) (.other 0) w with
    | (.ok (), w) => (true, w)
    | (.error e, w) => (e = EPERM, w)

/-- `terminate_supervised_descendants`. -/
def terminateSupervisedDescendants (supervisorPid child : Int) (w : W) : Except Error Unit × W :=
  match sys.sendSignalToProcessGroup child .SIGTERM w with
  | (.error e, w) => (.error e, w)
  | (.ok (), w) =>
    match sys.processGroupExists child w with
    | (false, w) => sys.terminateAdoptedDescendants supervisorPid w
    | (true, w) =>
      match sys.sendSignalToProcessGroup child SIGKILL (sys.sleep w) with
      | (.error e, w) => (.error e, w)
      | (.ok (), w) => sys.terminateAdoptedDescendants supervisorPid w

end ProcSystem

/-! ## Reading `/proc` while processes move -/

/-- A reading of `/proc` that begins at `t` and goes on while the processes move
through `later`. A process that is there all along is among the names, and the
parent in its file is its parent at one of these moments. The names of processes
are text. -/
structure Scan (fs : ProcFs) (root : Int) (t : Processes Int) (later : List (Processes Int)) : Prop where
  moves : (t :: later).IsChain (Moves root)
  listed : ∀ names, fs.readDir = .ok names → ∀ pid, (∀ u ∈ t :: later, u pid ≠ none) →
    ∃ p : Proc, (p.pid : Int) = pid ∧ p.IsText ∧ .ok (ProcEntry.process p).name ∈ names ∧
      fs.read (statPath pid) = .ok p.stat ∧ ∃ u ∈ t :: later, ∃ e, u pid = some e ∧ e.parent = (p.ppid : Int)

/-- What a file that is read for a name says. -/
theorem childEntry_read {fs : ProcFs} {ppid : Int} {p : Proc} (htext : p.IsText)
    (hread : fs.read (statPath p.pid) = .ok p.stat) :
    childEntry fs ppid (.ok (ProcEntry.process p).name) = if (p.ppid : Int) = ppid then some (p.pid : Int) else none := by
  have hname : (Utf8.decode? (ProcEntry.process p).name).bind parsePid = some (p.pid : Int) := by
    have := p.pid_lt
    unfold ProcEntry.name
    rw [Utf8.decode?_encode]
    exact Decimal.parseInt_digits (by omega) (by omega)
  have hstat : (fs.readToString (statPath p.pid)).bind parsePpidFromStat = some (p.ppid : Int) := by
    rw [ProcFs.readToString, hread]
    exact Proc.readToString_stat.trans (if_pos htext)
  obtain ⟨stat, hs, hp⟩ := Option.bind_eq_some_iff.mp hstat
  simp only [childEntry, hname, hs, hp, bind, Option.bind_some, Option.some.injEq]

namespace Scan

variable {fs : ProcFs} {root : Int} {t : Processes Int} {later : List (Processes Int)}

/-- **A child that was there when the reading began is listed**, whatever happens meanwhile. -/
theorem child_listed (hscan : Scan fs root t later) (h : Rooted root t) {pid : Int} (hp : t.Child root pid)
    {children : List Int} (hlist : listDirectChildren fs root = .ok children) : pid ∈ children := by
  have hall := h.chain hscan.moves hp
  unfold listDirectChildren at hlist
  cases hdir : fs.readDir with
  | error e => simp [hdir] at hlist
  | ok names =>
    simp only [hdir, Except.ok.injEq] at hlist
    have hthere : ∀ u ∈ t :: later, u pid ≠ none := by
      intro u hu hnone
      obtain ⟨e, he, -⟩ := hall u hu
      simp [hnone] at he
    obtain ⟨p, rfl, htext, hname, hread, u, hu, e, he, hparent⟩ := hscan.listed names hdir pid hthere
    obtain ⟨e', he', hroot⟩ := hall u hu
    rw [he] at he'
    cases he'
    rw [← hlist, List.mem_filterMap]
    exact ⟨_, hname, by rw [childEntry_read htext hread, if_pos (hparent.symm.trans hroot)]⟩

/-- If nothing is listed, nothing was there. -/
theorem eq_none (hscan : Scan fs root t later) (h : Rooted root t) (hlist : listDirectChildren fs root = .ok []) :
    ∀ pid, t pid = none := by
  intro pid
  refine h.eq_none fun q e hq hroot => ?_
  have := hscan.child_listed h ⟨e, hq, hroot⟩ hlist
  simp at this

end Scan

/-! ## The calls of the supervisor -/

/-- The system below the supervisor `root`: each call is a run of the processes
in which the supervisor may wait for children, and each reading of `/proc` goes
on while they move. -/
structure Adopts {W : Type} (sys : ProcSystem W) (root : Int) (tree : W → Processes Int) : Prop where
  scan : ∀ w, ∃ later, Scan (sys.procFs w) root (tree w) later
  reap : ∀ w, ReflTransGen (Step root) (tree w) (tree (sys.reap w))
  kill : ∀ pid sig w, ReflTransGen (Step root) (tree w) (tree (sys.kill pid sig w).2)
  sleep : ∀ w, ReflTransGen (Step root) (tree w) (tree (sys.sleep w))

namespace Adopts

variable {W : Type} {sys : ProcSystem W} {root : Int} {tree : W → Processes Int} {w w' : W}

theorem sendSignalToPid (h : Adopts sys root tree) (pid : Int) (signal : Signal) (w : W) :
    ReflTransGen (Step root) (tree w) (tree (sys.sendSignalToPid pid signal w).2) := by
  have hkill := h.kill pid signal w
  unfold ProcSystem.sendSignalToPid
  split
  · next heq => rwa [heq] at hkill
  · next heq =>
    rw [heq] at hkill
    split <;> exact hkill

theorem sendSignalToProcessGroup (h : Adopts sys root tree) (pgid : Int) (signal : Signal) (w : W) :
    ReflTransGen (Step root) (tree w) (tree (sys.sendSignalToProcessGroup pgid signal w).2) := by
  have hkill := h.kill (-pgid) signal w
  unfold ProcSystem.sendSignalToProcessGroup
  split
  · exact .refl
  · split
    · next heq => rwa [heq] at hkill
    · next heq =>
      rw [heq] at hkill
      split <;> exact hkill

theorem processGroupExists (h : Adopts sys root tree) (pgid : Int) (w : W) :
    ReflTransGen (Step root) (tree w) (tree (sys.processGroupExists pgid w).2) := by
  have hkill := h.kill (-pgid) (.other 0) w
  unfold ProcSystem.processGroupExists
  split
  · exact .refl
  · split
    · next heq => rwa [heq] at hkill
    · next heq => rwa [heq] at hkill

theorem sendSignals (h : Adopts sys root tree) (signal : Signal) : ∀ (children : List Int) (w : W),
    ReflTransGen (Step root) (tree w) (tree (sys.sendSignals signal children w).2)
  | [], _ => .refl
  | pid :: children, w => by
    have hfirst := h.sendSignalToPid pid signal w
    unfold ProcSystem.sendSignals
    split
    · next heq => rwa [heq] at hfirst
    · next w₁ heq =>
      rw [heq] at hfirst
      exact hfirst.trans (h.sendSignals signal children w₁)

theorem rounds (h : Adopts sys root tree) (signal : Signal) : ∀ (n : Nat) (w : W),
    ReflTransGen (Step root) (tree w) (tree (sys.rounds root signal n w).2)
  | 0, _ => .refl
  | n + 1, w => by
    have hreap := h.reap w
    unfold ProcSystem.rounds
    dsimp only
    split
    · exact hreap
    · next children _ =>
      have hsend := hreap.trans (h.sendSignals signal children (sys.reap w))
      split
      · exact hreap
      · split
        · next heq => rwa [heq] at hsend
        · next w₂ heq =>
          rw [heq] at hsend
          exact (hsend.trans (h.sleep w₂)).trans (h.rounds signal n (sys.sleep w₂))

theorem terminateAdoptedDescendants (h : Adopts sys root tree) (w : W) :
    ReflTransGen (Step root) (tree w) (tree (sys.terminateAdoptedDescendants root w).2) := by
  have hterm := h.rounds .SIGTERM 10 w
  unfold ProcSystem.terminateAdoptedDescendants
  split
  · next heq => rwa [heq] at hterm
  · next heq => rwa [heq] at hterm
  · next w₁ heq =>
    rw [heq] at hterm
    have hkill := hterm.trans (h.rounds SIGKILL 10 w₁)
    split
    · next heq => rwa [heq] at hkill
    · next heq => rwa [heq] at hkill
    · next w₂ heq =>
      rw [heq] at hkill
      have hreap := hkill.trans (h.reap w₂)
      dsimp only
      split
      · exact hreap
      · split <;> exact hreap

theorem terminateSupervisedDescendants (h : Adopts sys root tree) (child : Int) (w : W) :
    ReflTransGen (Step root) (tree w) (tree (sys.terminateSupervisedDescendants root child w).2) := by
  have hterm := h.sendSignalToProcessGroup child .SIGTERM w
  unfold ProcSystem.terminateSupervisedDescendants
  split
  · next heq => rwa [heq] at hterm
  · next w₁ heq =>
    rw [heq] at hterm
    have hexists := hterm.trans (h.processGroupExists child w₁)
    split
    · next w₂ heq =>
      rw [heq] at hexists
      exact hexists.trans (h.terminateAdoptedDescendants w₂)
    · next w₂ heq =>
      rw [heq] at hexists
      have hkill := (hexists.trans (h.sleep w₂)).trans (h.sendSignalToProcessGroup child SIGKILL (sys.sleep w₂))
      split
      · next heq => rwa [heq] at hkill
      · next w₃ heq =>
        rw [heq] at hkill
        exact hkill.trans (h.terminateAdoptedDescendants w₃)

/-- Success means that the last listing is empty. -/
theorem terminateSupervisedDescendants_ok {child : Int}
    (h : sys.terminateSupervisedDescendants root child w = (.ok (), w')) :
    listDirectChildren (sys.procFs w') root = .ok [] := by
  unfold ProcSystem.terminateSupervisedDescendants at h
  split at h
  · cases h
  · split at h
    · exact ProcSystem.terminateAdoptedDescendants_ok h
    · split at h
      · cases h
      · exact ProcSystem.terminateAdoptedDescendants_ok h

/-- **Where the descendants are terminated, none is left.** -/
theorem terminated_none_left (h : Adopts sys root tree) (hrooted : Rooted root (tree w)) {child : Int}
    (hrun : sys.terminateSupervisedDescendants root child w = (.ok (), w')) : ∀ pid, tree w' pid = none := by
  have hsteps := h.terminateSupervisedDescendants child w
  rw [hrun] at hsteps
  obtain ⟨later, hscan⟩ := h.scan w'
  exact hscan.eq_none (hrooted.steps hsteps) (terminateSupervisedDescendants_ok hrun)

end Adopts

/-! ## The whole loop -/

/-- The supervisor's loop and the system below it. -/
structure Supervised (W : Type) where
  loop : Supervision
  world : W

/-- `terminate_supervised_descendants` is run as it is written; around each other
event of the loop, and between two of them, the processes go on. -/
inductive Supervised.Advance {W : Type} (sys : ProcSystem W) (root : Int) (tree : W → Processes Int) (sup : Supervisor)
    (s : Supervised W) : Supervised W → Prop where
  | loop {e : SupervisorEvent} {loop' : Supervision} {w' : W} : (∀ r, e ≠ .descendants r) →
      sup.step s.loop e = some loop' → ReflTransGen (Step root) (tree s.world) (tree w') →
      Advance sys root tree sup s ⟨loop', w'⟩
  | terminate {r : Except Error Unit} {loop' : Supervision} {w' : W} :
      sys.terminateSupervisedDescendants root sup.child s.world = (r, w') →
      sup.step s.loop (.descendants r) = some loop' → Advance sys root tree sup s ⟨loop', w'⟩
  | processes {w' : W} : ReflTransGen (Step root) (tree s.world) (tree w') → Advance sys root tree sup s ⟨s.loop, w'⟩

namespace Supervised

variable {W : Type} {sys : ProcSystem W} {root : Int} {tree : W → Processes Int} {sup : Supervisor} {s t : Supervised W}

/-- The tree is rooted, and empty where an exit code is returned. -/
structure Cleared (root : Int) (tree : W → Processes Int) (s : Supervised W) : Prop where
  rooted : Rooted root (tree s.world)
  empty : ∀ code, s.loop.place = .returned (.ok code) → ∀ pid, tree s.world pid = none

theorem Cleared.steps (h : Cleared root tree s) {w' : W}
    (hsteps : ReflTransGen (Step root) (tree s.world) (tree w')) : Cleared root tree ⟨s.loop, w'⟩ := by
  refine ⟨h.rooted.steps hsteps, fun code hret => ?_⟩
  have hnone := h.empty code hret
  show ∀ pid, tree w' pid = none
  rwa [steps_none hnone hsteps]

theorem Cleared.advance (hsys : Adopts sys root tree) (h : Cleared root tree s)
    (ha : Advance sys root tree sup s t) : Cleared root tree t := by
  cases ha with
  | @loop e loop' w' hother hstep hsteps =>
    have h' := h.steps hsteps
    refine ⟨h'.rooted, fun code hret => ?_⟩
    obtain hold | ⟨-, he⟩ := returned_step hstep hret
    · exact h'.empty code hold
    · exact absurd he (hother _)
  | @terminate r loop' w' hrun hstep =>
    have hsteps := hsys.terminateSupervisedDescendants sup.child s.world
    rw [hrun] at hsteps
    have h' := h.steps hsteps
    refine ⟨h'.rooted, fun code hret => ?_⟩
    obtain hold | ⟨-, he⟩ := returned_step hstep hret
    · exact h'.empty code hold
    · cases he
      exact hsys.terminated_none_left h.rooted hrun
  | processes hsteps => exact h.steps hsteps

theorem Cleared.run (hsys : Adopts sys root tree) (h : Cleared root tree s)
    (hrun : ReflTransGen (Advance sys root tree sup) s t) : Cleared root tree t := by
  induction hrun with
  | refl => exact h
  | tail _ ha ih => exact ih.advance hsys ha

end Supervised

/-- **When `supervise_direct_child` returns an exit code, no process of the
command is left**, and none comes after: neither its children that it left
behind, nor theirs, however they forked, exited and adopted each other while the
supervisor read `/proc`. -/
theorem Supervised.none_left {W : Type} {sys : ProcSystem W} {root : Int} {tree : W → Processes Int} {sup : Supervisor}
    {s t : Supervised W} (hsys : Adopts sys root tree) (hchild : (sup.child : Int) ≠ root)
    (hloop : s.loop.place = .swap) (hforked : ReflTransGen (Step root) (spawned root sup.child) (tree s.world))
    (hrun : ReflTransGen (Supervised.Advance sys root tree sup) s t) {code : Int}
    (hret : t.loop.place = .returned (.ok code)) :
    ∀ u, ReflTransGen (Step root) (tree t.world) u → ∀ pid, u pid = none := by
  have hstart : Cleared root tree s :=
    ⟨(rooted_spawned hchild).steps hforked, fun code hret => by simp [hloop] at hret⟩
  have hnone := (hstart.run hsys hrun).empty code hret
  intro u hu
  rwa [steps_none hnone hu]

theorem command_length : ([97] : List UInt8).length ≤ 15 := by
  decide

theorem command_no_nul : (0 : UInt8) ∉ ([97] : List UInt8) := by
  decide

/-- The command is the process 100, below the supervisor 7. -/
def command : Proc := child [97] command_length command_no_nul

/-- A command that is there or gone, in a group that is gone. -/
def commandSystem : ProcSystem Bool where
  procFs there := Snapshot.procFs ⟨if there then [.process command] else [], by cases there <;> decide⟩
  reap there := there
  kill _ _ there := (.error ESRCH, there)
  sleep there := there

def commandTree : Bool → Processes Int
  | true => spawned 7 100
  | false => fun _ => none

theorem commandSystem_adopts : Adopts commandSystem 7 commandTree := by
  refine ⟨fun there => ⟨[], List.isChain_singleton _, ?_⟩, fun _ => .refl, fun _ _ _ => .refl, fun _ => .refl⟩
  intro names hnames pid hthere
  have hpid := hthere _ (List.mem_cons_self ..)
  cases there with
  | false => exact absurd rfl hpid
  | true =>
    have hcommand : pid = 100 := by
      by_contra hne
      have hnone : spawned (7 : Int) 100 pid = none := Processes.set_ne hne
      exact hpid hnone
    subst hcommand
    cases hnames
    have hread := @Snapshot.read_statPath ⟨[.process command], by decide⟩ command (List.mem_singleton_self _)
    have hentry : spawned (7 : Int) 100 100 = some ⟨7, false⟩ := Processes.set_self
    exact ⟨command, rfl, by decide, List.mem_singleton_self _, hread, _, List.mem_singleton_self _, _, hentry, rfl⟩

/-- The command exits, and is waited for. -/
theorem command_exits : ReflTransGen (Step 7) (commandTree true) (commandTree false) := by
  have halive : (spawned (7 : Int) 100).Alive 100 := ⟨⟨7, false⟩, Processes.set_self, rfl⟩
  have hexit : (spawned (7 : Int) 100).exit 100 7 100 = some ⟨7, true⟩ := by decide
  have hgone : ((spawned (7 : Int) 100).exit 100 7).set 100 none = fun _ => none := by
    funext pid
    by_cases h : pid = 100
    · rw [h, Processes.set_self]
    · rw [Processes.set_ne h]
      exact Processes.exit_eq_none.mpr (Processes.set_ne h)
  have hreap : Step 7 ((spawned (7 : Int) 100).exit 100 7) _ := Step.reap hexit rfl rfl
  rw [hgone] at hreap
  exact .tail (.single (.moves (.exit halive (.inl rfl)))) hreap

/-- What comes after it is the empty tree. -/
theorem Supervised.none_left_command : {u | ReflTransGen (Step 7) (commandTree false) u} = {fun _ => none} := by
  have move : ∀ (e : SupervisorEvent) (there : Bool) {loop loop' : Supervision}, (∀ r, e ≠ .descendants r) →
      (Supervisor.mk 100 false).step loop e = some loop' →
      Advance commandSystem 7 commandTree ⟨100, false⟩ ⟨loop, there⟩ ⟨loop', there⟩ :=
    fun _ _ _ _ he hstep => .loop he hstep .refl
  have hexit : Advance commandSystem 7 commandTree ⟨100, false⟩ ⟨{ place := .blocked }, true⟩
      ⟨{ place := .waited (.ok (.exited 0)) }, false⟩ :=
    @Advance.loop _ _ _ _ _ _ (.child (.exited 0)) _ _ nofun rfl command_exits
  have hend : Advance commandSystem 7 commandTree ⟨100, false⟩ ⟨{ place := .terminate (.code 0) }, false⟩
      ⟨{ place := .returned (.ok 0) }, false⟩ := @Advance.terminate _ _ _ _ _ _ (.ok ()) _ _ rfl rfl
  have hrun : ReflTransGen (Advance commandSystem 7 commandTree ⟨100, false⟩) ⟨{ place := .swap }, true⟩
      ⟨{ place := .returned (.ok 0) }, false⟩ :=
    .head (move .swap true nofun rfl) (.head (move .sigwinch true nofun rfl)
      (.head (move (.waitpid none) true nofun rfl) (.head hexit (.head (move .examine false nofun rfl) (.single hend)))))
  have hnone := Supervised.none_left commandSystem_adopts (by decide) rfl .refl hrun rfl
  ext u
  constructor
  · intro hu
    exact funext (hnone u hu)
  · rintro rfl
    exact .refl

end SecureSudoers
