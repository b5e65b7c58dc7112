/-
How many generations the supervisor terminates (`supervisor.rs`,
`terminate_adopted_descendants`).

A process that dies leaves its children to the supervisor, and only these are
signalled in the next round. So each round takes one generation, and there are
ten with `SIGTERM`, which a process may ignore, and ten with `SIGKILL`: of
processes that do not fork, and have exited by the next round, it is the depth
of the tree that decides, not their number.
-/
import Mathlib.Data.List.Perm.Basic
import Mathlib.Data.List.Nodup
import SecureSudoers.Adoption

namespace SecureSudoers

/-- A process with those below it; it may ignore `SIGTERM`. -/
inductive Family where
  | node (pid : Int) (ignoresTerm : Bool) (children : List Family)

namespace Family

def pid : Family → Int
  | .node pid _ _ => pid

/-- What is left to the supervisor once the signal has done its work. -/
def after (signal : Signal) : Family → List Family
  | .node pid ignoresTerm children =>
    if signal = .SIGTERM ∧ ignoresTerm = true then [.node pid ignoresTerm children] else children

mutual
def generations : Family → Nat
  | .node _ _ children => generationsOf children + 1

def generationsOf : List Family → Nat
  | [] => 0
  | family :: families => max family.generations (generationsOf families)
end

mutual
def pids : Family → List Int
  | .node pid _ children => pid :: pidsOf children

def pidsOf : List Family → List Int
  | [] => []
  | family :: families => family.pids ++ pidsOf families
end

/-- The families after one round. -/
def round (signal : Signal) (families : List Family) : List Family := families.flatMap (after signal)

variable {families families' : List Family} {signal : Signal}

theorem after_node {pid : Int} {ignoresTerm : Bool} {children : List Family} :
    (node pid ignoresTerm children).after signal =
      if signal = .SIGTERM ∧ ignoresTerm = true then [node pid ignoresTerm children] else children := rfl

theorem generationsOf_eq_zero : generationsOf families = 0 ↔ families = [] := by
  cases families with
  | nil => simp [generationsOf]
  | cons family families =>
    cases family
    simp [generationsOf, generations]

theorem generationsOf_append : ∀ {families : List Family},
    generationsOf (families ++ families') = max (generationsOf families) (generationsOf families')
  | [] => by simp [generationsOf]
  | family :: families => by
    have ih := @generationsOf_append families
    simp only [List.cons_append, generationsOf, ih]
    omega

theorem generationsOf_perm (h : families.Perm families') : generationsOf families = generationsOf families' := by
  induction h with
  | nil => rfl
  | cons _ _ ih => simp only [generationsOf, ih]
  | swap => simp only [generationsOf]; omega
  | trans _ _ ih ih' => exact ih.trans ih'

/-- **Each round with `SIGKILL` takes one generation.** -/
theorem generationsOf_round : ∀ {families : List Family},
    generationsOf (round SIGKILL families) = generationsOf families - 1
  | [] => rfl
  | .node pid ignoresTerm children :: families => by
    have ih := @generationsOf_round families
    have hkill : (node pid ignoresTerm children).after SIGKILL = children := by
      rw [after_node, if_neg (by simp [SIGKILL])]
    unfold round at ih ⊢
    rw [List.flatMap_cons, hkill, generationsOf_append, ih]
    simp only [generationsOf, generations]
    omega

theorem pidsOf_append : ∀ {families : List Family}, pidsOf (families ++ families') = pidsOf families ++ pidsOf families'
  | [] => rfl
  | family :: families => by
    have ih := @pidsOf_append families
    simp only [List.cons_append, pidsOf, ih, List.append_assoc]

theorem pidsOf_perm (h : families.Perm families') : (pidsOf families).Perm (pidsOf families') := by
  induction h with
  | nil => exact .nil
  | cons _ _ ih => exact ih.append_left _
  | swap =>
    simp only [pidsOf, ← List.append_assoc]
    exact List.perm_append_comm.append_right _
  | trans _ _ ih ih' => exact ih.trans ih'

theorem pidsOf_round : ∀ {families : List Family}, (pidsOf (round signal families)).Sublist (pidsOf families)
  | [] => .slnil
  | .node pid ignoresTerm children :: families => by
    have ih := @pidsOf_round families
    have hafter : (pidsOf ((node pid ignoresTerm children).after signal)).Sublist (pids (.node pid ignoresTerm children)) := by
      rw [after_node]
      split
      · simp [pidsOf]
      · exact List.sublist_cons_self ..
    unfold round at ih ⊢
    rw [List.flatMap_cons, pidsOf_append]
    exact hafter.append ih

theorem pidsOf_eq : ∀ {families : List Family}, pidsOf families = families.flatMap pids
  | [] => rfl
  | family :: families => by rw [pidsOf, List.flatMap_cons, pidsOf_eq]

theorem pid_mem_pids {family : Family} : family.pid ∈ family.pids := by
  cases family
  exact List.mem_cons_self ..

theorem pid_mem_pidsOf {family : Family} (h : family ∈ families) : family.pid ∈ pidsOf families := by
  rw [pidsOf_eq, List.mem_flatMap]
  exact ⟨family, h, pid_mem_pids⟩

theorem map_pid_sublist : ∀ {families : List Family}, (families.map pid).Sublist (pidsOf families)
  | [] => .slnil
  | .node _ _ _ :: _ => (map_pid_sublist.trans (List.sublist_append_right ..)).cons_cons _

/-- A process below another is not next to it. -/
theorem child_not_top : ∀ {families : List Family}, (pidsOf families).Nodup → ∀ {pid : Int} {ignoresTerm : Bool}
    {children : List Family}, node pid ignoresTerm children ∈ families → ∀ child ∈ children,
    child.pid ∉ families.map Family.pid
  | family :: families, hnodup, pid, ignoresTerm, children, hmem, child, hchild => by
    rw [pidsOf, List.nodup_append] at hnodup
    obtain ⟨hfirst, hrest, hdisjoint⟩ := hnodup
    rw [List.map_cons, List.mem_cons, not_or]
    obtain rfl | hmem := List.mem_cons.mp hmem
    · rw [pids, List.nodup_cons] at hfirst
      have hbelow := pid_mem_pidsOf hchild
      refine ⟨?_, fun hin => ?_⟩
      · intro (heq : child.pid = pid)
        exact hfirst.1 (heq ▸ hbelow)
      obtain ⟨other, hother, heq⟩ := List.mem_map.mp hin
      exact hdisjoint child.pid (List.mem_cons_of_mem _ hbelow) other.pid (pid_mem_pidsOf hother) heq.symm
    · refine ⟨fun heq => ?_, child_not_top hrest hmem child hchild⟩
      have hbelow : child.pid ∈ pidsOf families := by
        rw [pidsOf_eq, List.mem_flatMap]
        exact ⟨_, hmem, List.mem_cons_of_mem _ (pid_mem_pidsOf hchild)⟩
      exact hdisjoint _ (heq ▸ pid_mem_pids) _ hbelow rfl

theorem round_perm (h : families.Perm families') : (round signal families).Perm (round signal families') :=
  h.flatMap_right _

theorem iterate_perm (h : families.Perm families') (n : Nat) :
    ((round signal)^[n] families).Perm ((round signal)^[n] families') := by
  induction n generalizing families families' with
  | zero => exact h
  | succ n ih => exact ih (round_perm h)

theorem iterate_nil (n : Nat) : (round signal)^[n] [] = [] := by
  induction n with
  | zero => rfl
  | succ n ih => exact ih

/-- After `n` rounds with `SIGKILL` as many generations are gone. -/
theorem generationsOf_iterate (n : Nat) :
    generationsOf ((round SIGKILL)^[n] families) = generationsOf families - n := by
  induction n generalizing families with
  | zero => rfl
  | succ n ih =>
    rw [Function.iterate_succ_apply, ih, generationsOf_round]
    omega

mutual
/-- No process of it ignores `SIGTERM`. -/
def Heeds : Family → Prop
  | .node _ ignoresTerm children => ignoresTerm = false ∧ HeedsAll children

def HeedsAll : List Family → Prop
  | [] => True
  | family :: families => family.Heeds ∧ HeedsAll families
end

theorem heedsAll_append : ∀ {families : List Family},
    HeedsAll (families ++ families') ↔ HeedsAll families ∧ HeedsAll families'
  | [] => by simp [HeedsAll]
  | family :: families => by
    have ih := @heedsAll_append families
    simp only [List.cons_append, HeedsAll, ih, and_assoc]

/-- To who heeds it `SIGTERM` is as good as `SIGKILL`. -/
theorem HeedsAll.round : ∀ {families : List Family}, HeedsAll families →
    round .SIGTERM families = round SIGKILL families ∧ HeedsAll (round .SIGTERM families)
  | [], _ => ⟨rfl, trivial⟩
  | .node pid ignoresTerm children :: families, h => by
    obtain ⟨⟨hheeds, hchildren⟩, hrest⟩ := h
    obtain ⟨heq, hround⟩ := HeedsAll.round hrest
    have hterm : (node pid ignoresTerm children).after .SIGTERM = children := by
      rw [after_node, if_neg (by simp [hheeds])]
    have hkill : (node pid ignoresTerm children).after SIGKILL = children := by
      rw [after_node, if_neg (by simp [SIGKILL])]
    unfold Family.round at heq hround ⊢
    rw [List.flatMap_cons, List.flatMap_cons, hterm, hkill, heq, heedsAll_append]
    exact ⟨rfl, hchildren, heq ▸ hround⟩

theorem HeedsAll.iterate (n : Nat) : ∀ {families : List Family}, HeedsAll families →
    (Family.round .SIGTERM)^[n] families = (Family.round SIGKILL)^[n] families := by
  induction n with
  | zero => exact fun _ => rfl
  | succ n ih =>
    intro families h
    obtain ⟨heq, hround⟩ := h.round
    rw [Function.iterate_succ_apply, Function.iterate_succ_apply, ih hround, heq]

end Family

open Family

/-- The system below the supervisor `root`, where no process forks: who is sent
a signal has exited by the next listing, unless it ignores it, and leaves its
children to the supervisor. -/
structure Obeys {W : Type} (sys : ProcSystem W) (root : Int) (families : W → List Family) : Prop where
  distinct : ∀ w, (pidsOf (families w)).Nodup
  reap : ∀ w, (families (sys.reap w)).Perm (families w)
  listed : ∀ w, ∃ children, listDirectChildren (sys.procFs (sys.reap w)) root = .ok children ∧
    children.Perm ((families w).map Family.pid)
  kill : ∀ pid sig w, pid ∈ (families w).map Family.pid → ∃ w', sys.kill pid sig w = (.ok (), w') ∧
    (families w').Perm ((families w).flatMap fun family => if family.pid = pid then family.after sig else [family])
  sleep : ∀ w, (families (sys.sleep w)).Perm (families w)

namespace Obeys

variable {W : Type} {sys : ProcSystem W} {root : Int} {families : W → List Family} {w w' : W}

theorem sendSignals (h : Obeys sys root families) (signal : Signal) : ∀ (pids : List Int) (w : W), pids.Nodup →
    (∀ pid ∈ pids, pid ∈ (families w).map Family.pid) → ∃ w', sys.sendSignals signal pids w = (.ok (), w') ∧
      (families w').Perm
        ((families w).flatMap fun family => if family.pid ∈ pids then family.after signal else [family])
  | [], w, _, _ => ⟨w, rfl, by simp⟩
  | pid :: pids, w, hnodup, htop => by
    obtain ⟨hpid, hnodup⟩ := List.nodup_cons.mp hnodup
    obtain ⟨w₁, hkill, hperm⟩ := h.kill pid signal w (htop pid (List.mem_cons_self ..))
    have htop₁ : ∀ q ∈ pids, q ∈ (families w₁).map Family.pid := by
      intro q hq
      obtain ⟨family, hfamily, rfl⟩ := List.mem_map.mp (htop q (List.mem_cons_of_mem _ hq))
      have hne : family.pid ≠ pid := fun heq => hpid (heq ▸ hq)
      rw [(hperm.map _).mem_iff]
      exact List.mem_map_of_mem (List.mem_flatMap.mpr ⟨family, hfamily, by simp [hne]⟩)
    obtain ⟨w', hsend, hperm'⟩ := h.sendSignals signal pids w₁ hnodup htop₁
    refine ⟨w', ?_, hperm'.trans ((hperm.flatMap_right _).trans (.of_eq ?_))⟩
    · simp only [ProcSystem.sendSignals, ProcSystem.sendSignalToPid, hkill, hsend]
    rw [List.flatMap_assoc]
    refine List.flatMap_congr fun family hfamily => ?_
    by_cases heq : family.pid = pid
    · -- what it leaves is not signalled in this round
      have hleft : ∀ left ∈ family.after signal, left.pid ∉ pids := by
        intro left hleft hin
        obtain ⟨q, ignoresTerm, children⟩ := family
        rw [after_node] at hleft
        split at hleft
        · rw [List.mem_singleton.mp hleft] at hin
          exact hpid (heq ▸ hin)
        · exact child_not_top (h.distinct w) hfamily left hleft (htop _ (List.mem_cons_of_mem _ hin))
      rw [if_pos heq, if_pos (List.mem_cons.mpr (.inl heq))]
      have hsame : (family.after signal).flatMap
          (fun left => if left.pid ∈ pids then left.after signal else [left]) =
            (family.after signal).flatMap fun left => [left] :=
        List.flatMap_congr fun left hl => if_neg (hleft left hl)
      rw [hsame, List.flatMap_singleton']
    · simp [heq]

/-- **A number of rounds**, whether they end early or not. -/
theorem rounds (h : Obeys sys root families) (signal : Signal) : ∀ (n : Nat) (w : W),
    ∃ none w', sys.rounds root signal n w = (.ok none, w') ∧
      (families w').Perm ((round signal)^[n] (families w)) ∧ (none = true → families w' = [])
  | 0, w => ⟨false, w, rfl, .refl _, by simp⟩
  | n + 1, w => by
    obtain ⟨children, hlist, hchildren⟩ := h.listed w
    have hreap := h.reap w
    by_cases hnil : children = []
    · subst hnil
      have hfamilies : families w = [] := List.map_eq_nil_iff.mp hchildren.nil_eq.symm
      have hreaped : families (sys.reap w) = [] := List.Perm.eq_nil (hfamilies ▸ hreap)
      refine ⟨true, sys.reap w, ?_, ?_, fun _ => hreaped⟩
      · simp [ProcSystem.rounds, hlist]
      · rw [hreaped, hfamilies, iterate_nil]
    · have hnodup : children.Nodup := by
        rw [hchildren.nodup_iff]
        exact map_pid_sublist.nodup (h.distinct w)
      have htop : ∀ pid ∈ children, pid ∈ (families (sys.reap w)).map Family.pid := by
        intro pid hpid
        rw [(hreap.map _).mem_iff]
        exact hchildren.subset hpid
      obtain ⟨w₁, hsend, hperm⟩ := h.sendSignals signal children (sys.reap w) hnodup htop
      obtain ⟨none, w', hrounds, hperm', hnone⟩ := h.rounds signal n (sys.sleep w₁)
      refine ⟨none, w', ?_, ?_, hnone⟩
      · simp [ProcSystem.rounds, hlist, hnil, hsend, hrounds]
      · have hround : ((families (sys.reap w)).flatMap fun family =>
            if family.pid ∈ children then family.after signal else [family]) = round signal (families (sys.reap w)) := by
          refine List.flatMap_congr fun family hfamily => if_pos ?_
          rw [hchildren.mem_iff, ← (hreap.map _).mem_iff]
          exact List.mem_map_of_mem hfamily
        rw [hround] at hperm
        exact hperm'.trans (iterate_perm ((h.sleep w₁).trans (hperm.trans (round_perm hreap))) n)

/-- What is left after the rounds with both signals. -/
def left (families : List Family) : List Family := (round SIGKILL)^[10] ((round .SIGTERM)^[10] families)

theorem left_eq_nil {families : List Family} : left families = [] ↔ generationsOf ((round .SIGTERM)^[10] families) ≤ 10 := by
  rw [left, ← generationsOf_eq_zero, generationsOf_iterate]
  omega

theorem terminateAdoptedDescendants (h : Obeys sys root families) (w : W) :
    ∃ remaining : List Int, remaining.Perm ((left (families w)).map Family.pid) ∧
      (sys.terminateAdoptedDescendants root w).1 =
        if remaining = [] then .ok ()
        else .error (.system ("failed to terminate descendant processes: " ++ ProcSystem.debugPids remaining)) := by
  obtain ⟨none₁, w₁, hterm, hperm₁, hnone₁⟩ := h.rounds .SIGTERM 10 w
  obtain ⟨none₂, w₂, hkill, hperm₂, hnone₂⟩ := h.rounds SIGKILL 10 w₁
  have hleft : (families w₂).Perm (left (families w)) := hperm₂.trans (iterate_perm hperm₁ 10)
  cases none₁ with
  | true =>
    have hnil : families w₂ = [] := by
      rw [hnone₁ rfl, iterate_nil] at hperm₂
      exact hperm₂.eq_nil
    refine ⟨[], ?_, ?_⟩
    · rw [hnil] at hleft
      rw [← hleft.nil_eq]
      rfl
    · simp [ProcSystem.terminateAdoptedDescendants, hterm]
  | false =>
    cases none₂ with
    | true =>
      refine ⟨[], ?_, ?_⟩
      · rw [hnone₂ rfl] at hleft
        rw [← hleft.nil_eq]
        rfl
      · simp [ProcSystem.terminateAdoptedDescendants, hterm, hkill]
    | false =>
      obtain ⟨remaining, hlist, hperm⟩ := h.listed w₂
      refine ⟨remaining, hperm.trans (hleft.map _), ?_⟩
      simp only [ProcSystem.terminateAdoptedDescendants, hterm, hkill, hlist]
      split <;> rfl

end Obeys

/-- **It is the generations that count**: the descendants are terminated exactly
if at most ten of them outlast the ten rounds with `SIGTERM`, and otherwise the
error names the processes then at the top. If none ignores `SIGTERM`, twenty
generations are terminated and no more. -/
theorem terminateAdoptedDescendants_generations {W : Type} {sys : ProcSystem W} {root : Int}
    {families : W → List Family} (h : Obeys sys root families) (w : W) :
    (∃ remaining : List Int, remaining.Perm ((Obeys.left (families w)).map Family.pid) ∧
      (remaining = [] ↔ generationsOf ((round .SIGTERM)^[10] (families w)) ≤ 10) ∧
      (sys.terminateAdoptedDescendants root w).1 =
        if remaining = [] then .ok ()
        else .error (.system ("failed to terminate descendant processes: " ++ ProcSystem.debugPids remaining))) ∧
    (HeedsAll (families w) →
      ((sys.terminateAdoptedDescendants root w).1 = .ok () ↔ generationsOf (families w) ≤ 20)) := by
  obtain ⟨remaining, hperm, hrun⟩ := h.terminateAdoptedDescendants w
  have hnil : remaining = [] ↔ generationsOf ((round .SIGTERM)^[10] (families w)) ≤ 10 := by
    rw [← Obeys.left_eq_nil, ← @List.map_eq_nil_iff _ _ Family.pid]
    exact ⟨fun heq => (heq ▸ hperm).nil_eq.symm, fun heq => (heq ▸ hperm).eq_nil⟩
  refine ⟨⟨remaining, hperm, hnil, hrun⟩, fun hheeds => ?_⟩
  have hcount : remaining = [] ↔ generationsOf (families w) ≤ 20 := by
    rw [hnil, hheeds.iterate, generationsOf_iterate]
    omega
  rw [hrun, ← hcount]
  split
  · next heq => simp [heq]
  · next hne => simp [hne]

/-- A line of processes of the supervisor 7, each with one child. -/
def line : Nat → List Family
  | 0 => []
  | n + 1 => [.node (n + 100) false (line n)]

theorem lineTop_lt (n : Fin 64) : n.val + 99 < 2 ^ 31 := by
  omega

/-- The process at the top of a line. -/
def lineTop (n : Fin 64) : Proc := { command with pid := n + 99, pid_lt := lineTop_lt n }

/-- A line of which the supervisor sees the top, and signals kill. -/
def lineSystem : ProcSystem (Fin 64) where
  procFs n := Snapshot.procFs ⟨if n = 0 then [] else [.process (lineTop n)], by split <;> simp [ProcEntry.process?]⟩
  reap n := n
  kill pid _ n := if pid = n.val + 99 then (.ok (), ⟨n.val - 1, by omega⟩) else (.error ESRCH, n)
  sleep n := n

theorem line_heeds : ∀ n, HeedsAll (line n)
  | 0 => trivial
  | n + 1 => ⟨⟨rfl, line_heeds n⟩, trivial⟩

theorem generationsOf_line : ∀ n, generationsOf (line n) = n
  | 0 => rfl
  | n + 1 => by simp [line, generationsOf, generations, generationsOf_line n]

theorem pidsOf_line : ∀ n, (pidsOf (line n)).Nodup ∧ ∀ pid ∈ pidsOf (line n), pid < n + 100
  | 0 => by simp [line, pidsOf]
  | n + 1 => by
    obtain ⟨hnodup, hlt⟩ := pidsOf_line n
    have hpids : pidsOf (line (n + 1)) = ((n : Int) + 100) :: pidsOf (line n) := List.append_nil _
    rw [hpids, List.nodup_cons, List.forall_mem_cons]
    refine ⟨⟨fun hin => ?_, hnodup⟩, by push_cast; omega, fun pid hpid => ?_⟩
    · have := hlt _ hin
      omega
    · have := hlt pid hpid
      push_cast
      omega

theorem lineSystem_listed : ∀ n : Fin 64,
    listDirectChildren (lineSystem.procFs n) 7 = .ok ((line n).map Family.pid)
  | ⟨0, _⟩ => by
    unfold lineSystem
    rw [Snapshot.listDirectChildren_eq]
    rfl
  | ⟨n + 1, hn⟩ => by
    have htop : ((lineTop ⟨n + 1, hn⟩).ppid : Int) = 7 ∧ (lineTop ⟨n + 1, hn⟩).IsText := by
      refine ⟨rfl, ?_⟩
      show (Utf8.decode? [97]).isSome = true
      decide
    have hpid : ((lineTop ⟨n + 1, hn⟩).pid : Int) = n + 100 := by
      show ((n + 1 + 99 : Nat) : Int) = n + 100
      omega
    have hprocesses : ((if (⟨n + 1, hn⟩ : Fin 64) = 0 then [] else [ProcEntry.process (lineTop ⟨n + 1, hn⟩)]).filterMap
        ProcEntry.process?) = [lineTop ⟨n + 1, hn⟩] := rfl
    unfold lineSystem
    rw [Snapshot.listDirectChildren_eq, Snapshot.processes, hprocesses, List.filter_cons_of_pos (by simpa using htop),
      List.filter_nil, List.map_singleton, hpid]
    rfl

theorem lineSystem_obeys : Obeys lineSystem 7 fun n => line n := by
  refine ⟨fun n => (pidsOf_line n).1, fun _ => .refl _, fun n => ⟨_, lineSystem_listed n, .refl _⟩,
    fun pid sig n hpid => ?_, fun _ => .refl _⟩
  obtain ⟨n, hn⟩ := n
  cases n with
  | zero => simp [line] at hpid
  | succ n =>
    have hpid : pid = ((n + 1 : Nat) : Int) + 99 := by
      have heq : pid = (n : Int) + 100 := by simpa [line, Family.pid] using hpid
      omega
    have htop : (node ((n : Int) + 100) false (line n)).pid = pid := by
      rw [hpid, Family.pid]
      omega
    refine ⟨_, if_pos hpid, .of_eq ?_⟩
    rw [line, List.flatMap_cons, List.flatMap_nil, List.append_nil, if_pos htop, after_node, if_neg (by simp)]
    rfl

theorem terminateAdoptedDescendants_line :
    (lineSystem.terminateAdoptedDescendants 7 20).1 = .ok () ∧
      (lineSystem.terminateAdoptedDescendants 7 21).1 ≠ .ok () := by
  have h := fun n => (terminateAdoptedDescendants_generations lineSystem_obeys n).2 (line_heeds n)
  refine ⟨(h 20).mpr ?_, fun hrun => ?_⟩
  · rw [generationsOf_line]
    decide
  · have := (h 21).mp hrun
    rw [generationsOf_line] at this
    exact absurd this (by decide)

end SecureSudoers
