/-
The code that the supervisor returns (`execute_securely`, `supervise_direct_child`).

It goes through two processes: the wrapper waits for the delegated program and
exits with its code, the supervisor waits for the wrapper. `exit_transparent` is
for the runs in which nobody kills the two on the way: then a code is returned
only if the program has run and ended, and it is the program's.
-/
import SecureSudoers.Startup

namespace SecureSudoers

open Runs

variable {D : Type}

/-- As a shell has it. -/
def WaitStatus.exitCode : WaitStatus → Int
  | .exited code => code
  | .signaled sig => 128 + sig.number
  | _ => 0

/-! ## What the supervisor has heard -/

/-- The supervisor has been told of this end. -/
def Supervision.Heard (s : Supervision) (n : Int) : Prop :=
  (∃ status, (s.status = some status ∨ s.place = .waited (.ok status)) ∧ status.final = true ∧ status.exitCode = n) ∨
    s.place = .terminate (.code n)

theorem afterWait_exitCode {r : Except Errno WaitStatus} {n : Int} (h : afterWait r = .terminate (.code n)) :
    ∃ status, r = .ok status ∧ status.final = true ∧ status.exitCode = n := by
  unfold afterWait at h
  split at h
  · cases h
    exact ⟨_, rfl, rfl, rfl⟩
  · cases h
    exact ⟨_, rfl, rfl, rfl⟩
  · split at h <;> cases h
  · cases h
  · split at h <;> cases h
  · cases h

theorem afterWait_ne_waited {r r' : Except Errno WaitStatus} : afterWait r ≠ .waited r' := by
  obtain h | ⟨_, h⟩ | ⟨_, h⟩ := afterWait_cases r <;> rw [h] <;> nofun

variable {sup : Supervisor} {s t : Supervision} {e : SupervisorEvent} {n : Int}

@[simp] theorem send_status {sig : Signal} : (s.send sig).status = s.status := rfl

/-- Only the child has a status to report. -/
theorem step_status (h : sup.step s e = some t) :
    t.status = s.status ∨ t.status = none ∨ ∃ status, e = .child status ∧ t.status = some status := by
  unfold Supervisor.step at h
  split at h
  all_goals repeat' split at h
  all_goals cases h
  all_goals simp

/-- `waitpid` returns what there is to report. -/
theorem step_waited {status : WaitStatus} (h : sup.step s e = some t) (ht : t.place = .waited (.ok status)) :
    s.place = .waited (.ok status) ∨ s.status = some status ∨ e = .child status := by
  unfold Supervisor.step at h
  split at h
  all_goals repeat' split at h
  all_goals cases h
  all_goals simp [afterWait_ne_waited] at ht
  all_goals simp_all

theorem step_code (h : sup.step s e = some t) (ht : t.place = .terminate (.code n)) :
    s.place = .terminate (.code n) ∨ ∃ r, s.place = .waited r ∧ afterWait r = .terminate (.code n) := by
  unfold Supervisor.step at h
  split at h
  all_goals repeat' split at h
  all_goals cases h
  all_goals simp at ht
  all_goals simp_all

/-- The code that is returned was in the loop's last place. -/
theorem step_returned (h : sup.step s e = some t) (ht : t.place = .returned (.ok n)) :
    s.place = .returned (.ok n) ∨ s.place = .terminate (.code n) := by
  obtain hplace | ⟨⟨n', hplace⟩, rfl⟩ := returned_step h ht
  · exact .inl hplace
  · simp only [Supervisor.step, hplace, Option.some.injEq] at h
    subst h
    cases ht
    exact .inr hplace

/-- **The supervisor hears of an end, and of its code, from the wrapper alone.** -/
theorem heard_step (h : sup.step s e = some t) (ht : t.Heard n) :
    s.Heard n ∨ ∃ status, e = .child status ∧ status.final = true ∧ status.exitCode = n := by
  obtain ⟨status, hs | hw, hfinal, hcode⟩ | hc := ht
  · obtain hsame | hnone | ⟨status', rfl, hnew⟩ := step_status h
    · exact .inl (.inl ⟨status, .inl (hsame ▸ hs), hfinal, hcode⟩)
    · cases hnone.symm.trans hs
    · cases hnew.symm.trans hs
      exact .inr ⟨status, rfl, hfinal, hcode⟩
  · obtain hplace | hstatus | rfl := step_waited h hw
    · exact .inl (.inl ⟨status, .inr hplace, hfinal, hcode⟩)
    · exact .inl (.inl ⟨status, .inl hstatus, hfinal, hcode⟩)
    · exact .inr ⟨status, rfl, hfinal, hcode⟩
  · obtain hplace | ⟨r, hplace, hr⟩ := step_code h hc
    · exact .inl (.inr hplace)
    · obtain ⟨status, rfl, hfinal, hcode⟩ := afterWait_exitCode hr
      exact .inl (.inl ⟨status, .inr hplace, hfinal, hcode⟩)

/-! ## What a run without interference keeps -/

namespace Delegating

variable {su : Startup D} {c d : Delegating}

/-- No step panics, and nobody kills the wrapper, or the inner process before it is the program. -/
def undisturbed (c : Delegating) : DelegatingEvent → Bool
  | .step _ o => o ≠ .panicked
  | .kill .wrapper _ => false
  | .kill .inner _ => c.inner = .delegated
  | _ => true

theorem marked_of_undisturbed {e : DelegatingEvent} (h : c.undisturbed e = true) : c.marked e = true := by
  cases e with
  | step who o => exact h
  | kill who sig =>
    cases who with
    | wrapper => cases h
    | inner =>
      have hinner : c.inner = .delegated := of_decide_eq_true h
      simp [marked, place, hinner, ChildPlace.isMarking]
  | _ => rfl

/-- Unless there is a mark, each process has the code of the one before it. -/
structure Coded (c : Delegating) : Prop where
  inner : ∀ code, c.inner = .exiting code → c.pipe ≠ []
  exiting : ∀ code, c.wrapper = .exiting code → c.pipe ≠ [] ∨ ∃ status, c.inner = .dead status ∧ code = status.exitCode
  dead : ∀ status, c.wrapper = .dead status →
    c.pipe ≠ [] ∨ ∃ status', c.inner = .dead status' ∧ status = .exited (status'.exitCode % 256)
  heard : ∀ s n, c.phase = .loop s → s.Heard n → ∃ status, c.wrapper = .dead status ∧ status.exitCode = n
  returned : ∀ s n, c.phase = .loop s → s.place = .returned (.ok n) →
    ∃ status, c.wrapper = .dead status ∧ status.exitCode = n
  done : ∀ n, c.phase = .done (.ok n) → c.pipe = [] ∧ ∃ status, c.wrapper = .dead status ∧ status.exitCode = n

theorem coded_start : start.Coded := by
  refine ⟨?_, ?_, ?_, ?_, ?_, ?_⟩ <;> intros <;> simp_all [start]

/-- What has ended stays as it is. -/
theorem Moved.dead {e : DelegatingEvent} (h : Moved su c d e) (hinv : c.Inv) {who : ChildRole} {status : WaitStatus}
    (hdead : c.place who = .dead status) : d.place who = .dead status := by
  have hgoto : ∀ {who' : ChildRole} {p : ChildPlace} {c' : Delegating}, (c.place who').isDead = false →
      c'.place = c.place → (c'.goto who' p).place who = .dead status := by
    intro who' p c' halive hsame
    have hother : who ≠ who' := by
      rintro rfl
      simp [hdead, ChildPlace.isDead] at halive
    rw [place_goto_other hother, hsame, hdead]
  cases h with
  | stepped hp hd | failed hp hd | panicked hp _ hd | marked hp hd | exited hp hd =>
    rw [hd]
    exact hgoto (by rw [hp]; rfl) rfl
  | killed _ halive hd =>
    rw [hd]
    exact hgoto halive rfl
  | forked hp hd =>
    cases who with
    | wrapper => cases hp.symm.trans hdead
    | inner => cases (hinv.forked _ _ hp).symm.trans hdead
  | waited hp hd | delegated hp hd | ended hp hd =>
    rw [hd]
    exact hgoto (by simp [place, hp, ChildPlace.isDead]) rfl

/-- A mark is written by who has one to write. -/
theorem Moved.pipe {e : DelegatingEvent} (h : Moved su c d e) (hinv : c.Inv) :
    d.pipe = c.pipe ∨ d.pipe ≠ [] ∧ ∃ who, (c.place who).isMarking = true := by
  cases h with
  | @marked who stage hp hd =>
    exact .inr ⟨by simp [hd, hinv.stages who stage hp], who, by rw [hp]; rfl⟩
  | stepped _ hd | forked _ hd | delegated _ hd | failed _ hd | panicked _ _ hd | exited _ hd | killed _ _ hd | waited _ hd
  | ended _ hd => exact .inl (by simp [hd])

/-- Who is about to exit. -/
theorem Moved.exiting {e : DelegatingEvent} (h : Moved su c d e) (hok : c.undisturbed e = true) (hinv : c.Inv)
    {who : ChildRole} {code : Int} (hd : d.place who = .exiting code) :
    c.place who = .exiting code ∨ d.pipe ≠ [] ∨
      (who = .wrapper ∧ ∃ r propagated, e = .wait r propagated ∧ afterWrapperWait propagated r = .exiting code) := by
  have hgoto : ∀ {who' : ChildRole} {p : ChildPlace} {c' : Delegating}, d = c'.goto who' p → c'.place = c.place →
      (∀ code, p ≠ .exiting code) → c.place who = .exiting code := by
    intro who' p c' hd' hsame hp
    subst hd'
    by_cases hwho : who = who'
    · subst hwho
      rw [place_goto_same] at hd
      exact absurd hd (hp code)
    · rwa [place_goto_other hwho, hsame] at hd
  cases h with
  | stepped _ hd' | failed _ hd' | exited _ hd' | killed _ _ hd' | delegated _ hd' | ended _ hd' =>
    exact .inl (hgoto hd' rfl nofun)
  | panicked => cases hok
  | @marked who' stage hp hd' => exact .inr (.inl (by simp [hd', hinv.stages who' stage hp]))
  | forked hp hd' =>
    subst hd'
    cases who <;> cases hd
  | waited hp hd' =>
    subst hd'
    cases who with
    | wrapper => exact .inr (.inr ⟨rfl, _, _, rfl, hd⟩)
    | inner => exact .inl hd

/-- Who has just ended. -/
theorem Moved.died {e : DelegatingEvent} (h : Moved su c d e) (hok : c.undisturbed e = true) {who : ChildRole}
    {status : WaitStatus} (hd : d.place who = .dead status) :
    c.place who = .dead status ∨ (∃ code, c.place who = .exiting code ∧ status = .exited (code % 256)) ∨
      (who = .inner ∧ c.inner = .delegated) := by
  have hgoto : ∀ {who' : ChildRole} {p : ChildPlace} {c' : Delegating}, d = c'.goto who' p → c'.place = c.place →
      c.place who = .dead status ∨ (who = who' ∧ p = .dead status) := by
    intro who' p c' hd' hsame
    subst hd'
    by_cases hwho : who = who'
    · subst hwho
      rw [place_goto_same] at hd
      exact .inr ⟨rfl, hd⟩
    · rw [place_goto_other hwho, hsame] at hd
      exact .inl hd
  cases h with
  | stepped _ hd' | failed _ hd' | marked _ hd' | delegated _ hd' =>
    obtain hsame | ⟨-, hp⟩ := hgoto hd' rfl
    · exact .inl hsame
    · cases hp
  | panicked => cases hok
  | exited hp hd' =>
    obtain hsame | ⟨rfl, hdead⟩ := hgoto hd' rfl
    · exact .inl hsame
    · cases hdead
      exact .inr (.inl ⟨_, hp, rfl⟩)
  | @killed who' sig _ _ hd' =>
    obtain hsame | ⟨rfl, -⟩ := hgoto hd' rfl
    · exact .inl hsame
    · cases who with
      | wrapper => cases hok
      | inner => exact .inr (.inr ⟨rfl, of_decide_eq_true hok⟩)
  | ended hp hd' =>
    obtain hsame | ⟨rfl, -⟩ := hgoto hd' rfl
    · exact .inl hsame
    · exact .inr (.inr ⟨rfl, hp⟩)
  | forked _ hd' =>
    subst hd'
    cases who <;> cases hd
  | @waited r propagated _ hd' =>
    obtain hsame | ⟨-, hp⟩ := hgoto hd' rfl
    · exact .inl hsame
    · unfold afterWrapperWait at hp
      split at hp <;> (try split at hp) <;> cases hp

theorem afterWrapperWait_exiting {propagated : Except Error Unit} {r : Except Errno WaitStatus} {code : Int}
    (h : afterWrapperWait propagated r = .exiting code) :
    ∃ status, r = .ok status ∧ status.final = true ∧ code = status.exitCode := by
  unfold afterWrapperWait at h
  split at h
  · cases h
    exact ⟨_, rfl, rfl, rfl⟩
  · cases h
    exact ⟨_, rfl, rfl, rfl⟩
  · split at h <;> cases h
  · cases h
  · split at h <;> cases h
  · cases h

/-- An end is reported of who has ended. -/
theorem reports_final {p : ChildPlace} {status : WaitStatus} (hfinal : status.final = true)
    (h : reports p status = true) : p = .dead status := by
  cases p <;> simp_all [reports]

theorem Moved.pipe_ne {e : DelegatingEvent} (h : Moved su c d e) (hinv : c.Inv) (hpipe : c.pipe ≠ []) : d.pipe ≠ [] := by
  obtain hsame | ⟨hne, -⟩ := h.pipe hinv
  · exact hsame ▸ hpipe
  · exact hne

theorem Moved.coded {e : DelegatingEvent} (h : Moved su c d e) (hnext : c.next su sup e = some d)
    (hok : c.undisturbed e = true) (hinv : c.Inv) (hc : c.Coded) : d.Coded where
  inner code hd := by
    have hd : d.place .inner = .exiting code := hd
    obtain hsame | hpipe | ⟨hwho, -⟩ := h.exiting hok hinv hd
    · exact h.pipe_ne hinv (hc.inner code hsame)
    · exact hpipe
    · cases hwho
  exiting code hd := by
    have hd' : d.place .wrapper = .exiting code := hd
    obtain hsame | hpipe | ⟨-, r, propagated, rfl, hr⟩ := h.exiting hok hinv hd'
    · obtain hpipe | ⟨status, hinner, hcode⟩ := hc.exiting code hsame
      · exact .inl (h.pipe_ne hinv hpipe)
      · exact .inr ⟨status, h.dead hinv (show c.place .inner = _ from hinner), hcode⟩
    · exact .inl hpipe
    · obtain ⟨status, rfl, hfinal, hcode⟩ := afterWrapperWait_exiting hr
      simp only [next] at hnext
      split at hnext
      · next hw =>
        have hinner : c.inner = .dead status := reports_final hfinal hw.2
        exact .inr ⟨status, h.dead hinv (show c.place .inner = _ from hinner), hcode⟩
      · cases hnext
  dead status hd := by
    have hd' : d.place .wrapper = .dead status := hd
    obtain hsame | ⟨code, hexiting, rfl⟩ | ⟨hwho, -⟩ := h.died hok hd'
    · obtain hpipe | ⟨status', hinner, hcode⟩ := hc.dead status hsame
      · exact .inl (h.pipe_ne hinv hpipe)
      · exact .inr ⟨status', h.dead hinv (show c.place .inner = _ from hinner), hcode⟩
    · obtain hpipe | ⟨status', hinner, rfl⟩ := hc.exiting code hexiting
      · exact .inl (h.pipe_ne hinv hpipe)
      · exact .inr ⟨status', h.dead hinv (show c.place .inner = _ from hinner), rfl⟩
    · cases hwho
  heard s n hs hheard := by
    obtain ⟨status, hdead, hcode⟩ := hc.heard s n (h.phase ▸ hs) hheard
    exact ⟨status, h.dead hinv (show c.place .wrapper = _ from hdead), hcode⟩
  returned s n hs hn := by
    obtain ⟨status, hdead, hcode⟩ := hc.returned s n (h.phase ▸ hs) hn
    exact ⟨status, h.dead hinv (show c.place .wrapper = _ from hdead), hcode⟩
  done n hn := by
    have hn : c.phase = .done (.ok n) := h.phase ▸ hn
    obtain ⟨hpipe, status, hdead, hcode⟩ := hc.done n hn
    refine ⟨?_, status, h.dead hinv (show c.place .wrapper = _ from hdead), hcode⟩
    obtain hsame | ⟨-, who, hmark⟩ := h.pipe hinv
    · exact hsame.trans hpipe
    · exact absurd hmark (hinv.done n hn).1.not_marking

/-- The supervisor's steps leave the child side as it is. -/
theorem Coded.of_phase {phase : SupervisorPhase} (hc : c.Coded)
    (heard : ∀ s n, phase = .loop s → s.Heard n → ∃ status, c.wrapper = .dead status ∧ status.exitCode = n)
    (returned : ∀ s n, phase = .loop s → s.place = .returned (.ok n) →
      ∃ status, c.wrapper = .dead status ∧ status.exitCode = n)
    (done : ∀ n, phase = .done (.ok n) → c.pipe = [] ∧ ∃ status, c.wrapper = .dead status ∧ status.exitCode = n) :
    { c with phase := phase : Delegating }.Coded where
  inner := hc.inner
  exiting := hc.exiting
  dead := hc.dead
  heard := heard
  returned := returned
  done := done

/-- What is returned is in the marks and the wrapper's end. -/
theorem Coded.returns {r : Except Error Int} (hc : c.Coded)
    (h : ∀ n, r = .ok n → c.pipe = [] ∧ ∃ status, c.wrapper = .dead status ∧ status.exitCode = n) :
    { c with phase := .done r : Delegating }.Coded := by
  refine hc.of_phase ?_ ?_ fun n hn => h n (SupervisorPhase.done.inj hn)
  · intro s n hs
    cases hs
  · intro s n hs
    cases hs

theorem coded_supervisor {e : SupervisorEvent} (hc : c.Coded) (h : c.next su sup (.supervisor e) = some d) : d.Coded := by
  simp only [next] at h
  split at h
  · next s hphase =>
    split at h
    · next hlets =>
      obtain ⟨t, hstep, rfl⟩ := Option.map_eq_some_iff.mp h
      refine hc.of_phase ?_ ?_ fun n hn => by cases hn
      · intro t' n ht hheard
        cases ht
        obtain hs | ⟨status, rfl, hfinal, hcode⟩ := heard_step hstep hheard
        · exact hc.heard s n hphase hs
        · exact ⟨status, reports_final hfinal hlets, hcode⟩
      · intro t' n ht hn
        cases ht
        obtain hplace | hplace := step_returned hstep hn
        · exact hc.returned s n hphase hplace
        · exact hc.heard s n hphase (.inr hplace)
    · cases h
  · cases h

theorem coded_next {e : DelegatingEvent} (hok : c.undisturbed e = true) (hinv : c.Inv) (hc : c.Coded)
    (h : c.next su sup e = some d) : d.Coded := by
  cases he : e.isChild with
  | true => exact (moved_of_next he h).coded h hok hinv hc
  | false =>
    cases e with
    | supervisor => exact coded_supervisor hc h
    | setup setup restore cleanup =>
      simp only [next] at h
      split at h
      · split at h <;> cases h
        · exact hc.returns fun n hn => by cases hn
        · refine hc.of_phase ?_ ?_ fun n hn => by cases hn
          · intro s n hs hheard
            cases hs
            simp [Supervision.Heard] at hheard
          · intro s n hs hn
            cases hs
            cases hn
      · cases h
    | read fails =>
      simp only [next] at h
      split at h
      · next r _ _ _ _ _ hphase =>
        split at h
        · cases h
          refine hc.returns fun n hn => ?_
          obtain ⟨hpipe, hr⟩ := supervisorResult_ok hn
          exact ⟨hpipe, hc.returned _ n hphase (by rw [hr])⟩
        · split at h
          · cases h
          · cases h
            exact hc.returns fun n hn => by cases hn
      · cases h
    | _ => cases he

/-- Without the program the inner process ends with a mark. -/
def Unstarted (c : Delegating) : Prop := ∀ status, c.inner = .dead status → c.pipe ≠ []

theorem unstarted_next {e : DelegatingEvent} (hok : c.undisturbed e = true) (hinv : c.Inv) (hc : c.Coded)
    (hnot : c.inner ≠ .delegated) (hu : c.Unstarted) (h : c.next su sup e = some d) : d.Unstarted := by
  cases he : e.isChild with
  | true =>
    have hm := moved_of_next he h
    intro status hd
    have hd : d.place .inner = .dead status := hd
    obtain hsame | ⟨code, hexiting, -⟩ | ⟨-, hdelegated⟩ := hm.died hok hd
    · exact hm.pipe_ne hinv (hu status hsame)
    · exact hm.pipe_ne hinv (hc.inner code hexiting)
    · exact absurd hdelegated hnot
  | false =>
    obtain ⟨phase, rfl⟩ : ∃ phase, d = { c with phase := phase } := by
      cases e with
      | supervisor e =>
        simp only [next] at h
        split at h
        · split at h
          · obtain ⟨t, -, rfl⟩ := Option.map_eq_some_iff.mp h
            exact ⟨_, rfl⟩
          · cases h
        · cases h
      | setup | read =>
        simp only [next] at h
        split at h
        · split at h
          all_goals try split at h
          all_goals cases h
          all_goals exact ⟨_, rfl⟩
        · cases h
      | _ => cases he
    exact hu

/-- A code that is returned is that of the end of the inner process, which has left no mark. -/
theorem done_code {es : List DelegatingEvent} {n : Int}
    (hrun : Run (Delegating.next su sup) (fun c e => c.undisturbed e = true) .start es c)
    (hdone : c.phase = .done (.ok n)) : c.pipe = [] ∧ ∃ status, c.inner = .dead status ∧ n = status.exitCode % 256 := by
  have hboth : c.Inv ∧ c.Coded := hrun.invariant (fun c => c.Inv ∧ c.Coded) ⟨inv_start, coded_start⟩
    fun _ _ _ hc hok hnext => ⟨inv_next hc.1 (marked_of_undisturbed hok) hnext, coded_next hok hc.1 hc.2 hnext⟩
  obtain ⟨hpipe, status, hdead, hcode⟩ := hboth.2.done n hdone
  obtain hmark | ⟨status', hinner, rfl⟩ := hboth.2.dead status hdead
  · exact absurd hpipe hmark
  · exact ⟨hpipe, status', hinner, hcode.symm⟩

end Delegating

/-- **The code is the program's.** In the runs in which no step panics and nobody
kills the wrapper, or the inner process before it is the program, the supervisor
returns a code only if the program has run and ended; and the code is that of its
end, as one octet. -/
theorem exit_transparent {su : Startup D} {sup : Supervisor} {es : List DelegatingEvent} {c : Delegating} {n : Int}
    (hrun : Run (Delegating.next su sup) (fun c e => c.undisturbed e = true) .start es c)
    (hdone : c.phase = .done (.ok n)) :
    (∃ status, c.inner = .dead status ∧ n = status.exitCode % 256) ∧
    ∃ front back u, es = front ++ back ∧ Run (Delegating.next su sup) (fun c e => c.undisturbed e = true) .start front u ∧
      u.inner = .delegated ∧ Run (Delegating.next su sup) (fun c e => c.undisturbed e = true) u back c := by
  obtain ⟨hpipe, status, hinner, hcode⟩ := Delegating.done_code hrun hdone
  refine ⟨⟨status, hinner, hcode⟩, ?_⟩
  obtain havoids | hvisits := hrun.visits fun c => c.inner = .delegated
  · have hall : c.Inv ∧ c.Coded ∧ c.Unstarted := havoids.invariant (fun c => c.Inv ∧ c.Coded ∧ c.Unstarted)
      ⟨Delegating.inv_start, Delegating.coded_start, by intro status h; cases h⟩
      fun _ _ _ ⟨hinv, hc, hu⟩ ⟨hok, hnot⟩ hnext =>
        ⟨Delegating.inv_next hinv (Delegating.marked_of_undisturbed hok) hnext,
          Delegating.coded_next hok hinv hc hnext, Delegating.unstarted_next hok hinv hc hnot hu hnext⟩
    exact absurd hpipe (hall.2.2 status hinner)
  · exact hvisits

/-- The program is ended by a signal. -/
theorem exit_transparent_term : ∃ es c, Run (Delegating.next (lsStartup []) ⟨100, false⟩)
    (fun c e => c.undisturbed e = true) .start es c ∧ c.phase = .done (.ok 143) ∧
      ∃ status, c.inner = .dead status ∧ 143 = status.exitCode % 256 := by
  let es : List DelegatingEvent := .setup (.ok ()) (.ok ()) (.ok ()) :: List.replicate 12 (.step .wrapper .ok) ++
    List.replicate 3 (.step .inner .ok) ++ [.ends (.signaled .SIGTERM), .wait (.ok (.signaled .SIGTERM)) (.ok ())] ++
    heard 143
  have hrun : ∃ c, Run (Delegating.next (lsStartup []) ⟨100, false⟩) (fun c e => c.undisturbed e = true) .start es c ∧
      c.phase = .done (.ok 143) := ⟨_, run_of_play rfl, rfl⟩
  obtain ⟨c, hrun, hdone⟩ := hrun
  exact ⟨es, c, hrun, hdone, (exit_transparent hrun hdone).1⟩

end SecureSudoers
